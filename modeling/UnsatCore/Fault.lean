import UnsatCore.Literal

/-! What can go wrong when a data structure is used outside its contract. A fault is not a verdict
on the input: it says that an operation was asked for something it does not do. -/
namespace UnsatCore

/-- A stored clause, by the place of its header word. Its literals start at the next word. -/
structure Handle where
  header : Nat
deriving DecidableEq

def Handle.offset (c : Handle) : Nat := c.header + 1

instance : ToString Handle := ⟨fun c => "@" ++ toString c.offset⟩

inductive Fault
  /-- A table or buffer has no such place. -/
  | outOfBounds
  /-- The result of an operation is not a word. -/
  | overflow
  /-- A clause to be stored has the literal 0, which would end it early. -/
  | zeroLiteral
  | alreadyAssigned (l : Literal)
  /-- Only a false literal can be marked. -/
  | notFalsified (l : Literal)
  | noWatcher (c : Handle) (l : Literal)
  /-- Only a clause of two or more literals can be attached or detached. -/
  | notWatchable (c : Handle)
  /-- A clause is visited through a literal that is not one of its first two. -/
  | misplacedWatch (c : Handle) (l : Literal)
  | tooManyVariables (count : Nat)
  /-- A table of the size asked for is not addressable. -/
  | tooLarge
  /-- A loop took more rounds than were allotted to it. -/
  | exhausted
deriving DecidableEq

namespace Fault

/-- The faults that explain themselves. -/
def message? : Fault → Option String
  | alreadyAssigned l => some s!"{l} is already assigned"
  | noWatcher c l => some s!"no watcher of {c} on {l}"
  | tooManyVariables n => some s!"too many variables for brute force: {n}"
  | _ => none

/-- Takes the value that is there, or fails. -/
def require {α : Type} (fault : Fault) : Option α → Except Fault α
  | some a => .ok a
  | none => .error fault

end Fault

end UnsatCore
