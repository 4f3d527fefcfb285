import UnsatCore.Engine.Saturation

/-! The second pass: the lines are undone from the conflict back to the first one, and each lemma
that the conflict was found to depend on has to follow by unit propagation from the clauses that
were there before it. -/
namespace UnsatCore.Engine

open CheckM

/-- How the negation of a lemma fits the assignment. -/
inductive Assumption
  /-- A literal of the lemma is true already. -/
  | refuted (l : Literal)
  | consistent

/-- Makes the literals of a lemma false, up to the first that is true. -/
def assume : Clause → CheckM Assumption
  | [] => return .consistent
  | l :: rest => do
    if ← isFalseNow l then assume rest
    else if ← isTrueNow l then return .refuted l
    else
      onTrail (·.assign (-l) none)
      assume rest

/-- Whether the negation of a lemma leads to a conflict. Where it does, all that the conflict
depends on is in the core afterwards. -/
def followsByUnits (coreFirst : Bool) (c : Handle) : CheckM Bool := do
  match ← assume (← bodyOf c 0) with
  | .refuted l =>
    onTrail (·.mark (-l))
    traceReasons
    return true
  | .consistent => return (← saturate coreFirst) = .conflict

/-- Takes back what a lemma added to the watch lists and to the assignment. -/
def withdraw (c : Handle) : CheckM Unit := do
  if ← watchable c then detach c
  let first ← literalOf c 0
  unless first.isZero do
    if (← ask (·.trail.reasonOf first.var)) = some c then onTrail (·.unassign first)

def recordJustified (index : Nat) : CheckM Unit :=
  modify fun s => { s with justified := index :: s.justified }

/-- A lemma of the core has to follow. `given` is the lemma as it stands in the derivation. -/
def check (coreFirst : Bool) (index : Nat) (given : Clause) (c : Handle) : CheckM Unit := do
  emit (.checking (← look (·.arena.literals c)) index)
  if ← followsByUnits coreFirst c then
    recordJustified index
    count Counters.countChecked
  else reject (.lemmaNotImplied index given)

def undoLemma (coreFirst : Bool) (index : Nat) (given : Clause) (c : Handle) : CheckM Unit := do
  withdraw c
  if ← ask (·.arena.isCore c) then check coreFirst index given c
  else count Counters.countSkipped

/-- Puts a deleted clause back. -/
def undoDelete (c : Handle) : CheckM Unit := do
  let _ ← sortUnfalsified c
  attach c

def undoStep (coreFirst : Bool) (index : Nat) (given : Clause) : Step → CheckM Unit
  | .delete c => undoDelete c
  | .add c => undoLemma coreFirst index given c
  | .satisfied _ | .ignored => pure ()

/-- Undoes the line of number `index`. -/
def undoLine (coreFirst : Bool) (given : Array Clause) (index : Nat) : CheckM Unit := do
  let step ← ask fun s => Fault.require .outOfBounds s.steps[index]?
  undoStep coreFirst index (given.getD index []) step

/-- Undoes the first `n` lines, from the last to the first. -/
def undoFrom (coreFirst : Bool) (given : Array Clause) : (n : Nat) → CheckM Unit
  | 0 => pure ()
  | n + 1 => do
    undoLine coreFirst given n
    undoFrom coreFirst given n

/-- Undoes the lines up to the one after which the conflict was met. -/
def justify (coreFirst : Bool) (given : Array Clause) (last : Nat) : CheckM Unit := do
  emit (.justifying last)
  fixProcessed
  undoFrom coreFirst given (last + 1)

end UnsatCore.Engine
