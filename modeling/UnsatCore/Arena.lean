import UnsatCore.Clause
import UnsatCore.Capacity

/-! All clauses in one buffer of words. A clause is a header, its literals and a closing 0. The
header is twice the clause's number, plus one if the clause is in the core. Clauses are never
moved, only permuted in place, so that a handle stays good for ever. -/
namespace UnsatCore

structure Arena where
  words : Array Int32
  /-- The number of the next clause. -/
  nextId : Int32

namespace Arena

def empty : Arena := ⟨#[], 0⟩

/-- An empty arena that is to hold `capacity` words, if there can be so many. The room is taken as
clauses come. -/
def withCapacity (capacity : Nat) : Except Fault Arena :=
  match Capacity.check Capacity.wordWidth capacity with
  | .ok () => .ok empty
  | .error e => .error e

def clauseCount (a : Arena) : Nat := a.nextId.toInt.toNat

/-- Stores a clause at the end of the buffer. The header is doubled in the arithmetic of words. -/
def add (a : Arena) (c : Clause) : Except Fault (Handle × Arena) :=
  if c.hasZero then .error .zeroLiteral
  else if a.nextId = Int32.maxValue then .error .overflow
  else .ok (⟨a.words.size⟩,
    ⟨((a.words.push (a.nextId + a.nextId)) ++ c.map Literal.val).push 0, a.nextId + 1⟩)

def word (a : Arena) (i : Nat) : Except Fault Int32 :=
  Fault.require .outOfBounds a.words[i]?

/-- The word at position `i` of a clause. The position after the last literal holds 0. -/
def literal (a : Arena) (c : Handle) (i : Nat) : Except Fault Literal :=
  match a.word (c.offset + i) with
  | .ok w => .ok ⟨w⟩
  | .error e => .error e

def setWord (a : Arena) (i : Nat) (w : Int32) : Except Fault Arena :=
  if h : i < a.words.size then .ok { a with words := a.words.set i w h }
  else .error .outOfBounds

def setLiteral (a : Arena) (c : Handle) (i : Nat) (l : Literal) : Except Fault Arena :=
  a.setWord (c.offset + i) l.val

def swap (a : Arena) (c : Handle) (i j : Nat) : Except Fault Arena :=
  if h : c.offset + i < a.words.size ∧ c.offset + j < a.words.size then
    .ok { a with words := a.words.swap (c.offset + i) (c.offset + j) h.1 h.2 }
  else .error .outOfBounds

/-- The literals from place `i` up to the next 0 within `n` words, and whether there is such a 0. -/
def scan (words : Array Int32) : (n i : Nat) → Clause × Bool
  | 0, _ => ([], false)
  | n + 1, i =>
    match words[i]? with
    | none => ([], false)
    | some w =>
      if w = 0 then ([], true)
      else
        let rest := scan words n (i + 1)
        (⟨w⟩ :: rest.1, rest.2)

/-- The literals of a clause from position `i` on, and whether a 0 closes them. -/
def scanFrom (a : Arena) (c : Handle) (i : Nat) : Clause × Bool :=
  scan a.words (a.words.size - (c.offset + i)) (c.offset + i)

/-- The literals of a clause. If its closing 0 is lost they run on, at most to the end of the
buffer. -/
def literals (a : Arena) (c : Handle) : Clause := (a.scanFrom c 0).1

/-- The number of literals, or 0 if nothing closes the clause. -/
def length (a : Arena) (c : Handle) : Nat :=
  match a.scanFrom c 0 with
  | (ls, true) => ls.length
  | (_, false) => 0

/-- The literals of a clause from position `i` on. The 0 that closes them has to be there. -/
def body (a : Arena) (c : Handle) (i : Nat) : Except Fault Clause :=
  match a.scanFrom c i with
  | (ls, true) => .ok ls
  | (_, false) => .error .outOfBounds

/-- The number in a header, rounded down and widened to 64 bits without a sign. -/
def id (a : Arena) (c : Handle) : Except Fault Nat :=
  match a.word c.header with
  | .ok w => .ok (w.toInt / 2 % UInt64.size).toNat
  | .error e => .error e

def isCore (a : Arena) (c : Handle) : Except Fault Bool :=
  match a.word c.header with
  | .ok w => .ok (w.toInt % 2 == 1)
  | .error e => .error e

/-- Puts a clause into the core, and tells whether it is new there. -/
def markCore (a : Arena) (c : Handle) : Except Fault (Bool × Arena) :=
  if h : c.header < a.words.size then
    let w := a.words[c.header]
    if w.toInt % 2 = 1 then .ok (false, a)
    else .ok (true, { a with words := a.words.set c.header (w + 1) h })
  else .error .outOfBounds

/-- Whether a clause has two literals to watch. -/
def isWatchable (a : Arena) (c : Handle) : Except Fault Bool :=
  match a.literal c 0 with
  | .error e => .error e
  | .ok first =>
    if first.isZero then .ok false
    else
      match a.literal c 1 with
      | .error e => .error e
      | .ok second => .ok !second.isZero

end Arena

end UnsatCore
