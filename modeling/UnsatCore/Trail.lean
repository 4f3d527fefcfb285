import UnsatCore.SlotMap
import UnsatCore.Fault

/-! The current assignment, as a stack of false literals with the clauses that forced them. -/
namespace UnsatCore

/-- A marked literal is false and takes part in the conflict that is being explained. -/
inductive Status
  | unset
  | falsified
  | marked
deriving DecidableEq

/-- The first `forced` literals of the stack were fixed before the current line, and the first
`processed` ones have been propagated. -/
structure Trail where
  status : SlotMap Literal Status
  reason : SlotMap Var (Option Handle)
  stack : Array Literal
  processed : Nat
  forced : Nat

namespace Trail

/-- A trail for the variables up to `maxVar`. -/
def blank (maxVar : Nat) : Trail where
  status := .replicate (2 * maxVar + 3) .unset
  reason := .replicate (maxVar + 2) none
  stack := #[]
  processed := 0
  forced := 0

def assigned (t : Trail) : Nat := t.stack.size

def literalAt (t : Trail) (i : Nat) : Except Fault Literal :=
  Fault.require .outOfBounds t.stack[i]?

def statusOf (t : Trail) (l : Literal) : Except Fault Status :=
  Fault.require .outOfBounds (t.status.get? l)

def reasonOf (t : Trail) (v : Var) : Except Fault (Option Handle) :=
  Fault.require .outOfBounds (t.reason.get? v)

def isFalse (t : Trail) (l : Literal) : Except Fault Bool :=
  match t.statusOf l with
  | .ok st => .ok (st != .unset)
  | .error e => .error e

def isTrue (t : Trail) (l : Literal) : Except Fault Bool :=
  match l.opposite? with
  | some m => t.isFalse m
  | none => .error .overflow

def isMarked (t : Trail) (l : Literal) : Except Fault Bool :=
  match t.statusOf l with
  | .ok st => .ok (st == .marked)
  | .error e => .error e

def setStatus (t : Trail) (l : Literal) (st : Status) : Except Fault Trail :=
  match t.status.set? l st with
  | some status => .ok { t with status }
  | none => .error .outOfBounds

def setReason (t : Trail) (v : Var) (c : Option Handle) : Except Fault Trail :=
  match t.reason.set? v c with
  | some reason => .ok { t with reason }
  | none => .error .outOfBounds

def clearReason (t : Trail) (v : Var) : Except Fault Trail := t.setReason v none

def mark (t : Trail) (l : Literal) : Except Fault Trail :=
  match t.isFalse l with
  | .ok true => t.setStatus l .marked
  | .ok false => .error (.notFalsified l)
  | .error e => .error e

/-- Whether a literal is true or false. Whether it is false is asked first. -/
def isAssigned (t : Trail) (l : Literal) : Except Fault Bool :=
  match t.isFalse l with
  | .ok false => t.isTrue l
  | r => r

def push (t : Trail) (l : Literal) : Trail := { t with stack := t.stack.push l }

/-- Makes `l` true: its opposite goes onto the stack. -/
def assign (t : Trail) (l : Literal) (c : Option Handle) : Except Fault Trail :=
  match t.isAssigned l with
  | .ok true => .error (.alreadyAssigned l)
  | .error e => .error e
  | .ok false =>
    match t.setStatus (-l) .falsified with
    | .error e => .error e
    | .ok t => (t.push (-l)).setReason l.var c

/-- Forgets the value and the reason of a literal. -/
def release (t : Trail) (l : Literal) : Except Fault Trail :=
  match t.setStatus l .unset with
  | .ok t => t.clearReason l.var
  | .error e => .error e

/-- Takes the newest literal off the stack, if there is one. -/
def pop (t : Trail) : Except Fault Trail :=
  match t.stack.back? with
  | none => .ok t
  | some l => Trail.release { t with stack := t.stack.pop } l

def popMany : Nat → Trail → Except Fault Trail
  | 0, t => .ok t
  | n + 1, t =>
    match t.pop with
    | .ok t => popMany n t
    | .error e => .error e

/-- Unassigns all but the first `n` literals of the stack. -/
def truncate (t : Trail) (n : Nat) : Except Fault Trail :=
  popMany (t.assigned - n) t

/-- Unassigns while `l` is true, for at most `n` literals. -/
def popWhileTrue (l : Literal) : Nat → Trail → Except Fault Trail
  | 0, t => .ok t
  | n + 1, t =>
    match t.isTrue l with
    | .ok false => .ok t
    | .error e => .error e
    | .ok true =>
      match t.pop with
      | .ok t => popWhileTrue l n t
      | .error e => .error e

/-- Takes all that is left on the stack as fixed and propagated. -/
def settle (t : Trail) : Trail :=
  { t with processed := t.stack.size, forced := t.stack.size }

/-- Unassigns `l` and all that came after it. -/
def unassign (t : Trail) (l : Literal) : Except Fault Trail :=
  match t.isTrue l with
  | .error e => .error e
  | .ok _ =>
    match popWhileTrue l t.assigned t with
    | .ok t => .ok t.settle
    | .error e => .error e

end Trail

end UnsatCore
