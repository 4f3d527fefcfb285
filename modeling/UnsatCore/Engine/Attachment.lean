import UnsatCore.Engine.State

/-! Clauses on and off the watch lists, and how the current assignment sees them. -/
namespace UnsatCore.Engine

open CheckM

/-- A clause of at least two literals watches its first two. -/
def watchable (c : Handle) : CheckM Bool := ask (·.arena.isWatchable c)

def literalOf (c : Handle) (i : Nat) : CheckM Literal := ask (·.arena.literal c i)

def bodyOf (c : Handle) (skip : Nat) : CheckM Clause := ask (·.arena.body c skip)

def isFalseNow (l : Literal) : CheckM Bool := ask (·.trail.isFalse l)

def isTrueNow (l : Literal) : CheckM Bool := ask (·.trail.isTrue l)

def requireWatchable (c : Handle) : CheckM Unit := do
  unless ← watchable c do fault (.notWatchable c)

/-- Puts a clause onto the lists of its first two literals. -/
def attach (c : Handle) : CheckM Unit := do
  requireWatchable c
  let core ← ask (·.arena.isCore c)
  let first ← literalOf c 0
  onWatches (·.insert first ⟨c, core⟩)
  let second ← literalOf c 1
  onWatches (·.insert second ⟨c, core⟩)

/-- Takes a clause off the lists of its first two literals. -/
def detach (c : Handle) : CheckM Unit := do
  requireWatchable c
  let first ← literalOf c 0
  onWatches (·.remove first c)
  let second ← literalOf c 1
  onWatches (·.remove second c)

/-- Whether the first literal of a clause is true because of the clause. -/
def isReason (s : State) (c : Handle) : Except Fault Bool := do
  let first ← s.arena.literal c 0
  if first.isZero then return false
  if ← s.trail.isTrue first then return (← s.trail.reasonOf first.var) == some c
  return false

/-- Whether a list of literals has a true one. Later literals are not looked at. -/
def anyTrue (t : Trail) : Clause → Except Fault Bool
  | [] => .ok false
  | l :: rest =>
    match t.isTrue l with
    | .ok true => .ok true
    | .ok false => anyTrue t rest
    | .error e => .error e

def isSatisfied (s : State) (c : Handle) : Except Fault Bool :=
  anyTrue s.trail (s.arena.literals c)

/-- How the assignment sees a clause: whether a literal is true, and how many are not false. -/
structure View where
  satisfied : Bool
  size : Nat

/-- Moves each literal that is not false to the front, from position `i` on, where the literals
are `rest` and the ones before `i` gave `view`. -/
def sortFrom (c : Handle) : (rest : Clause) → (i : Nat) → View → CheckM View
  | [], _, view => pure view
  | l :: rest, i, view => do
    if ← isFalseNow l then sortFrom c rest (i + 1) view
    else
      let holds ← isTrueNow l
      onArena (·.swap c i view.size)
      sortFrom c rest (i + 1) ⟨view.satisfied || holds, view.size + 1⟩

/-- Moves the literals of a clause that are not false to the front. -/
def sortUnfalsified (c : Handle) : CheckM View := do
  sortFrom c (← bodyOf c 0) 0 ⟨false, 0⟩

end UnsatCore.Engine
