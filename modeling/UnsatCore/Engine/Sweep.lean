import UnsatCore.Engine.Dependency

/-! Visits the clauses on the watch list of a literal that became false. -/
namespace UnsatCore.Engine

open CheckM

/-- Which watchers are visited. -/
inductive Pass
  | core
  | rest
  | all
deriving DecidableEq

namespace Pass

def visits : Pass → Watcher → Bool
  | core, w => w.core
  | rest, w => !w.core
  | all, _ => true

/-- What is derived from other clauses than the core's is first tried on the core. -/
def pauses : Pass → Bool
  | rest => true
  | core | all => false

end Pass

/-- What came of a visit. -/
inductive Visit
  /-- The clause has a true literal. -/
  | kept
  /-- The clause watches another literal now. -/
  | moved
  /-- The clause made its first literal true. -/
  | derived
  /-- All literals of the clause are false. -/
  | conflict
deriving DecidableEq

def eitherTrue (first second : Literal) (s : State) : Except Fault Bool := do
  if ← s.trail.isTrue first then return true
  s.trail.isTrue second

/-- Brings the false literal `l`, which is one of the two watched ones, to the second place. -/
def bringBack (l : Literal) (c : Handle) (first : Literal) : CheckM Unit := do
  if first = l then onArena (·.swap c 0 1)
  unless (← literalOf c 1) = l do fault (.misplacedWatch c l)

/-- The first literal that is not false, with its position, counted from `k`. -/
def firstUnfalsified (t : Trail) : Clause → (k : Nat) → Except Fault (Option (Nat × Literal))
  | [], _ => .ok none
  | l :: rest, k =>
    match t.isFalse l with
    | .ok false => .ok (some (k, l))
    | .ok true => firstUnfalsified t rest (k + 1)
    | .error e => .error e

/-- A literal to watch in place of the second one. -/
def replacement (c : Handle) (s : State) : Except Fault (Option (Nat × Literal)) := do
  firstUnfalsified s.trail (← s.arena.body c 2) 2

/-- The watcher at position `i` of the list of `l` goes to the list of `other`, which is at
position `k` of the clause. -/
def moveWatcher (l : Literal) (i : Nat) (c : Handle) (k : Nat) (other : Literal) :
    CheckM Unit := do
  onArena (·.swap c 1 k)
  let w ← ask (·.watches.watcher l i)
  onWatches (·.removeAt l i)
  onWatches (·.insert other w)

/-- All literals of a clause but the first one are false: the first one is true now, or there is a
conflict, which is explained. -/
def deriveFirst (l : Literal) (c : Handle) : CheckM Visit := do
  let unit ← literalOf c 0
  if ← isFalseNow unit then
    emit (.conflict c (-l))
    explain c
    return .conflict
  else
    emit (.propagated unit c)
    onTrail (·.assign unit (some c))
    count Counters.countPropagation
    return .derived

/-- A clause without a true literal among its first two looks for another literal to watch. -/
def rewatch (l : Literal) (i : Nat) (c : Handle) : CheckM Visit := do
  match ← ask (replacement c) with
  | some (k, other) =>
    moveWatcher l i c k other
    return .moved
  | none => deriveFirst l c

/-- Visits the clause `c`, whose watcher is at position `i` of the list of the false literal `l`. -/
def visit (l : Literal) (i : Nat) (c : Handle) : CheckM Visit := do
  let first ← literalOf c 0
  let second ← literalOf c 1
  if ← ask (eitherTrue first second) then return .kept
  else
    bringBack l c first
    rewatch l i c

/-- What came of the visits to a list. -/
inductive Swept
  | finished
  /-- A literal was derived; `next` is the next watcher. -/
  | paused (next : Nat)
  | conflict
deriving DecidableEq

/-- Visits the `n` watchers from position `i` on. A watcher that leaves the list is replaced by the
last one of the list, so the position stays and one watcher less is to come. -/
def sweepFrom (pass : Pass) (l : Literal) : (n i : Nat) → CheckM Swept
  | 0, _ => pure .finished
  | n + 1, i => do
    let w ← ask (·.watches.watcher l i)
    if pass.visits w then
      match ← visit l i w.clause with
      | .kept => sweepFrom pass l n (i + 1)
      | .moved => sweepFrom pass l n i
      | .derived => if pass.pauses then return .paused (i + 1) else sweepFrom pass l n (i + 1)
      | .conflict => return .conflict
    else sweepFrom pass l n (i + 1)

/-- Visits the watchers of `l` from position `i` on. -/
def sweep (pass : Pass) (l : Literal) (i : Nat) : CheckM Swept := do
  let size ← ask (·.watches.length l)
  sweepFrom pass l (size - i) i

end UnsatCore.Engine
