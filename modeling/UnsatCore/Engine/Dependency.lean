import UnsatCore.Engine.Attachment

/-! What a conflict depends on. The false literals of a needed clause are marked; walking down the
trail, the reason of each marked literal is needed too. Needed clauses enter the core. -/
namespace UnsatCore.Engine

open CheckM

def markLiterals : Clause → CheckM Unit
  | [] => pure ()
  | l :: rest => do
    onTrail (·.mark l)
    markLiterals rest

/-- Tells both watchers of a clause that it is in the core now. -/
def markWatchers (c : Handle) : CheckM Unit := do
  let first ← literalOf c 0
  onWatches (·.mark first c)
  let second ← literalOf c 1
  onWatches (·.mark second c)

/-- A clause is in the core before its watchers are told, and they are told once. -/
def enterCore (c : Handle) : CheckM Unit := do
  if ← markCore c then
    if ← watchable c then markWatchers c

/-- Puts a clause into the core and marks its literals from position `skip` on. -/
def need (c : Handle) (skip : Nat) : CheckM Unit := do
  count Counters.countResolution
  enterCore c
  markLiterals (← bodyOf c skip)

/-- The reason of a literal, if the literal is marked and was forced by a clause. -/
def markedReason (l : Literal) (s : State) : Except Fault (Option Handle) := do
  if ← s.trail.isMarked l then s.trail.reasonOf l.var else return none

/-- A reason forced its first literal; the other ones were false before. -/
def needReason (l : Literal) : CheckM Unit := do
  match ← ask (markedReason l) with
  | some c => need c 1
  | none => pure ()

/-- Visits the first `n` literals of the trail from the newest to the oldest. Those that stay, the
first `forced` ones, lose their mark. -/
def traceFrom (forced : Nat) : (n : Nat) → CheckM Unit
  | 0 => pure ()
  | i + 1 => do
    let l ← ask (·.trail.literalAt i)
    needReason l
    if i < forced then onTrail (·.setStatus l .falsified)
    traceFrom forced i

/-- Unassigns all that is not fixed. -/
def backtrack (forced : Nat) : CheckM Unit := do
  onTrail (·.truncate forced)
  onTrail fun t => .ok { t with processed := forced }

/-- Puts the reasons of the marked literals into the core, and backtracks. -/
def traceReasons : CheckM Unit := do
  let forced ← look (·.trail.forced)
  traceFrom forced (← look (·.trail.assigned))
  backtrack forced

/-- Puts all that a conflict depends on into the core, and backtracks. -/
def explain (conflict : Handle) : CheckM Unit := do
  need conflict 0
  traceReasons

end UnsatCore.Engine
