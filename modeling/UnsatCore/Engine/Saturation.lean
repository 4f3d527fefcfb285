import UnsatCore.Engine.Sweep

/-! Unit propagation to the end. With the core first, one cursor runs ahead over the trail and
visits clauses of the core only, and a second one visits the others; when the second one derives a
literal, the first one catches up before the second one goes on. -/
namespace UnsatCore.Engine

open CheckM

/-- How unit propagation ends. -/
inductive Saturation
  /-- A clause became false, and was explained. -/
  | conflict
  /-- Every literal of the trail is propagated. -/
  | drained
deriving DecidableEq

/-- Where unit propagation is. -/
structure Scan where
  pass : Pass
  /-- The place on the trail of the next literal for the clauses of the core. -/
  core : Nat
  /-- The place on the trail of the next literal for the other clauses. -/
  rest : Nat
  /-- The next watcher of the literal at `rest`. -/
  next : Nat

namespace Scan

/-- Both cursors stand at the first literal that is not propagated. -/
def start (coreFirst : Bool) (processed : Nat) : Scan :=
  ⟨if coreFirst then .core else .all, processed, processed, 0⟩

def cursor (scan : Scan) : Nat :=
  match scan.pass with
  | .core => scan.core
  | .rest | .all => scan.rest

def offset (scan : Scan) : Nat :=
  match scan.pass with
  | .core => 0
  | .rest | .all => scan.next

def advance (scan : Scan) : Scan :=
  match scan.pass with
  | .core => { scan with core := scan.core + 1 }
  | .rest | .all => { scan with rest := scan.rest + 1, next := 0 }

def detour (scan : Scan) (next : Nat) : Scan := { scan with pass := .core, next }

end Scan

/-- One round: a list was swept, a pass ended, or all is done. -/
inductive Round
  | onward (scan : Scan)
  | done (result : Saturation)

/-- No literal is left for the pass. -/
def endPass (scan : Scan) : CheckM Round :=
  match scan.pass with
  | .core => pure (.onward { scan with pass := .rest })
  | .rest | .all => do
    onTrail fun t => .ok { t with processed := t.assigned }
    return .done .drained

def sweepRound (scan : Scan) : CheckM Round := do
  let l ← ask (·.trail.literalAt scan.cursor)
  match ← sweep scan.pass l scan.offset with
  | .finished => return .onward scan.advance
  | .paused next => return .onward (scan.detour next)
  | .conflict => return .done .conflict

def round (scan : Scan) : CheckM Round := do
  if scan.cursor < (← look (·.trail.assigned)) then sweepRound scan else endPass scan

/-- At most `n` rounds. -/
def rounds : (n : Nat) → Scan → CheckM Saturation
  | 0, _ => fault .exhausted
  | n + 1, scan => do
    match ← round scan with
    | .onward scan => rounds n scan
    | .done result => return result

/-- Propagates all literals of the trail that are not propagated yet. A variable has two literals,
so twice the number of slots allows each variable two sweeps, a detour and the end of a pass. -/
def saturate (coreFirst : Bool) : CheckM Saturation := do
  let slots ← look (·.trail.status.size)
  rounds (2 * slots) (.start coreFirst (← look (·.trail.processed)))

end UnsatCore.Engine
