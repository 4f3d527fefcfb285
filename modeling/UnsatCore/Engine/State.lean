import UnsatCore.Arena
import UnsatCore.WatchTable
import UnsatCore.Trail
import UnsatCore.ClauseIndex
import UnsatCore.Event

/-! The state of a run and the steps it is changed by. -/
namespace UnsatCore.Engine

/-- What became of a line of the derivation. -/
inductive Step
  | add (c : Handle)
  | delete (c : Handle)
  /-- A lemma with a literal that is true for good. It is never watched. -/
  | satisfied (c : Handle)
  /-- A deletion that is not carried out. -/
  | ignored
deriving DecidableEq

structure State where
  arena : Arena
  watches : WatchTable
  trail : Trail
  /-- The clauses of the formula, in order. -/
  origins : Array Handle
  /-- The lines of the derivation that were read, in order. -/
  steps : Array Step
  index : ClauseIndex
  /-- The lines whose lemma was shown to follow from what was there before it. -/
  justified : List Nat
  counters : Counters
  log : Log

namespace State

/-- Nothing stored yet, with room for the variables up to `maxVar`. -/
def initial (maxVar : Nat) : State where
  arena := .empty
  watches := .blank (2 * maxVar + 3)
  trail := .blank maxVar
  origins := #[]
  steps := #[]
  index := .empty
  justified := []
  counters := {}
  log := #[]

end State

/-- The early end of a run. After a rejection the last state is kept, after a fault only what
was reported up to there. -/
inductive Halt
  | fault (cause : Fault) (log : Log)
  | rejected (cause : Rejection) (state : State)

abbrev CheckM := StateT State (Except Halt)

namespace CheckM

variable {α : Type}

def fault (cause : Fault) : CheckM α := fun s => .error (.fault cause s.log)

def reject (cause : Rejection) : CheckM α := fun s => .error (.rejected cause s)

/-- A look at the state that cannot fail. -/
def look (f : State → α) : CheckM α := fun s => .ok (f s, s)

/-- Looks at the state without changing it. -/
def ask (f : State → Except Fault α) : CheckM α := fun s =>
  match f s with
  | .ok a => .ok (a, s)
  | .error e => .error (.fault e s.log)

def onArena (f : Arena → Except Fault Arena) : CheckM Unit := fun s =>
  match f s.arena with
  | .ok arena => .ok ((), { s with arena })
  | .error e => .error (.fault e s.log)

def onWatches (f : WatchTable → Except Fault WatchTable) : CheckM Unit := fun s =>
  match f s.watches with
  | .ok watches => .ok ((), { s with watches })
  | .error e => .error (.fault e s.log)

def onTrail (f : Trail → Except Fault Trail) : CheckM Unit := fun s =>
  match f s.trail with
  | .ok trail => .ok ((), { s with trail })
  | .error e => .error (.fault e s.log)

def emit (e : Event) : CheckM Unit := fun s => .ok ((), { s with log := s.log.push e })

def count (f : Counters → Counters) : CheckM Unit := fun s =>
  .ok ((), { s with counters := f s.counters })

/-- Puts a clause into the arena and into the index. -/
def store (c : Clause) : CheckM Handle := fun s =>
  match s.arena.add c with
  | .ok (h, arena) => .ok (h, { s with arena, index := s.index.insert c h })
  | .error e => .error (.fault e s.log)

/-- Puts a clause into the core, and tells whether it is new there. -/
def markCore (c : Handle) : CheckM Bool := fun s =>
  match s.arena.markCore c with
  | .ok (fresh, arena) => .ok (fresh, { s with arena })
  | .error e => .error (.fault e s.log)

/-- Takes what is propagated as fixed. -/
def fixProcessed : CheckM Unit :=
  onTrail fun t => .ok { t with forced := t.processed }

end CheckM

end UnsatCore.Engine
