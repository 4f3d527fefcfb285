import UnsatCore.Engine.Saturation

/-! The first pass: the lines of the derivation are carried out in order, without a check of the
lemmas, until unit propagation meets a conflict. -/
namespace UnsatCore.Engine

open CheckM

/-- Where the conflict was met. -/
inductive Refutation
  /-- In the formula alone. -/
  | formula
  /-- After the lemma of a line. -/
  | step (index : Nat)
deriving DecidableEq

def revise (index : Nat) (step : Step) : CheckM Unit :=
  modify fun s => { s with steps := s.steps.setIfInBounds index step }

/-- A reason and a clause with a true literal are not taken away. -/
def isHeld (c : Handle) (s : State) : Except Fault Bool := do
  if ← isReason s c then return true
  isSatisfied s c

def replayDelete (index : Nat) (c : Handle) : CheckM Unit := do
  if ← ask (isHeld c) then
    emit (.deletionHeld c index)
    revise index .ignored
    count Counters.countIgnored
  else detach c

/-- A lemma with a true literal is left out. -/
def leaveOut (index : Nat) (c : Handle) : CheckM Unit := do
  emit (.lemmaSatisfied (← look (·.arena.literals c)) index)
  revise index (.satisfied c)
  count Counters.countSatisfied

/-- A lemma whose literals are all false claims a conflict. -/
def replayEmpty (coreFirst : Bool) (index : Nat) : CheckM (Option Refutation) := do
  match ← saturate coreFirst with
  | .conflict => return some (.step index)
  | .drained => reject (.conflictNotFound index)

/-- The only literal of a lemma that is not false becomes true. -/
def replayUnit (coreFirst : Bool) (index : Nat) (c : Handle) : CheckM (Option Refutation) := do
  let unit ← literalOf c 0
  onTrail (·.assign unit (some c))
  match ← saturate coreFirst with
  | .conflict =>
    emit (.unitConflict unit index)
    return some (.step index)
  | .drained =>
    fixProcessed
    return none

def attachLong (c : Handle) : CheckM Unit := do
  if ← watchable c then attach c

def replayLemma (coreFirst : Bool) (index : Nat) (c : Handle) : CheckM (Option Refutation) := do
  let view ← sortUnfalsified c
  if view.satisfied then
    leaveOut index c
    return none
  else
    attachLong c
    match view.size with
    | 0 => replayEmpty coreFirst index
    | 1 => replayUnit coreFirst index c
    | _ => return none

/-- Carries out a line, which may end the pass. -/
def replayStep (coreFirst : Bool) (index : Nat) : Step → CheckM (Option Refutation)
  | .delete c => do
    replayDelete index c
    return none
  | .add c => replayLemma coreFirst index c
  | .satisfied _ | .ignored => return none

/-- Carries out the lines of `steps`, the first of which is number `index`. -/
def replayFrom (coreFirst : Bool) (index : Nat) : List Step → CheckM Refutation
  | [] => reject .noConflict
  | step :: rest => do
    match ← replayStep coreFirst index step with
    | some refutation => return refutation
    | none => replayFrom coreFirst (index + 1) rest

def replay (coreFirst : Bool) : CheckM Refutation := do
  match ← saturate coreFirst with
  | .conflict =>
    emit .formulaRefuted
    return .formula
  | .drained =>
    fixProcessed
    replayFrom coreFirst 0 (← look (·.steps.toList))

end UnsatCore.Engine
