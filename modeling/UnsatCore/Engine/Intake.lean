import UnsatCore.Engine.Attachment
import UnsatCore.Derivation
import UnsatCore.Settings

/-! Reads the formula and the derivation. Clauses are stored without repetitions, the formula's
units are assigned and its longer clauses attached, and each deletion is matched with the clause
that it names. -/
namespace UnsatCore.Engine

open CheckM

def reportRepeated (part : Part) (index : Nat) : Clause → CheckM Unit
  | [] => pure ()
  | l :: rest => do
    emit (.repeatedLiteral l part index)
    reportRepeated part index rest

/-- First occurrences of the literals of a clause. -/
def normalize (part : Part) (index : Nat) (c : Clause) : CheckM Clause := do
  if c.hasZero then reject (.zeroLiteral part index)
  else
    reportRepeated part index c.repeated
    return c.distinct

/-- How reading the formula ends. -/
inductive Intake
  /-- The formula has an empty clause or two units that clash. -/
  | trivial
  | ready
deriving DecidableEq

def recordOrigin (h : Handle) : CheckM Unit :=
  modify fun s => { s with origins := s.origins.push h }

/-- A unit of the formula is true from the start, unless another one says the contrary. -/
def assignUnit (index : Nat) (l : Literal) (h : Handle) : CheckM Intake := do
  if ← isFalseNow l then
    emit (.clashingUnit index)
    return .trivial
  else
    unless ← isTrueNow l do onTrail (·.assign l (some h))
    return .ready

def settleClause (index : Nat) (h : Handle) : Clause → CheckM Intake
  | [] => do
    emit (.emptyClause index)
    return .trivial
  | [l] => assignUnit index l h
  | _ => do
    attach h
    return .ready

def readClause (index : Nat) (given : Clause) : CheckM Intake := do
  let c ← normalize .formula index given
  let h ← store c
  recordOrigin h
  settleClause index h c

def reportFormula : CheckM Unit := do
  emit (.formulaRead (← look (·.origins.size)) (← look (·.trail.assigned)))

/-- Reads the clauses of a formula, the first of which is number `index`. -/
def readFormula (index : Nat) : Formula → CheckM Intake
  | [] => do
    reportFormula
    return .ready
  | c :: rest => do
    match ← readClause index c with
    | .trivial => return .trivial
    | .ready => readFormula (index + 1) rest

def recordStep (step : Step) : CheckM Unit :=
  modify fun s => { s with steps := s.steps.push step }

/-- A unit or empty clause is never taken away, but it has to be there. -/
def resolveMatch (index : Nat) (given c : Clause) (i : Nat) (h : Handle) : CheckM Step := do
  if c.length ≤ 1 then
    emit (.unitDeletion given index)
    return .ignored
  else
    modify fun s => { s with index := s.index.removeAt c i }
    return .delete h

def resolveUnmatched (strict : Bool) (index : Nat) (given : Clause) : CheckM Step := do
  if strict then reject (.unmatchedDeletion index given)
  else
    emit (.unknownDeletion given index)
    return .ignored

/-- Finds the clause that a deletion names. -/
def resolve (settings : Settings) (index : Nat) (given c : Clause) : CheckM Step := do
  if settings.ignoreDeletions then return .ignored
  else
    match ← look fun s => s.index.lookup? s.arena c with
    | some (i, h) => resolveMatch index given c i h
    | none => resolveUnmatched settings.strictDeletions index given

def readDeletion (settings : Settings) (index : Nat) (given c : Clause) : CheckM Unit := do
  count Counters.countDeletion
  let step ← resolve settings index given c
  if step = .ignored then count Counters.countIgnored
  recordStep step

def readLemma (c : Clause) : CheckM Unit := do
  count Counters.countLemma
  let h ← store c
  recordStep (.add h)

/-- Reads a line and tells whether it is the empty lemma, after which nothing is read. -/
def readLine (settings : Settings) (index : Nat) (line : Derivation.Line) : CheckM Bool := do
  let c ← normalize .derivation index line.clause
  match line with
  | .delete given =>
    readDeletion settings index given c
    return false
  | .add _ =>
    readLemma c
    if c.isEmpty then emit (.emptyLemma index)
    return c.isEmpty

/-- Reads the lines of a derivation, the first of which is number `index`. -/
def readLines (settings : Settings) (index : Nat) : Derivation → CheckM Unit
  | [] => pure ()
  | line :: rest => do
    if ← readLine settings index line then pure () else readLines settings (index + 1) rest

def readDerivation (settings : Settings) (d : Derivation) : CheckM Unit := do
  readLines settings 0 d
  emit (.derivationRead (← look (·.steps.size)) d.length (← look (·.counters)))

end UnsatCore.Engine
