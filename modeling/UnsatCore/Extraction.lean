import UnsatCore.Engine.Intake
import UnsatCore.Engine.Replay
import UnsatCore.Engine.Justification

/-! Checks a refutation of a formula and extracts the clauses of the formula that it needs. -/
namespace UnsatCore

open Engine Engine.CheckM

structure Core where
  /-- The formula has an empty clause or two units that clash. -/
  trivial : Bool
  /-- The clauses that the refutation needs, as given and in order. -/
  clauses : Formula
  counters : Counters

inductive Failure
  | fault (cause : Fault)
  | rejected (cause : Rejection)

structure Outcome where
  result : Except Failure Core
  log : Log

/-- The clauses of a formula whose stored form is in the core. -/
def selectCore (a : Arena) : Formula → List Handle → Except Fault Formula
  | c :: formula, h :: origins =>
    match a.isCore h, selectCore a formula origins with
    | .ok true, .ok rest => .ok (c :: rest)
    | .ok false, .ok rest => .ok rest
    | .error e, _ => .error e
    | _, .error e => .error e
  | _, _ => .ok []

/-- Ends a run whose lemmas are all justified. -/
def conclude (formula : Formula) : CheckM Core := do
  let clauses ← ask fun s => selectCore s.arena formula s.origins.toList
  let counters ← look fun s => { s.counters with coreSize := clauses.length }
  emit (.coreFound clauses.length formula.length)
  emit (.summary counters)
  return ⟨false, clauses, counters⟩

def concludeTrivial : CheckM Core := do
  emit .triviallyUnsatisfiable
  return ⟨true, [], ← look (·.counters)⟩

/-- Checks the derivation of a formula that was read. -/
def refute (settings : Settings) (formula : Formula) (derivation : Derivation) :
    CheckM Core := do
  readDerivation settings derivation
  match ← replay settings.coreFirst with
  | .formula => conclude formula
  | .step last =>
    justify settings.coreFirst (derivation.map Derivation.Line.clause).toArray last
    conclude formula

def run (settings : Settings) (formula : Formula) (derivation : Derivation) : CheckM Core := do
  emit (.started formula.length derivation.length)
  match ← readFormula 0 formula with
  | .trivial => concludeTrivial
  | .ready => refute settings formula derivation

/-- The largest variable that a run has to make room for. -/
def maxVar (formula : Formula) (derivation : Derivation) : Nat :=
  max formula.maxVar derivation.maxVar

/-- Checks that `derivation` refutes `formula`. A formula that is trivially unsatisfiable needs no
derivation, and none is read. -/
def extract (settings : Settings) (formula : Formula) (derivation : Derivation) : Outcome :=
  match run settings formula derivation (.initial (maxVar formula derivation)) with
  | .ok (core, s) => ⟨.ok core, s.log⟩
  | .error (.fault cause log) => ⟨.error (.fault cause), log⟩
  | .error (.rejected cause s) => ⟨.error (.rejected cause), s.log⟩

end UnsatCore
