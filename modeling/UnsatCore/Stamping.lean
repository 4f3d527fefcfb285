import UnsatCore.Extraction
import UnsatCore.StampTable

/-! The reader with one table of stamps for the whole input. The literals of the clause at hand are
the set of the table, which tells both what is a repetition in it and whether a stored clause has no
other literal. -/
namespace UnsatCore.Stamped

open Engine Engine.CheckM

abbrev StampM := StateT StampTable CheckM

variable {α : Type}

def askTable (f : StampTable → Except Fault α) : StampM α := fun t s =>
  match f t with
  | .ok a => .ok ((a, t), s)
  | .error e => .error (.fault e s.log)

def onTable (f : StampTable → Except Fault StampTable) : StampM Unit := fun t s =>
  match f t with
  | .ok t' => .ok (((), t'), s)
  | .error e => .error (.fault e s.log)

/-- The literals that are not in the set, without repetitions. They are in it afterwards. -/
def sift (part : Part) (index : Nat) : Clause → StampM Clause
  | [] => return []
  | l :: rest => do
    if ← askTable (·.contains l) then
      emit (.repeatedLiteral l part index)
      sift part index rest
    else
      onTable (·.insert l)
      return l :: (← sift part index rest)

/-- First occurrences of the literals of a clause. They are the set of the table afterwards. -/
def normalize (part : Part) (index : Nat) (c : Clause) : StampM Clause := do
  if c.hasZero then reject (.zeroLiteral part index)
  else
    onTable StampTable.renew
    sift part index c

/-- Whether a stored clause has `count` literals and all of them are in the set. -/
def holds (t : StampTable) (a : Arena) (count : Nat) (h : Handle) : Except Fault Bool :=
  if a.length h = count then t.containsAll (a.literals h) else return false

/-- The first clause with `count` literals, all of them in the set, with its position. The first one
looked at is number `i`. -/
def findFrom (t : StampTable) (a : Arena) (count i : Nat) :
    List Handle → Except Fault (Option (Nat × Handle))
  | [] => return none
  | h :: rest => do
    if ← holds t a count h then return some (i, h) else findFrom t a count (i + 1) rest

/-- Finds the clause that a deletion names, if the set has the literals of `c`. -/
def resolve (settings : Settings) (index : Nat) (given c : Clause) : StampM Step := do
  if settings.ignoreDeletions then return .ignored
  else
    let t ← get
    match ← ask fun s => findFrom t s.arena c.length 0 (s.index.bucket c).toList with
    | some (i, h) => resolveMatch index given c i h
    | none => resolveUnmatched settings.strictDeletions index given

def readDeletion (settings : Settings) (index : Nat) (given c : Clause) : StampM Unit := do
  count Counters.countDeletion
  let step ← resolve settings index given c
  if step = .ignored then count Counters.countIgnored
  recordStep step

def readClause (index : Nat) (given : Clause) : StampM Intake := do
  let c ← normalize .formula index given
  let h ← store c
  recordOrigin h
  settleClause index h c

def readFormula (index : Nat) : Formula → StampM Intake
  | [] => do
    reportFormula
    return .ready
  | c :: rest => do
    match ← readClause index c with
    | .trivial => return .trivial
    | .ready => readFormula (index + 1) rest

def readLine (settings : Settings) (index : Nat) (line : Derivation.Line) : StampM Bool := do
  let c ← normalize .derivation index line.clause
  match line with
  | .delete given =>
    readDeletion settings index given c
    return false
  | .add _ =>
    readLemma c
    if c.isEmpty then emit (.emptyLemma index)
    return c.isEmpty

def readLines (settings : Settings) (index : Nat) : Derivation → StampM Unit
  | [] => pure ()
  | line :: rest => do
    if ← readLine settings index line then pure () else readLines settings (index + 1) rest

def readDerivation (settings : Settings) (d : Derivation) : StampM Unit := do
  readLines settings 0 d
  emit (.derivationRead (← look (·.steps.size)) d.length (← look (·.counters)))

def refute (settings : Settings) (formula : Formula) (derivation : Derivation) :
    StampM Core := do
  readDerivation settings derivation
  match ← replay settings.coreFirst with
  | .formula => conclude formula
  | .step last =>
    justify settings.coreFirst (derivation.map Derivation.Line.clause).toArray last
    conclude formula

def run (settings : Settings) (formula : Formula) (derivation : Derivation) : StampM Core := do
  emit (.started formula.length derivation.length)
  match ← readFormula 0 formula with
  | .trivial => concludeTrivial
  | .ready => refute settings formula derivation

def extract (settings : Settings) (formula : Formula) (derivation : Derivation) : Outcome :=
  let n := maxVar formula derivation
  match run settings formula derivation (.blank (2 * n + 3)) (.initial n) with
  | .ok ((core, _), s) => ⟨.ok core, s.log⟩
  | .error (.fault cause log) => ⟨.error (.fault cause), log⟩
  | .error (.rejected cause s) => ⟨.error (.rejected cause), s.log⟩

end UnsatCore.Stamped
