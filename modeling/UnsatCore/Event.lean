import UnsatCore.Fault
import UnsatCore.Rejection
import UnsatCore.Counters

/-! What a run reports on its way. -/
namespace UnsatCore

/-- From the most to the least important. -/
inductive Level
  | error
  | warn
  | info
  | debug
  | trace
deriving DecidableEq

namespace Level

def rank : Level → Nat
  | error => 1
  | warn => 2
  | info => 3
  | debug => 4
  | trace => 5

def name : Level → String
  | error => "ERROR"
  | warn => "WARN"
  | info => "INFO"
  | debug => "DEBUG"
  | trace => "TRACE"

end Level

inductive Event
  | started (clauses lines : Nat)
  | repeatedLiteral (l : Literal) (part : Part) (index : Nat)
  | emptyClause (index : Nat)
  | clashingUnit (index : Nat)
  | triviallyUnsatisfiable
  | formulaRead (clauses units : Nat)
  | unitDeletion (c : Clause) (index : Nat)
  | unknownDeletion (c : Clause) (index : Nat)
  | emptyLemma (index : Nat)
  | derivationRead (read total : Nat) (counters : Counters)
  | propagated (l : Literal) (c : Handle)
  | conflict (c : Handle) (l : Literal)
  | formulaRefuted
  | deletionHeld (c : Handle) (index : Nat)
  | lemmaSatisfied (c : Clause) (index : Nat)
  | unitConflict (l : Literal) (index : Nat)
  | justifying (index : Nat)
  | checking (c : Clause) (index : Nat)
  | coreFound (size total : Nat)
  | summary (counters : Counters)

namespace Event

def level : Event → Level
  | repeatedLiteral .. | unknownDeletion .. => .warn
  | started .. | emptyClause .. | clashingUnit .. | triviallyUnsatisfiable | derivationRead .. |
    formulaRefuted | unitConflict .. | justifying .. | coreFound .. | summary .. => .info
  | formulaRead .. | unitDeletion .. | emptyLemma .. | deletionHeld .. | lemmaSatisfied .. |
    checking .. => .debug
  | propagated .. | conflict .. => .trace

def message : Event → String
  | started clauses lines =>
    s!"Trimming {clauses} original clauses with {lines} proof lines"
  | repeatedLiteral l part index => s!"Duplicate literal {l} in {part} clause #{index}"
  | emptyClause index => s!"Formula contains the empty clause #{index}"
  | clashingUnit index => s!"Unit clause #{index} clashes with an earlier unit"
  | triviallyUnsatisfiable => "Formula is trivially unsatisfiable"
  | formulaRead clauses units => s!"Loaded {clauses} original clauses, {units} units fixed"
  | unitDeletion c index =>
    s!"Ignoring deletion of unit clause {c.render} at proof line #{index}"
  | unknownDeletion c index =>
    s!"Ignoring deletion of unknown clause {c.render} at proof line #{index}"
  | emptyLemma index => s!"Empty lemma at proof line #{index}"
  | derivationRead read total n =>
    s!"Loaded {read} of {total} proof lines ({n.lemmas} lemmas, {n.deletions} deletions)"
  | propagated l c => s!"Propagated {l} by clause {c}"
  | conflict c l => s!"Conflict in clause {c} while propagating {l}"
  | formulaRefuted => "Formula is refuted by unit propagation"
  | deletionHeld c index =>
    s!"Ignoring deletion of reason or satisfied clause {c} at proof line #{index}"
  | lemmaSatisfied c index =>
    s!"Lemma {c.render} at proof line #{index} is already satisfied"
  | unitConflict l index => s!"Conflict after unit lemma {l} at proof line #{index}"
  | justifying index => s!"Backward check from proof line #{index}"
  | checking c index => s!"Checking lemma {c.render} at proof line #{index}"
  | coreFound size total => s!"Core has {size} of {total} clauses"
  | summary n => s!"Stats: {n.render}"

def render (e : Event) : String := e.level.name ++ " " ++ e.message

end Event

/-- Events in the order in which they came. -/
abbrev Log := Array Event

/-- The events that are at least as important as `level`. -/
def Log.upTo (level : Level) (log : Log) : List Event :=
  log.toList.filter fun e => decide (e.level.rank ≤ level.rank)

end UnsatCore
