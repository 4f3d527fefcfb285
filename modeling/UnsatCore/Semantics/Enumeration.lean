import UnsatCore.Clause
import UnsatCore.Fault

/-! Satisfiability of formulas over at most 20 variables, by a walk through all assignments. -/
namespace UnsatCore.Enumeration

/-- Whether a literal is true when variable v has the truth value of bit v - 1. The literal 0 has no
bit. -/
def literalHolds (bits : Nat) (l : Literal) : Except Fault Bool :=
  if l.isZero then .error .overflow
  else .ok (bits.testBit (l.var.index - 1) == l.isPositive)

/-- Literals after a true one are not looked at. -/
def clauseHolds (bits : Nat) (c : Clause) : Except Fault Bool := c.anyM (literalHolds bits)

/-- Clauses after a false one are not looked at. -/
def formulaHolds (f : Formula) (bits : Nat) : Except Fault Bool := f.allM (clauseHolds bits)

def limit : Nat := 20

/-- Tries the assignments in order, from all false to all true, up to the first that fits. -/
def isSatisfiable (f : Formula) : Except Fault Bool :=
  if f.maxVar ≤ limit then (List.range (1 <<< f.maxVar)).anyM (formulaHolds f)
  else .error (.tooManyVariables f.maxVar)

end UnsatCore.Enumeration
