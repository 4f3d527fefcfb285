import UnsatCore.Clause

/-! Clausal derivations: lemmas added one after the other, and clauses dropped in between. -/
namespace UnsatCore

namespace Derivation

inductive Line
  | add (clause : Clause)
  | delete (clause : Clause)
deriving DecidableEq

namespace Line

def clause : Line → Clause
  | add c | delete c => c

def isDeletion : Line → Bool
  | add _ => false
  | delete _ => true

/-- The literals and a closing 0, after a `d` if the line is a deletion. -/
def render (line : Line) : String :=
  (if line.isDeletion then "d " else "") ++
    String.join (line.clause.map fun l => toString l ++ " ") ++ "0"

end Line

end Derivation

abbrev Derivation := List Derivation.Line

/-- The largest variable of a derivation, deletions included. -/
def Derivation.maxVar (d : Derivation) : Nat :=
  Formula.maxVar (d.map Line.clause)

end UnsatCore
