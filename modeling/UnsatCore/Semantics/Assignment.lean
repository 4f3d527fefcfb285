import UnsatCore.Clause

/-! What literals, clauses and formulas mean. -/
namespace UnsatCore

/-- A truth value for each variable. -/
abbrev Assignment := Var → Bool

/-- A positive literal is true with its variable, and a negative one against it. -/
def Literal.Holds (σ : Assignment) (l : Literal) : Prop := σ l.var = l.isPositive

def Clause.Holds (σ : Assignment) (c : Clause) : Prop := ∃ l ∈ c, l.Holds σ

def Formula.Holds (σ : Assignment) (f : Formula) : Prop := ∀ c ∈ f, c.Holds σ

def Formula.Satisfiable (f : Formula) : Prop := ∃ σ, f.Holds σ

end UnsatCore
