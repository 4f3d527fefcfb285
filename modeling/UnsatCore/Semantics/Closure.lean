import UnsatCore.Clause

/-! Unit propagation as a closure, without an order of clauses or literals: what the checker finds
with watch lists is compared with it. -/
namespace UnsatCore

/-- The literals that unit propagation makes true when those of `start` are: if all literals of a
clause but one are false, that one is true. -/
inductive Implied (f : Formula) (start : Literal → Prop) : Literal → Prop
  | given {l : Literal} : start l → Implied f start l
  | unit {c : Clause} {l : Literal} : c ∈ f → l ∈ c →
      (∀ m ∈ c, m ≠ l → Implied f start (-m)) → Implied f start l

/-- Unit propagation makes all literals of some clause false. -/
def Conflicting (f : Formula) (start : Literal → Prop) : Prop :=
  ∃ c ∈ f, ∀ l ∈ c, Implied f start (-l)

/-- The literals whose opposite is in a clause. -/
def Clause.negated (c : Clause) (l : Literal) : Prop := -l ∈ c

/-- A clause follows by unit propagation if its negation is contradictory or leads to a conflict. -/
def Clause.FollowsFrom (f : Formula) (c : Clause) : Prop :=
  (∃ l ∈ c, -l ∈ c) ∨ Conflicting f c.negated

end UnsatCore
