import UnsatCore.Clause

/-! Why a formula and a derivation are not accepted. Lines and clauses are counted from 0. -/
namespace UnsatCore

/-- The half of the input that a clause comes from. -/
inductive Part
  | formula
  | derivation
deriving DecidableEq

instance : ToString Part where
  toString
    | .formula => "formula"
    | .derivation => "proof"

inductive Rejection
  | zeroLiteral (part : Part) (index : Nat)
  /-- A deletion matches no clause. -/
  | unmatchedDeletion (index : Nat) (clause : Clause)
  /-- The derivation ends without a conflict. -/
  | noConflict
  /-- The empty lemma, or one whose literals are all false, is reached without a conflict. -/
  | conflictNotFound (index : Nat)
  /-- A lemma that is needed does not follow by unit propagation. -/
  | lemmaNotImplied (index : Nat) (clause : Clause)
deriving DecidableEq

def Rejection.message : Rejection → String
  | zeroLiteral part index => s!"Literal 0 in {part} clause #{index}"
  | unmatchedDeletion index c =>
    s!"Proof line #{index} deletes {c.render}, which matches no live clause"
  | noConflict => "Proof does not produce a conflict"
  | conflictNotFound index =>
    s!"Empty clause at proof line #{index} is not implied by unit propagation"
  | lemmaNotImplied index c =>
    s!"Lemma {c.render} at proof line #{index} is not a RUP consequence"

end UnsatCore
