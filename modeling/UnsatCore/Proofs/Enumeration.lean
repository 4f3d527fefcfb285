import UnsatCore.Proofs.Literal
import UnsatCore.Semantics.Enumeration
import Mathlib.Data.Nat.Init

/-! The walk through all assignments decides satisfiability. An assignment is known by its first
`n` bits as soon as no variable lies beyond `n`, and every row of `n` bits is walked through. -/
namespace UnsatCore

variable {f : Formula} {c : Clause} {l : Literal} {σ τ : Assignment} {bits n : Nat}

instance (σ : Assignment) (l : Literal) : Decidable (l.Holds σ) :=
  inferInstanceAs (Decidable (_ = _))

instance (σ : Assignment) (c : Clause) : Decidable (c.Holds σ) :=
  inferInstanceAs (Decidable (∃ l ∈ c, l.Holds σ))

instance (σ : Assignment) (f : Formula) : Decidable (f.Holds σ) :=
  inferInstanceAs (Decidable (∀ c ∈ f, c.Holds σ))

theorem anyM_eq_ok {ε α : Type} {p : α → Except ε Bool} {q : α → Prop} [DecidablePred q]
    {as : List α} (h : ∀ a ∈ as, p a = .ok (decide (q a))) :
    as.anyM p = .ok (decide (∃ a ∈ as, q a)) := by
  induction as with
  | nil => rfl
  | cons a as ih =>
    have hrest := ih fun b hb => h b (List.mem_cons_of_mem a hb)
    simp only [List.anyM, h a List.mem_cons_self, bind, Except.bind]
    by_cases hq : q a
    · simp [hq, pure, Except.pure]
    · simp [hq, hrest]

theorem allM_eq_ok {ε α : Type} {p : α → Except ε Bool} {q : α → Prop} [DecidablePred q]
    {as : List α} (h : ∀ a ∈ as, p a = .ok (decide (q a))) :
    as.allM p = .ok (decide (∀ a ∈ as, q a)) := by
  induction as with
  | nil => rfl
  | cons a as ih =>
    have hrest := ih fun b hb => h b (List.mem_cons_of_mem a hb)
    simp only [List.allM, h a List.mem_cons_self, bind, Except.bind]
    by_cases hq : q a
    · simp [hq, hrest]
    · simp [hq, pure, Except.pure]

/-- The meaning of a formula is decided by the variables that it mentions. -/
theorem Formula.Holds.congr (h : f.Holds σ) (he : ∀ c ∈ f, ∀ l ∈ c, σ l.var = τ l.var) :
    f.Holds τ := by
  intro c hc
  obtain ⟨l, hl, hσ⟩ := h c hc
  exact ⟨l, hl, (he c hc l hl).symm.trans hσ⟩

theorem Literal.index_pos (h : l.isZero = false) : 0 < l.var.index := by
  have hne : l.val ≠ 0 := by simpa [isZero] using h
  have hi : l.val.toInt ≠ 0 := fun he => hne (Int32.toInt_inj.mp he)
  simp only [var]
  omega

namespace Enumeration

/-- The assignment that gives variable `v` the truth value of bit `v - 1`. -/
def ofBits (bits : Nat) : Assignment := fun v => bits.testBit (v.index - 1)

/-- The first `n` truth values of an assignment as a row of bits. -/
def toBits (n : Nat) (σ : Assignment) : Nat := Nat.ofBits fun i : Fin n => σ ⟨i + 1⟩

theorem toBits_lt (n : Nat) (σ : Assignment) : toBits n σ < 1 <<< n := by
  rw [Nat.one_shiftLeft]
  exact Nat.ofBits_lt_two_pow _

theorem ofBits_toBits {v : Var} (hpos : 0 < v.index) (hle : v.index ≤ n) :
    ofBits (toBits n σ) v = σ v := by
  obtain ⟨i⟩ := v
  have hlt : i - 1 < n := by simp only at hpos hle; omega
  have hi : i - 1 + 1 = i := by simp only at hpos; omega
  simp only [ofBits, toBits, Nat.testBit_ofBits_lt _ _ hlt, hi]

theorem literalHolds_eq (h : l.isZero = false) :
    literalHolds bits l = .ok (decide (l.Holds (ofBits bits))) := by
  have hbool : (bits.testBit (l.var.index - 1) == l.isPositive) =
      decide (l.Holds (ofBits bits)) := rfl
  simp [literalHolds, h, hbool]

theorem clauseHolds_eq (h : ∀ l ∈ c, l.isZero = false) :
    clauseHolds bits c = .ok (decide (c.Holds (ofBits bits))) :=
  anyM_eq_ok fun l hl => literalHolds_eq (h l hl)

theorem formulaHolds_eq (h : ∀ c ∈ f, ∀ l ∈ c, l.isZero = false) :
    formulaHolds f bits = .ok (decide (f.Holds (ofBits bits))) :=
  allM_eq_ok fun c hc => clauseHolds_eq (h c hc)

/-- No assignment is missed: one that satisfies the formula has a row of bits that does. -/
theorem satisfiable_iff_exists_bits (h : ∀ c ∈ f, ∀ l ∈ c, l.isZero = false) :
    f.Satisfiable ↔ ∃ bits ∈ List.range (1 <<< f.maxVar), f.Holds (ofBits bits) := by
  constructor
  · intro ⟨σ, hσ⟩
    refine ⟨toBits f.maxVar σ, List.mem_range.mpr (toBits_lt _ _), hσ.congr ?_⟩
    intro c hc l hl
    have hle : l.var.index ≤ f.maxVar :=
      Nat.le_trans (Clause.index_le_maxVar hl) (Formula.maxVar_le hc)
    exact (ofBits_toBits (Literal.index_pos (h c hc l hl)) hle).symm
  · intro ⟨bits, _, hbits⟩
    exact ⟨ofBits bits, hbits⟩

/-- On clauses without the literal 0 the walk ends with the right answer, and it is not begun where
a variable lies beyond 20, whatever the clauses are. -/
theorem isSatisfiable_iff_satisfiable (f : Formula) :
    ((∀ c ∈ f, ∀ l ∈ c, l.isZero = false) → f.maxVar ≤ 20 →
      ∃ b, isSatisfiable f = .ok b ∧ (b = true ↔ f.Satisfiable)) ∧
    (20 < f.maxVar → isSatisfiable f = .error (.tooManyVariables f.maxVar)) := by
  constructor
  · intro h hle
    refine ⟨_, (if_pos hle).trans (anyM_eq_ok fun bits _ => formulaHolds_eq h), ?_⟩
    rw [decide_eq_true_iff]
    exact (satisfiable_iff_exists_bits h).symm
  · intro hlt
    exact if_neg (Nat.not_le.mpr hlt)

/-- Two clauses are walked through; the least word is a variable far beyond 20, and the clause with
the literal 0, on which the walk would fail, is not reached. -/
theorem isSatisfiable_pair :
    (∃ b, isSatisfiable [[⟨1⟩, ⟨2⟩], [⟨-1⟩]] = .ok b ∧
      (b = true ↔ Formula.Satisfiable [[⟨1⟩, ⟨2⟩], [⟨-1⟩]])) ∧
    isSatisfiable [[⟨0⟩], [⟨Int32.minValue⟩]] = .error (.tooManyVariables 2147483648) :=
  ⟨(isSatisfiable_iff_satisfiable _).1 (by decide) (by decide),
    (isSatisfiable_iff_satisfiable _).2 (by decide)⟩

end Enumeration

end UnsatCore
