import UnsatCore.Families.Signings
import UnsatCore.SlotMap
import UnsatCore.Semantics.Assignment
import Mathlib.Algebra.Group.Nat.Defs

/-! Literals as words: which of them have an opposite, which slot each of them owns, what a table
keyed by slots gives back, and how far the variables of a formula go. -/
namespace UnsatCore

namespace Literal

variable {l m : Literal}

/-- Neither the 0 that ends a clause nor the least word, which is its own opposite. -/
def Proper (l : Literal) : Prop := l.val ≠ 0 ∧ l.val ≠ Int32.minValue

instance (l : Literal) : Decidable l.Proper := inferInstanceAs (Decidable (_ ∧ _))

@[simp] theorem val_neg (l : Literal) : (-l).val = -l.val := rfl

@[simp] theorem neg_neg (l : Literal) : - -l = l := by
  cases l
  exact congrArg Literal.mk Int32.neg_neg

@[simp] theorem neg_inj : -l = -m ↔ l = m := by
  constructor
  · intro h
    rw [← neg_neg l, h, neg_neg]
  · exact congrArg _

theorem neg_eq_iff : -l = m ↔ l = -m := by
  rw [← neg_inj, neg_neg]

theorem toInt_neg (h : l.val ≠ Int32.minValue) : (-l).val.toInt = -l.val.toInt := by
  have hlow := l.val.minValue_le_toInt
  have hhigh := l.val.toInt_lt
  have hne : l.val.toInt ≠ Int32.minValue.toInt := fun he => h (Int32.toInt_inj.mp he)
  rw [Int32.toInt_minValue] at hlow hne
  rw [val_neg, Int32.toInt_neg]
  apply Int.bmod_eq_of_le <;> omega

@[simp] theorem var_neg (l : Literal) : (-l).var = l.var := by
  by_cases h : l.val = Int32.minValue
  · have he : -l = l := by
      cases l
      simp only at h
      subst h
      rfl
    rw [he]
  · simp only [var, toInt_neg h, Int.natAbs_neg]

theorem Proper.toInt_ne_zero (h : l.Proper) : l.val.toInt ≠ 0 := fun he =>
  h.1 (Int32.toInt_inj.mp he)

theorem Proper.isPositive_neg (h : l.Proper) : (-l).isPositive = !l.isPositive := by
  have hz := h.toInt_ne_zero
  simp only [isPositive, toInt_neg h.2]
  by_cases hp : 0 < l.val.toInt
  · rw [decide_eq_true hp, decide_eq_false (by omega)]
    rfl
  · rw [decide_eq_false hp, decide_eq_true (by omega)]
    rfl

theorem Proper.neg_ne (h : l.Proper) : -l ≠ l := by
  intro he
  have hs := h.isPositive_neg
  rw [he] at hs
  cases hp : l.isPositive <;> simp [hp] at hs

theorem Proper.neg (h : l.Proper) : (-l).Proper := by
  have hz := h.toInt_ne_zero
  have hi := toInt_neg h.2
  constructor
  · intro he
    rw [he] at hi
    exact hz (by simpa using hi.symm)
  · intro he
    have hhigh := l.val.toInt_lt
    rw [he, Int32.toInt_minValue] at hi
    omega

theorem proper_neg_iff : (-l).Proper ↔ l.Proper :=
  ⟨fun h => by simpa using h.neg, Proper.neg⟩

theorem opposite?_eq_some (h : l.val ≠ Int32.minValue) : l.opposite? = some (-l) := if_neg h

theorem opposite?_eq_none (h : l.val = Int32.minValue) : l.opposite? = none := if_pos h

/-- The two literals of a variable are opposite. -/
theorem eq_or_eq_neg_of_var_eq (h : l.Proper) (hv : l.var = m.var) : m = l ∨ m = -l := by
  have hn : l.val.toInt.natAbs = m.val.toInt.natAbs := congrArg Var.index hv
  rcases Int.natAbs_eq_natAbs_iff.mp hn with he | he
  · left
    cases l
    cases m
    exact congrArg Literal.mk (Int32.toInt_inj.mp he.symm)
  · right
    rw [← neg_eq_iff]
    cases m with
    | mk w =>
      by_cases hw : w = Int32.minValue
      · have hhigh := l.val.toInt_lt
        simp only [hw, Int32.toInt_minValue] at he
        omega
      · have hm : (-Literal.mk w).val.toInt = l.val.toInt :=
          (toInt_neg (l := ⟨w⟩) hw).trans (by simpa using he.symm)
        cases l
        exact congrArg Literal.mk (Int32.toInt_inj.mp hm)

theorem slot_injective (h : Slotted.slot l = Slotted.slot m) : l = m := by
  simp only [Slotted.slot, var, isPositive, decide_eq_true_eq] at h
  cases l with
  | mk v =>
    cases m with
    | mk w =>
      apply congrArg Literal.mk
      apply Int32.toInt_inj.mp
      simp only at h
      split at h <;> split at h <;> omega

@[simp] theorem slot_inj : Slotted.slot l = Slotted.slot m ↔ l = m :=
  ⟨slot_injective, congrArg _⟩

theorem Proper.holds_neg {σ : Assignment} (h : l.Proper) : (-l).Holds σ ↔ ¬ l.Holds σ := by
  simp only [Holds, var_neg, h.isPositive_neg]
  cases σ l.var <;> cases l.isPositive <;> simp

end Literal

@[simp] theorem Var.slot_inj {v w : Var} : Slotted.slot v = Slotted.slot w ↔ v = w := by
  cases v
  cases w
  exact ⟨congrArg Var.mk, congrArg _⟩

theorem Clause.maxVar_le_iff {c : Clause} {n : Nat} :
    c.maxVar ≤ n ↔ ∀ l ∈ c, l.var.index ≤ n := by
  induction c with
  | nil => simp [maxVar]
  | cons l c ih =>
    rw [maxVar, List.foldr_cons, Nat.max_le, List.forall_mem_cons]
    exact and_congr Iff.rfl ih

theorem Clause.index_le_maxVar {c : Clause} {l : Literal} (hl : l ∈ c) :
    l.var.index ≤ c.maxVar :=
  maxVar_le_iff.mp (Nat.le_refl _) l hl

theorem Formula.maxVar_le_iff {f : Formula} {n : Nat} :
    f.maxVar ≤ n ↔ ∀ c ∈ f, c.maxVar ≤ n := by
  induction f with
  | nil => simp [maxVar]
  | cons c f ih =>
    rw [maxVar, List.foldr_cons, Nat.max_le, List.forall_mem_cons]
    exact and_congr Iff.rfl ih

theorem Formula.maxVar_le {f : Formula} {c : Clause} (hc : c ∈ f) : c.maxVar ≤ f.maxVar :=
  maxVar_le_iff.mp (Nat.le_refl _) c hc

namespace Signings

variable {v : Nat} {l : Literal}

theorem toInt_literal (hv : v < 2 ^ 31) : (literal v).val.toInt = v := Int32.toInt_ofNat_of_lt hv

theorem var_literal (hv : v < 2 ^ 31) : (literal v).var = ⟨v⟩ := by
  rw [Literal.var, toInt_literal hv, Int.natAbs_natCast]

theorem isPositive_literal (hv : v < 2 ^ 31) (hpos : 0 < v) : (literal v).isPositive = true := by
  rw [Literal.isPositive, toInt_literal hv, decide_eq_true_iff]
  omega

theorem proper_literal (hv : v < 2 ^ 31) (hpos : 0 < v) : (literal v).Proper := by
  have hi := toInt_literal hv
  constructor
  · intro he
    rw [he] at hi
    have hzero : (0 : Int32).toInt = 0 := rfl
    omega
  · intro he
    rw [he, Int32.toInt_minValue] at hi
    omega

theorem eq_literal_or_neg (hv : v < 2 ^ 31) (hpos : 0 < v) (hl : l.var.index = v) :
    l = literal v ∨ l = -literal v := by
  refine Literal.eq_or_eq_neg_of_var_eq (proper_literal hv hpos) ?_
  rw [var_literal hv, ← hl]

theorem holds_literal {σ : Assignment} (hv : v < 2 ^ 31) (hpos : 0 < v) :
    (literal v).Holds σ ↔ σ ⟨v⟩ = true := by
  rw [Literal.Holds, var_literal hv, isPositive_literal hv hpos]

end Signings

namespace SlotMap

variable {κ α : Type} [Slotted κ] {m m' : SlotMap κ α} {k j : κ} {a : α}

omit [Slotted κ] in
theorem eq_of_slots (h : m.slots = m'.slots) : m = m' := by
  cases m
  cases m'
  exact congrArg SlotMap.mk h

/-- A key whose slot is there has an entry. -/
theorem exists_get? (hk : Slotted.slot k < m.size) : ∃ a, m.get? k = some a :=
  ⟨_, Array.getElem?_eq_getElem hk⟩

theorem set?_eq_some (hk : Slotted.slot k < m.size) (a : α) :
    ∃ m', m.set? k a = some m' := by
  have hk' : Slotted.slot k < m.slots.size := hk
  simp [set?, hk']

theorem size_set? (h : m.set? k a = some m') : m'.size = m.size := by
  simp only [set?] at h
  split at h
  · cases h
    simp [size]
  · cases h

/-- A table changes at the slot that is set and nowhere else. -/
theorem getElem?_set? (h : m.set? k a = some m') (i : Nat) :
    m'.slots[i]? = if Slotted.slot k = i then some a else m.slots[i]? := by
  simp only [set?] at h
  split at h
  · cases h
    simp only [Array.getElem?_set]
  · cases h

theorem get?_set? (h : m.set? k a = some m') (j : κ) :
    m'.get? j = if Slotted.slot k = Slotted.slot j then some a else m.get? j :=
  getElem?_set? h (Slotted.slot j)

theorem modify?_eq_some (hk : Slotted.slot k < m.size) (f : α → α) :
    ∃ m', m.modify? k f = some m' := by
  have hk' : Slotted.slot k < m.slots.size := hk
  simp [modify?, hk']

theorem size_modify? {f : α → α} (h : m.modify? k f = some m') : m'.size = m.size := by
  simp only [modify?] at h
  split at h
  · cases h
    simp [size]
  · cases h

theorem get?_modify? {f : α → α} (h : m.modify? k f = some m') (j : κ) :
    m'.get? j = if Slotted.slot k = Slotted.slot j then (m.get? j).map f else m.get? j := by
  simp only [modify?] at h
  split at h
  · cases h
    simp only [get?, Array.getElem?_modify]
  · cases h

end SlotMap

end UnsatCore
