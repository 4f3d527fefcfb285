import UnsatCore.Families.Signings
import UnsatCore.Proofs.Trimming
import Mathlib.Data.List.Forall2
import Mathlib.Data.List.Nodup

/-! The derivation that goes through all signings decides satisfiability. A clause with a literal of
each variable contains a clause of every unsatisfiable formula, a shorter one follows from its two
extensions, and the last one is empty. -/
namespace UnsatCore

open Engine

variable {f g : Formula} {c : Clause} {cs cs' : List Clause} {l : Literal} {n k j v : Nat}
  {ls : List (List Literal)} {product : List (List Literal) → List Clause}

namespace Signings

/-- What a product of lists has to list: every choice of one literal from each of them, and each
choice once. Nothing is said about the order. -/
structure ListsChoices (ls : List (List Literal)) (cs : List Clause) : Prop where
  nodup : cs.Nodup
  mem_iff : ∀ c, c ∈ cs ↔ List.Forall₂ (· ∈ ·) c ls

section Choices

theorem ListsChoices.perm (h : ListsChoices ls cs) (h' : ListsChoices ls cs') : cs.Perm cs' :=
  (List.perm_ext_iff_of_nodup h.nodup h'.nodup).mpr fun c => (h.mem_iff c).trans (h'.mem_iff c).symm

theorem mem_choices : c ∈ choices ls ↔ List.Forall₂ (· ∈ ·) c ls := by
  induction ls generalizing c with
  | nil => simp [choices]
  | cons row rest ih =>
    simp only [choices, List.mem_flatMap, List.mem_map, ih, List.forall₂_cons_right_iff]
    constructor
    · rintro ⟨l, hl, b, hb, rfl⟩
      exact ⟨l, b, hl, hb, rfl⟩
    · rintro ⟨l, b, hl, hb, rfl⟩
      exact ⟨l, hl, b, hb, rfl⟩

theorem nodup_choices (h : ∀ row ∈ ls, row.Nodup) : (choices ls).Nodup := by
  induction ls with
  | nil => simp [choices]
  | cons row rest ih =>
    obtain ⟨hrow, hrest⟩ := List.forall_mem_cons.mp h
    refine List.nodup_flatMap.mpr ⟨fun l _ => (ih hrest).map (List.cons_injective), ?_⟩
    -- Choices that start with different literals are different.
    refine hrow.imp fun hne c hc hc' => ?_
    obtain ⟨b, -, rfl⟩ := List.mem_map.mp hc
    obtain ⟨b', -, he⟩ := List.mem_map.mp hc'
    exact hne (List.cons.inj he).1.symm

theorem listsChoices_choices (h : ∀ row ∈ ls, row.Nodup) : ListsChoices ls (choices ls) :=
  ⟨nodup_choices h, fun _ => mem_choices⟩

theorem nodup_signs (hk : k < 2 ^ 31) : ∀ row ∈ signs k, row.Nodup := by
  intro row hrow
  obtain ⟨v, hv, rfl⟩ := List.mem_map.mp hrow
  have hv := List.mem_range'_1.mp hv
  have hne := (proper_literal (v := v) (by omega) (by omega)).neg_ne
  simpa using hne.symm

end Choices

/-- The clause has one literal of each variable from 1 to `k`, in this order. -/
def Signing (k : Nat) (c : Clause) : Prop := List.Forall₂ (· ∈ ·) c (signs k)

section Layers

theorem signs_succ (k : Nat) :
    signs (k + 1) = signs k ++ [[literal (k + 1), -literal (k + 1)]] := by
  rw [signs, List.range'_1_concat, List.map_append, Nat.add_comm 1 k]
  rfl

theorem signing_zero : Signing 0 c ↔ c = [] := by simp [Signing, signs]

theorem signing_succ : Signing (k + 1) c ↔
    ∃ b, Signing k b ∧ (c = b ++ [literal (k + 1)] ∨ c = b ++ [-literal (k + 1)]) := by
  rw [Signing, signs_succ]
  constructor
  · intro h
    have hfirst := List.forall₂_take_append c (signs k) _ h
    have hlast := List.forall₂_drop_append c (signs k) _ h
    obtain ⟨l, rest, hl, hrest, he⟩ := List.forall₂_cons_right_iff.mp hlast
    rw [List.forall₂_nil_right_iff.mp hrest] at he
    have hc := (List.take_append_drop (signs k).length c).symm
    rw [he] at hc
    refine ⟨_, hfirst, ?_⟩
    rcases List.mem_pair.mp hl with rfl | rfl
    · exact .inl hc
    · exact .inr hc
  · rintro ⟨b, hb, rfl | rfl⟩
    · exact List.rel_append hb (.cons (by simp) .nil)
    · exact List.rel_append hb (.cons (by simp) .nil)

theorem length_choices (h : ∀ row ∈ ls, row.length = n) : (choices ls).length = n ^ ls.length := by
  induction ls with
  | nil => rfl
  | cons row rest ih =>
    obtain ⟨hrow, hrest⟩ := List.forall_mem_cons.mp h
    simp only [choices, List.length_flatMap, List.length_map, ih hrest, List.map_const',
      List.sum_replicate_nat, hrow, List.length_cons, Nat.pow_succ']

theorem length_of_listsChoices (hk : k < 2 ^ 31) (h : ListsChoices (signs k) cs) :
    cs.length = 2 ^ k := by
  have hrows : ∀ row ∈ signs k, row.length = 2 := by
    intro row hrow
    obtain ⟨v, -, rfl⟩ := List.mem_map.mp hrow
    rfl
  rw [(h.perm (listsChoices_choices (nodup_signs hk))).length_eq, length_choices hrows, signs,
    List.length_map, List.length_range']

theorem length_downFrom (hn : n < 2 ^ 31)
    (hp : ∀ k, 0 < k → k ≤ n → ListsChoices (signs k) (product (signs k))) :
    (downFrom product n).length + 1 = 2 ^ (n + 1) := by
  induction n with
  | zero => rfl
  | succ n ih =>
    have hlayer := length_of_listsChoices hn (hp (n + 1) (Nat.succ_pos n) (Nat.le_refl _))
    have hrest := ih (by omega) fun k hpos hk => hp k hpos (by omega)
    rw [downFrom, List.length_append, hlayer]
    omega

theorem nil_mem_downFrom (product : List (List Literal) → List Clause) (n : Nat) :
    [] ∈ downFrom product n := by
  induction n with
  | zero => simp [downFrom]
  | succ n ih => exact List.mem_append_right _ ih

/-- Each clause has one literal of each variable up to one of the numbers. -/
theorem exists_signing_of_mem (hp : ∀ k, 0 < k → k ≤ n → ListsChoices (signs k) (product (signs k)))
    (hc : c ∈ downFrom product n) : ∃ k ≤ n, Signing k c := by
  induction n with
  | zero => exact ⟨0, Nat.le_refl 0, signing_zero.mpr (List.mem_singleton.mp hc)⟩
  | succ n ih =>
    rcases List.mem_append.mp hc with hc | hc
    · exact ⟨n + 1, Nat.le_refl _, ((hp (n + 1) (Nat.succ_pos n) (Nat.le_refl _)).mem_iff c).mp hc⟩
    · obtain ⟨k, hk, hc⟩ := ih (fun k hpos hk => hp k hpos (by omega)) hc
      exact ⟨k, by omega, hc⟩

theorem Signing.proper (hc : Signing k c) (hk : k < 2 ^ 31) : ∀ l ∈ c, l.Proper := by
  induction k generalizing c with
  | zero =>
    obtain rfl := signing_zero.mp hc
    simp
  | succ k ih =>
    obtain ⟨b, hb, he⟩ := signing_succ.mp hc
    have hnew := proper_literal hk (Nat.succ_pos k)
    intro l hl
    rcases he with rfl | rfl
    · rcases List.mem_append.mp hl with hl | hl
      · exact ih hb (by omega) l hl
      · exact List.mem_singleton.mp hl ▸ hnew
    · rcases List.mem_append.mp hl with hl | hl
      · exact ih hb (by omega) l hl
      · exact List.mem_singleton.mp hl ▸ hnew.neg

/-- A clause of a layer decides every variable up to the layer's. -/
theorem Signing.mem_or_neg_mem (hc : Signing k c) (hk : k < 2 ^ 31) (hz : l.val ≠ 0)
    (hl : l.var.index ≤ k) : l ∈ c ∨ -l ∈ c := by
  induction k generalizing c with
  | zero =>
    have hi : l.val.toInt = 0 := by
      simp only [Literal.var] at hl
      omega
    exact (hz (Int32.toInt_inj.mp hi)).elim
  | succ k ih =>
    obtain ⟨b, hb, he⟩ := signing_succ.mp hc
    rcases Nat.lt_or_eq_of_le hl with hlt | heq
    · have hmem : l ∈ b ∨ -l ∈ b := ih hb (by omega) (Nat.le_of_lt_succ hlt)
      rcases he with rfl | rfl
      · exact hmem.imp (List.mem_append_left _) (List.mem_append_left _)
      · exact hmem.imp (List.mem_append_left _) (List.mem_append_left _)
    · have hlit := eq_literal_or_neg hk (Nat.succ_pos k) heq
      rcases he with rfl | rfl <;> rcases hlit with rfl | rfl <;> simp

end Layers

/-- The assignment that makes a clause false, if one literal of each variable is in it. -/
def against (c : Clause) : Assignment :=
  fun v => c.any fun m => decide (m.var = v) && !m.isPositive

/-- What is false under the assignment against a clause of the layer is in the clause. -/
theorem Signing.mem_of_against (hc : Signing k c) (hk : k < 2 ^ 31) (hp : l.Proper)
    (hl : l.var.index ≤ k) (hfalse : ¬ l.Holds (against c)) : l ∈ c := by
  rcases hc.mem_or_neg_mem hk hp.1 hl with hmem | hneg
  · exact hmem
  cases hs : l.isPositive with
  | true =>
    refine (hfalse ?_).elim
    rw [Literal.Holds, hs, against, List.any_eq_true]
    exact ⟨-l, hneg, by simp [hp.isPositive_neg, hs]⟩
  | false =>
    have htrue : against c l.var = true := by
      rw [Literal.Holds, hs] at hfalse
      simpa using hfalse
    obtain ⟨m, hm, hv⟩ := List.any_eq_true.mp htrue
    simp only [Bool.and_eq_true, decide_eq_true_eq, Bool.not_eq_true'] at hv
    rcases Literal.eq_or_eq_neg_of_var_eq hp hv.1.symm with rfl | rfl
    · exact hm
    · rw [hp.isPositive_neg, hs] at hv
      cases hv.2

/-- The clauses of the widest layer follow from an unsatisfiable formula. -/
theorem Signing.followsFrom (hc : Signing n c) (hn : n < 2 ^ 31)
    (hf : ∀ c ∈ f, ∀ l ∈ c, l.Proper ∧ l.var.index ≤ n) (hno : ¬ f.Satisfiable) :
    c.FollowsFrom f := by
  have hex : ∃ d ∈ f, ¬ d.Holds (against c) := by
    by_contra hall
    push Not at hall
    exact hno ⟨against c, hall⟩
  obtain ⟨d, hd, hfalse⟩ := hex
  refine Or.inr ⟨d, hd, fun l hl => .given ?_⟩
  rw [Clause.negated, Literal.neg_neg]
  have hlf := hf d hd l hl
  exact hc.mem_of_against hn hlf.1 hlf.2 fun hσ => hfalse ⟨l, hl, hσ⟩

/-- If the widest layer follows, each clause follows from what stands before it. The order within
a layer does not matter, since a clause is derived from the layer before its own. -/
theorem follows_downFrom (hp : ∀ k, 0 < k → k ≤ n → ListsChoices (signs k) (product (signs k)))
    (hbase : ∀ c, Signing n c → c.FollowsFrom g) (hj : (downFrom product n)[j]? = some c) :
    c.FollowsFrom (g ++ (downFrom product n).take j) := by
  have hgrow : ∀ {c : Clause} {g : Formula} (more : Formula), c.FollowsFrom g →
      c.FollowsFrom (g ++ more) := fun more hfol =>
    hfol.within (fun k hk => ⟨k, List.mem_append_left _ hk, Clause.Same.refl k⟩)
      (Clause.Same.refl _)
  -- The induction is on the layers: once a layer is there, it is part of what the rest builds on.
  induction n generalizing g j with
  | zero =>
    obtain rfl : c = [] := List.mem_singleton.mp (List.mem_of_getElem? hj)
    exact hgrow _ (hbase [] (signing_zero.mpr rfl))
  | succ n ih =>
    have hlayer := hp (n + 1) (Nat.succ_pos n) (Nat.le_refl _)
    rw [downFrom] at hj ⊢
    rcases Nat.lt_or_ge j (product (signs (n + 1))).length with hlt | hge
    · rw [List.getElem?_append_left hlt] at hj
      exact hgrow _ (hbase c ((hlayer.mem_iff c).mp (List.mem_of_getElem? hj)))
    · rw [List.getElem?_append_right hge] at hj
      rw [List.take_append, List.take_of_length_le hge, ← List.append_assoc]
      refine ih (fun k hpos hk => hp k hpos (by omega)) (fun b hb => ?_) hj
      have hmem : ∀ c, Signing (n + 1) c → c ∈ g ++ product (signs (n + 1)) := fun c hc =>
        List.mem_append_right _ ((hlayer.mem_iff c).mpr hc)
      refine Clause.followsFrom_of_extensions (l := literal (n + 1)) ?_ ?_
      · exact hmem _ (signing_succ.mpr ⟨b, hb, Or.inl rfl⟩)
      · exact hmem _ (signing_succ.mpr ⟨b, hb, Or.inr rfl⟩)

/-- A count that is not read as negative is taken as it is. -/
theorem exhaustiveBy_eq {count : UInt32} (hc : count.toNat < 2 ^ 31) :
    exhaustiveBy product count = downFrom product count.toNat := by
  have hi : count.toInt32.toInt = count.toNat := by
    refine BitVec.toInt_eq_toNat_of_lt (x := count.toBitVec) ?_
    rw [UInt32.toNat_toBitVec]
    omega
  rw [exhaustiveBy, hi, Int.toNat_natCast]

end Signings

theorem not_satisfiable_of_ok {settings : Settings} {d : Derivation} {core : Core}
    (h : (extract settings f d).result = .ok core) : ¬ f.Satisfiable := by
  obtain ⟨s, hrun⟩ := extract_eq_ok_iff.mp h
  have hacc := accepted_of_run hrun
  unfold Accepted at hacc
  split at hacc
  · exact hacc.2
  · obtain ⟨lemmas, -, hcert⟩ := hacc.certificate
    exact not_satisfiable_of_sublist hacc.sublist hcert.not_satisfiable

/-- With the derivation that goes through all signings of its variables, a formula is accepted
exactly if it is unsatisfiable, in whichever order the signings of the same variables come. -/
theorem extract_exhaustiveBy_iff (product : List (List Literal) → List Clause) (count : UInt32)
    (hp : ∀ k, 0 < k → k ≤ count.toNat →
      Signings.ListsChoices (Signings.signs k) (product (Signings.signs k)))
    (hl : ∀ c ∈ f, ∀ l ∈ c, l.val ≠ 0 ∧ l.var.index ≤ count.toNat)
    (hm : f.length + (2 ^ (count.toNat + 1) - 1) < 2 ^ 31) (settings : Settings) :
    (∃ core, (extract settings f ((Signings.exhaustiveBy product count).map .add)).result =
      .ok core) ↔ ¬ f.Satisfiable := by
  have hlt : count.toNat < 2 ^ 31 := by
    have hpow := Nat.lt_two_pow_self (n := count.toNat + 1)
    omega
  constructor
  · rintro ⟨core, hok⟩
    exact not_satisfiable_of_ok hok
  intro hno
  rw [Signings.exhaustiveBy_eq hlt]
  have hlen := Signings.length_downFrom hlt hp
  have hproper : ∀ c ∈ f, ∀ l ∈ c, l.Proper ∧ l.var.index ≤ count.toNat := by
    intro c hc l hlc
    obtain ⟨hz, hv⟩ := hl c hc l hlc
    refine ⟨⟨hz, fun he => ?_⟩, hv⟩
    rw [Literal.var, he, Int32.toInt_minValue] at hv
    simp only [Int.natAbs_neg] at hv
    omega
  refine exists_ok_of_follows ?_ (by omega) (Signings.nil_mem_downFrom product _) ?_ settings
  · intro c hc
    rcases List.mem_append.mp hc with hc | hc
    · exact fun l hlc => (hproper c hc l hlc).1
    · obtain ⟨k, hk, hc⟩ := Signings.exists_signing_of_mem hp hc
      exact hc.proper (by omega)
  · intro j c hj
    exact Signings.follows_downFrom hp (fun c hc => hc.followsFrom hlt hproper hno) hj

/-- A chain of two implications from a unit to its end is accepted once the end is denied, and not
before. -/
theorem extract_exhaustiveBy_iff_chain :
    (∀ k, 0 < k → k ≤ (3 : UInt32).toNat →
      Signings.ListsChoices (Signings.signs k) (Signings.choices (Signings.signs k))) ∧
    (¬ ∃ core, (extract {} [[⟨1⟩], [⟨-1⟩, ⟨2⟩], [⟨-2⟩, ⟨3⟩]]
      ((Signings.exhaustiveBy Signings.choices 3).map .add)).result = .ok core) ∧
    ¬ Formula.Satisfiable [[⟨1⟩], [⟨-1⟩, ⟨2⟩], [⟨-2⟩, ⟨3⟩], [⟨-3⟩, ⟨-1⟩]] := by
  have hp : ∀ k, 0 < k → k ≤ (3 : UInt32).toNat →
      Signings.ListsChoices (Signings.signs k) (Signings.choices (Signings.signs k)) := by
    intro k _ hk
    have hthree : (3 : UInt32).toNat = 3 := rfl
    exact Signings.listsChoices_choices (Signings.nodup_signs (by omega))
  refine ⟨hp, ?_, ?_⟩
  · rw [extract_exhaustiveBy_iff Signings.choices 3 hp (by decide) (by decide)]
    refine not_not_intro ⟨fun _ => true, ?_⟩
    simp only [Formula.Holds, List.forall_mem_cons, List.not_mem_nil, false_imp_iff, implies_true,
      and_true]
    exact ⟨⟨⟨1⟩, by decide, rfl⟩, ⟨⟨2⟩, by decide, rfl⟩, ⟨3⟩, by decide, rfl⟩
  · rw [← extract_exhaustiveBy_iff Signings.choices 3 hp (by decide) (by decide) {}]
    obtain ⟨core, h, -⟩ := exists_ok_of_trivial (b := false) (o := extract {}
      [[⟨1⟩], [⟨-1⟩, ⟨2⟩], [⟨-2⟩, ⟨3⟩], [⟨-3⟩, ⟨-1⟩]]
      ((Signings.exhaustiveBy Signings.choices 3).map .add))
      (by decide +kernel)
    exact ⟨core, h⟩

end UnsatCore
