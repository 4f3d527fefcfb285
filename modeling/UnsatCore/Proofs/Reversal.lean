import UnsatCore.Proofs.Trail

/-! Any sequence of calls on a trail. Its tables never say anything that its stack does not say, and
what has been assigned since an earlier state can be taken back exactly. -/
namespace UnsatCore.Trail

variable {n k : Nat} {t t' : Trail} {l : Literal} {c : Option Handle}
  {more : List (Literal × Option Handle)}

/-- The trails that successful calls lead to. -/
inductive Reachable (n : Nat) : Trail → Prop
  | blank : Reachable n (blank n)
  | assign {t t' : Trail} {l : Literal} {c : Option Handle} : Reachable n t → l.val ≠ 0 →
      t.assign l c = .ok t' → Reachable n t'
  | mark {t t' : Trail} {l : Literal} : Reachable n t → t.mark l = .ok t' → Reachable n t'
  | truncate {t t' : Trail} {k : Nat} : Reachable n t → t.truncate k = .ok t' → Reachable n t'
  | unassign {t t' : Trail} {l : Literal} : Reachable n t → t.unassign l = .ok t' → Reachable n t'

/-- Makes literals true one after another, each with its reason. -/
def assignAll : List (Literal × Option Handle) → Trail → Except Fault Trail
  | [], t => .ok t
  | (l, c) :: more, t =>
    match t.assign l c with
    | .ok t => assignAll more t
    | .error e => .error e

namespace Wf

/-- A literal that has a status has a slot, and is false if it is on the stack. -/
theorem of_isFalse {b : Bool} (h : t.Wf n) (hl : t.isFalse l = .ok b) :
    Slotted.slot l < 2 * n + 3 ∧ (b = true ↔ l ∈ t.falsified) := by
  obtain ⟨st, hget, hb⟩ := get?_of_isFalse hl
  refine ⟨?_, by rw [hb, Ne, h.eq_unset_iff hget, not_not]⟩
  rw [← h.statusSize]
  exact (Array.getElem?_eq_some_iff.mp hget).1

/-- No literal is false together with its opposite. -/
theorem isFalse_neg_ne (h : t.Wf n) (hl : t.isFalse l = .ok true) :
    t.isFalse (-l) ≠ .ok true := by
  intro hn
  have hmem := (h.of_isFalse hl).2.mp rfl
  exact h.not_mem_neg hmem ((h.of_isFalse hn).2.mp rfl)

/-- A literal that could be made true has a variable up to `n`, which had no value. -/
theorem of_assign (h : t.Wf n) (hz : l.val ≠ 0) (hrun : t.assign l c = .ok t') :
    t'.Wf n ∧ t'.entries = t.entries ++ [⟨-l, c⟩] ∧ t'.processed = t.processed ∧
      t'.forced = t.forced ∧ ∀ m, t'.Marked m ↔ t.Marked m := by
  obtain ⟨hfalse, htrue, -⟩ := assign_eq_ok hrun
  obtain ⟨hmin, htrue⟩ := isFalse_of_isTrue htrue
  obtain ⟨hslot, hf⟩ := h.of_isFalse hfalse
  obtain ⟨hslot', ht⟩ := h.of_isFalse htrue
  have hp : l.Proper := ⟨hz, hmin⟩
  -- Both slots of the variable are there, and the second one is the last.
  have hs : l.var.index ≤ n := by
    simp only [Slotted.slot, hp.isPositive_neg, Literal.var_neg] at hslot hslot'
    cases hpos : l.isPositive
    · simp only [hpos, Bool.false_eq_true, if_false] at hslot
      omega
    · simp only [hpos, Bool.not_true, Bool.false_eq_true, if_false] at hslot'
      omega
  obtain ⟨u, hu, hw⟩ := h.assign hp hs (by simpa using hf) (by simpa using ht) c
  cases hu.symm.trans hrun
  exact hw

theorem of_mark (h : t.Wf n) (hrun : t.mark l = .ok t') : t'.Wf n := by
  have hl : l ∈ t.falsified := by
    rw [Trail.mark] at hrun
    split at hrun
    · rename_i hf
      exact (h.of_isFalse hf).2.mp rfl
    · cases hrun
    · cases hrun
  obtain ⟨u, hu, hw, -⟩ := h.mark hl
  cases hu.symm.trans hrun
  exact hw

theorem of_truncate (h : t.Wf n) (hrun : t.truncate k = .ok t') : t'.Wf n := by
  by_cases hk : k ≤ t.assigned
  · obtain ⟨u, hu, hw, -⟩ := h.truncate hk
    cases hu.symm.trans hrun
    exact hw
  · rw [Trail.truncate, Nat.sub_eq_zero_of_le (by omega), Trail.popMany] at hrun
    cases hrun
    exact h

theorem of_unassign (h : t.Wf n) (hrun : t.unassign l = .ok t') : t'.Wf n := by
  cases hq : t.isTrue l with
  | error e => simp [Trail.unassign, hq] at hrun
  | ok b =>
    have hiff := (h.of_isFalse (isFalse_of_isTrue hq).2).2
    by_cases hl : -l ∈ t.falsified
    · obtain ⟨es, post, he⟩ := List.append_of_mem (List.mem_map.mpr ⟨-l, hl, rfl⟩)
      obtain ⟨u, hu, hw, -⟩ := h.unassign he
      cases hu.symm.trans hrun
      exact hw
    · cases b with
      | true => exact (hl (hiff.mp rfl)).elim
      | false =>
        have hstop : Trail.popWhileTrue l t.assigned t = .ok t := by
          cases t.assigned <;> simp [Trail.popWhileTrue, hq]
        simp only [Trail.unassign, hq, hstop, Except.ok.injEq] at hrun
        rw [← hrun]
        exact h.bounds _ _

/-- Literals that are made true are entered in this order. -/
theorem of_assignAll (h : t.Wf n) (hz : ∀ a ∈ more, a.1.val ≠ 0)
    (hrun : assignAll more t = .ok t') :
    t'.Wf n ∧ t'.entries = t.entries ++ more.map (fun a => ⟨-a.1, a.2⟩) ∧
      t'.processed = t.processed ∧ t'.forced = t.forced ∧ ∀ m, t'.Marked m ↔ t.Marked m := by
  induction more generalizing t with
  | nil =>
    cases hrun
    exact ⟨h, by simp, rfl, rfl, fun _ => Iff.rfl⟩
  | cons a more ih =>
    rw [assignAll] at hrun
    split at hrun
    · rename_i t₁ hstep
      obtain ⟨hw, he, hp, hf, hm⟩ := h.of_assign (hz a (by simp)) hstep
      obtain ⟨hw', he', hp', hf', hm'⟩ := ih hw (fun b hb => hz b (by simp [hb])) hrun
      refine ⟨hw', ?_, hp'.trans hp, hf'.trans hf, fun m => (hm' m).trans (hm m)⟩
      rw [he', he, List.append_assoc]
      rfl
    · cases hrun

/-- Whatever has been assigned since, cutting the stack to its old length gives the old trail. -/
theorem truncate_assignAll (h : t.Wf n) (hz : ∀ a ∈ more, a.1.val ≠ 0)
    (hrun : assignAll more t = .ok t') : t'.truncate t.assigned = .ok t := by
  obtain ⟨hw, he, hp, hf, hm⟩ := h.of_assignAll hz hrun
  have hle : t.assigned ≤ t'.assigned := by
    rw [← length_entries, ← length_entries, he, List.length_append]
    exact Nat.le_add_right _ _
  obtain ⟨u, hu, hwu, hes, hpu, hfu, hmu⟩ := hw.truncate hle
  have hback : u.entries = t.entries := by
    rw [hes, he, ← length_entries, List.take_left' rfl]
  -- A mark of before is on a literal of before, which is not cut off.
  have hmarks : ∀ m, u.Marked m ↔ t.Marked m := by
    intro m
    rw [hmu, hm, and_iff_left_iff_imp]
    intro hk
    apply hw.not_mem_drop
    rw [take_falsified, ← hes, hback, map_literal_entries]
    exact h.mem_of_marked hk
  rw [hu, hwu.ext h hmarks hback (hpu.trans hp) (hfu.trans hf)]

/-- To unassign the first of them is to cut the stack to its old length and to settle. -/
theorem unassign_assignAll (h : t.Wf n) (hz : ∀ a ∈ (l, c) :: more, a.1.val ≠ 0)
    (hrun : assignAll ((l, c) :: more) t = .ok t') : t'.unassign l = .ok t.settle := by
  obtain ⟨hw, he, -⟩ := h.of_assignAll hz hrun
  obtain ⟨u, hu, hrun'⟩ := hw.unassign_eq he
  have hback := h.truncate_assignAll hz hrun
  rw [← length_entries, hu] at hback
  cases hback
  exact hrun'

end Wf

theorem Reachable.wf (h : Reachable n t) : t.Wf n := by
  induction h with
  | blank => exact wf_blank n
  | assign _ hz hrun ih => exact (ih.of_assign hz hrun).1
  | mark _ hrun ih => exact ih.of_mark hrun
  | truncate _ hrun ih => exact ih.of_truncate hrun
  | unassign _ hrun ih => exact ih.of_unassign hrun

/-- Whatever has been called on a trail, its tables agree with its stack, and all that is assigned
from then on can be taken back, by its length or by its first literal. -/
theorem intact_and_reversible (h : Reachable n t) :
    t.Intact n ∧ ∀ more t', (∀ a ∈ more, a.1.val ≠ 0) → assignAll more t = .ok t' →
      t'.truncate t.assigned = .ok t ∧
        ∀ l c rest, more = (l, c) :: rest → t'.unassign l =
          .ok { t with processed := t.assigned, forced := t.assigned } := by
  refine ⟨h.wf.intact, fun more t' hz hrun => ⟨h.wf.truncate_assignAll hz hrun, ?_⟩⟩
  rintro l c rest rfl
  exact h.wf.unassign_assignAll hz hrun

/-- A marked literal lies below two assignments that are taken back. -/
theorem intact_and_reversible_marked :
    ∃ t t', Reachable 4 t ∧ t.Intact 4 ∧ t.falsified = [⟨1⟩] ∧ t.Marked ⟨1⟩ ∧
      assignAll [(⟨3⟩, some ⟨7⟩), (⟨-2⟩, none)] t = .ok t' ∧
      t'.falsified = [⟨1⟩, ⟨-3⟩, ⟨2⟩] ∧ t'.truncate 1 = .ok t ∧
      t'.unassign ⟨3⟩ = .ok { t with processed := 1, forced := 1 } := by
  have hstart : Reachable 4 _ := .assign .blank (l := ⟨-1⟩) (c := none) (by decide) rfl
  have hlater : Reachable 4 _ := .assign hstart (l := ⟨4⟩) (c := some ⟨2⟩) (by decide) rfl
  have hmarked : Reachable 4 _ := .mark (l := ⟨1⟩) (.unassign (l := ⟨4⟩) hlater rfl) rfl
  obtain ⟨hintact, hback⟩ := intact_and_reversible hmarked
  obtain ⟨hcut, hfirst⟩ := hback [(⟨3⟩, some ⟨7⟩), (⟨-2⟩, none)] _ (by decide) rfl
  exact ⟨_, _, hmarked, hintact, rfl, rfl, rfl, rfl, hcut, hfirst _ _ _ rfl⟩

end UnsatCore.Trail
