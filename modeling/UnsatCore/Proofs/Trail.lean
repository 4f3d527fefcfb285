import UnsatCore.Trail
import UnsatCore.Proofs.Literal
import Mathlib.Data.List.Nodup
import Mathlib.Data.List.Perm.Subperm

/-! A trail is a row of entries, each a false literal with the clause that forced it. All tables of
the trail are read off this row, and each operation pushes or drops entries at its end. -/
namespace UnsatCore

theorem Fault.require_eq_ok {α : Type} {fault : Fault} {o : Option α} {a : α} :
    Fault.require fault o = .ok a ↔ o = some a := by
  cases o <;> simp [Fault.require]

/-- A false literal and the clause that forced it, if one did. -/
structure Entry where
  literal : Literal
  reason : Option Handle

namespace Trail

variable {t t' : Trail} {n k : Nat} {l m : Literal} {v : Var} {c : Option Handle}
  {es : List Entry} {e : Entry}

def falsified (t : Trail) : List Literal := t.stack.toList

def reasonAt (t : Trail) (v : Var) : Option Handle := (t.reason.get? v).join

def entries (t : Trail) : List Entry := t.falsified.map fun l => ⟨l, t.reasonAt l.var⟩

def Marked (t : Trail) (l : Literal) : Prop := t.status.get? l = some .marked

/-- The tables of a trail for the variables up to `n` agree with its stack. Slots that no literal of
the stack owns are blank, so the tables hold nothing else. -/
structure Wf (n : Nat) (t : Trail) : Prop where
  statusSize : t.status.size = 2 * n + 3
  reasonSize : t.reason.size = n + 2
  unset_iff : ∀ (i : Nat) (st : Status), t.status.slots[i]? = some st →
    (st = .unset ↔ ∀ l ∈ t.falsified, Slotted.slot l ≠ i)
  proper : ∀ l ∈ t.falsified, l.Proper
  small : ∀ l ∈ t.falsified, l.var.index ≤ n
  nodup : (t.falsified.map Literal.var).Nodup
  reason_none : ∀ (v : Var) (c : Option Handle), t.reason.get? v = some c →
    (∀ l ∈ t.falsified, l.var ≠ v) → c = none

/-- The tables and the stack say the same about the variables up to `n`. -/
structure Intact (n : Nat) (t : Trail) : Prop where
  covered : ∀ l : Literal, l.var.index ≤ n →
    (∃ st, t.statusOf l = .ok st) ∧ ∃ c, t.reasonOf l.var = .ok c
  status_iff : ∀ l, (∃ st, t.statusOf l = .ok st ∧ st ≠ .unset) ↔ l ∈ t.falsified
  nodup : t.falsified.Nodup
  not_mem_neg : ∀ l ∈ t.falsified, -l ∉ t.falsified
  reason_only : ∀ v c, t.reasonOf v = .ok (some c) → ∃ l ∈ t.falsified, l.var = v

@[simp] theorem map_literal_entries (t : Trail) : t.entries.map Entry.literal = t.falsified := by
  simp [entries, Function.comp_def]

theorem falsified_of_entries {t t' : Trail} (h : t'.entries = t.entries) :
    t'.falsified = t.falsified := by
  rw [← map_literal_entries, h, map_literal_entries]

theorem falsified_of_append {t t' : Trail} {es : List Entry} (h : t'.entries = t.entries ++ es) :
    t'.falsified = t.falsified ++ es.map Entry.literal := by
  rw [← map_literal_entries, h, List.map_append, map_literal_entries]

@[simp] theorem length_entries (t : Trail) : t.entries.length = t.assigned := by
  simp [entries, falsified, assigned]

theorem length_falsified (t : Trail) : t.falsified.length = t.assigned := by
  simp [falsified, assigned]

theorem mem_entries_reason (h : e ∈ t.entries) : t.reasonAt e.literal.var = e.reason := by
  simp only [entries, List.mem_map] at h
  obtain ⟨l, -, rfl⟩ := h
  rfl

theorem slot_lt (hl : l.var.index ≤ n) : Slotted.slot l < 2 * n + 3 := by
  simp only [Slotted.slot]
  split <;> omega

section Calls

variable {b : Bool}

theorem get?_of_isFalse (h : t.isFalse l = .ok b) :
    ∃ st, t.status.get? l = some st ∧ (b = true ↔ st ≠ .unset) := by
  cases hs : t.statusOf l with
  | error e => simp [isFalse, hs] at h
  | ok st =>
    simp only [isFalse, hs, Except.ok.injEq] at h
    exact ⟨st, Fault.require_eq_ok.mp hs, by rw [← h, bne_iff_ne]⟩

theorem isFalse_of_isTrue (h : t.isTrue l = .ok b) :
    l.val ≠ Int32.minValue ∧ t.isFalse (-l) = .ok b := by
  by_cases hmin : l.val = Int32.minValue
  · simp [isTrue, Literal.opposite?_eq_none hmin] at h
  · rw [isTrue, Literal.opposite?_eq_some hmin] at h
    exact ⟨hmin, h⟩

theorem marked_of_isMarked (h : t.isMarked l = .ok true) : t.Marked l := by
  cases hs : t.statusOf l with
  | error e => simp [isMarked, hs] at h
  | ok st =>
    simp only [isMarked, hs, Except.ok.injEq, beq_iff_eq] at h
    rw [Marked, ← h]
    exact Fault.require_eq_ok.mp hs

/-- What an assignment that goes through has found and what it does. -/
theorem assign_eq_ok (h : t.assign l c = .ok t') :
    t.isFalse l = .ok false ∧ t.isTrue l = .ok false ∧ ∃ status reason,
      t.status.set? (-l) .falsified = some status ∧ t.reason.set? l.var c = some reason ∧
        t' = { t with status, reason, stack := t.stack.push (-l) } := by
  simp only [assign, isAssigned, setStatus, setReason, push] at h
  split at h
  · cases h
  · cases h
  rename_i hfree
  split at hfree
  swap
  · rename_i hf
    exact (hf hfree).elim
  rename_i hf
  refine ⟨hf, hfree, ?_⟩
  split at h
  · cases h
  rename_i hstatus
  split at hstatus
  swap
  · cases hstatus
  rename_i status hst
  cases hstatus
  split at h
  swap
  · cases h
  rename_i reason hr
  cases h
  exact ⟨status, reason, hst, hr, rfl⟩

/-- What becomes true goes onto the stack. -/
theorem stack_assign (h : t.assign l c = .ok t') : t'.stack = t.stack.push (-l) := by
  obtain ⟨-, -, status, reason, -, -, rfl⟩ := assign_eq_ok h
  rfl

/-- A literal that becomes false is not marked. -/
theorem marked_assign (h : t.assign l c = .ok t') (m : Literal) : t'.Marked m ↔ t.Marked m := by
  obtain ⟨-, htrue, status, reason, hst, -, rfl⟩ := assign_eq_ok h
  obtain ⟨st, hget, hfree⟩ := get?_of_isFalse (isFalse_of_isTrue htrue).2
  simp only [Marked, SlotMap.get?_set? hst m, Literal.slot_inj]
  split
  · rename_i he
    rw [← he, hget]
    cases st <;> simp_all
  · rfl

end Calls

theorem wf_blank (n : Nat) : (blank n).Wf n where
  statusSize := by simp [blank, SlotMap.replicate, SlotMap.size]
  reasonSize := by simp [blank, SlotMap.replicate, SlotMap.size]
  unset_iff := by
    intro i st hst
    simp only [blank, SlotMap.replicate, Array.getElem?_replicate] at hst
    split at hst
    · cases hst
      simp [blank, falsified]
    · cases hst
  proper := by simp [blank, falsified]
  small := by simp [blank, falsified]
  nodup := by simp [blank, falsified]
  reason_none := by
    intro v c hc _
    simp only [blank, SlotMap.get?, SlotMap.replicate, Array.getElem?_replicate] at hc
    split at hc
    · cases hc
      rfl
    · cases hc

theorem take_falsified (t : Trail) (k : Nat) :
    t.falsified.take k = (t.entries.take k).map Entry.literal := by
  rw [List.map_take, map_literal_entries]

theorem drop_falsified (t : Trail) (k : Nat) :
    t.falsified.drop k = (t.entries.drop k).map Entry.literal := by
  rw [List.map_drop, map_literal_entries]

theorem literal_mem_falsified (h : e ∈ t.entries) : e.literal ∈ t.falsified := by
  rw [← map_literal_entries]
  exact List.mem_map_of_mem h

theorem literalAt_eq_ok (h : t.falsified[k]? = some l) : t.literalAt k = .ok l := by
  have hs : t.stack[k]? = some l := by
    rw [← Array.getElem?_toList]
    exact h
  simp [literalAt, hs, Fault.require]

/-- The entry at a place of the trail, with those below and those above it. -/
theorem exists_entryAt (hk : k < t.assigned) :
    ∃ e, t.entries.drop k = e :: t.entries.drop (k + 1) ∧
      t.entries.take (k + 1) = t.entries.take k ++ [e] ∧ t.literalAt k = .ok e.literal := by
  have hlt : k < t.entries.length := by
    rw [length_entries]
    exact hk
  refine ⟨t.entries[k], List.drop_eq_getElem_cons hlt, ?_, literalAt_eq_ok ?_⟩
  · rw [List.take_add_one, List.getElem?_eq_getElem hlt]
    rfl
  · rw [← map_literal_entries, List.getElem?_map, List.getElem?_eq_getElem hlt]
    rfl

namespace Wf

/-- No literal lies both below and above a place of the trail. -/
theorem not_mem_drop (h : t.Wf n) (hl : l ∈ t.falsified.take k) : l ∉ t.falsified.drop k := by
  have hnd := h.nodup.of_map
  rw [← List.take_append_drop k t.falsified] at hnd
  exact fun hd => (List.nodup_append.mp hnd).2.2 l hl l hd rfl

/-- No variable has two values. -/
theorem not_mem_neg (h : t.Wf n) (hl : l ∈ t.falsified) : -l ∉ t.falsified := by
  intro hn
  exact (h.proper l hl).neg_ne (List.inj_on_of_nodup_map h.nodup hn hl (by simp))

theorem nodup_falsified (h : t.Wf n) : t.falsified.Nodup := h.nodup.of_map

/-- A variable is at most once on the trail, and it is not 0. -/
theorem assigned_le (h : t.Wf n) (hk : ∀ l ∈ t.falsified, l.var.index ≤ k) : t.assigned ≤ k := by
  have hsub : t.falsified.map Literal.var ⊆ (List.range' 1 k).map Var.mk := by
    intro v hv
    obtain ⟨l, hl, rfl⟩ := List.mem_map.mp hv
    have hs := hk l hl
    have hpos : 0 < l.var.index := Int.natAbs_pos.mpr (h.proper l hl).toInt_ne_zero
    exact List.mem_map.mpr ⟨l.var.index, List.mem_range'_1.mpr (by omega), rfl⟩
  have hle := h.nodup.length_le_of_subset hsub
  simpa [length_falsified] using hle

theorem statusOf (h : t.Wf n) (hl : l.var.index ≤ n) :
    ∃ st, t.status.get? l = some st ∧ t.statusOf l = .ok st := by
  obtain ⟨st, hs⟩ := SlotMap.exists_get? (m := t.status) (k := l)
    (by rw [h.statusSize]; exact slot_lt hl)
  exact ⟨st, hs, by simp [Trail.statusOf, hs, Fault.require]⟩

theorem eq_unset_iff (h : t.Wf n) {st : Status} (hst : t.status.get? l = some st) :
    st = .unset ↔ l ∉ t.falsified := by
  rw [h.unset_iff _ st hst]
  simp only [Ne, Literal.slot_inj]
  exact ⟨fun hno hl => hno l hl rfl, fun hl m hm he => hl (he ▸ hm)⟩

theorem mem_of_marked (h : t.Wf n) (hm : t.Marked l) : l ∈ t.falsified := by
  by_contra hl
  cases (h.eq_unset_iff hm).mpr hl

theorem statusOf_of_mem (h : t.Wf n) (hl : l ∈ t.falsified) (hm : ¬ t.Marked l) :
    t.statusOf l = .ok .falsified := by
  obtain ⟨st, hs, ho⟩ := h.statusOf (h.small l hl)
  have hne : st ≠ .unset := fun he => (h.eq_unset_iff hs).mp he hl
  have hmk : st ≠ .marked := fun he => hm (hs.trans (congrArg some he))
  rw [ho]
  cases st <;> simp_all

theorem statusOf_of_not_mem (h : t.Wf n) (hs : l.var.index ≤ n) (hl : l ∉ t.falsified) :
    t.statusOf l = .ok .unset := by
  obtain ⟨st, hst, ho⟩ := h.statusOf hs
  rw [ho, (h.eq_unset_iff hst).mpr hl]

theorem isFalse (h : t.Wf n) (hl : l.var.index ≤ n) :
    t.isFalse l = .ok (decide (l ∈ t.falsified)) := by
  obtain ⟨st, hs, ho⟩ := h.statusOf hl
  have hu := h.eq_unset_iff hs
  by_cases hm : l ∈ t.falsified
  · have hne : st ≠ .unset := fun he => hu.mp he hm
    simp [Trail.isFalse, ho, hne, hm]
  · simp [Trail.isFalse, ho, hu.mpr hm, hm]

theorem isTrue (h : t.Wf n) (hl : l.var.index ≤ n) (hm : l.val ≠ Int32.minValue) :
    t.isTrue l = .ok (decide (-l ∈ t.falsified)) := by
  rw [Trail.isTrue, Literal.opposite?_eq_some hm]
  exact h.isFalse (by simpa using hl)

/-- Where the trail can tell that a variable has no value, it has none. -/
theorem free_of_isAssigned (h : t.Wf n) (hl : l.var.index ≤ n) (hz : l.val ≠ 0)
    (hfree : t.isAssigned l = .ok false) : l.Proper ∧ l ∉ t.falsified ∧ -l ∉ t.falsified := by
  have hf : l ∉ t.falsified := by
    intro hf
    simp [isAssigned, h.isFalse hl, hf] at hfree
  have hmin : l.val ≠ Int32.minValue := by
    intro hm
    simp [isAssigned, h.isFalse hl, hf, Trail.isTrue, Literal.opposite?_eq_none hm] at hfree
  refine ⟨⟨hz, hmin⟩, hf, fun hn => ?_⟩
  simp [isAssigned, h.isFalse hl, hf, h.isTrue hl hmin, hn] at hfree

theorem isMarked (h : t.Wf n) (hl : l.var.index ≤ n) [Decidable (t.Marked l)] :
    t.isMarked l = .ok (decide (t.Marked l)) := by
  obtain ⟨st, hs, ho⟩ := h.statusOf hl
  have hiff : t.Marked l ↔ st = .marked := by simp [Marked, hs]
  simp only [Trail.isMarked, ho, Except.ok.injEq, hiff]
  cases st <;> rfl

theorem reasonOf (h : t.Wf n) (hv : v.index ≤ n) : t.reasonOf v = .ok (t.reasonAt v) := by
  obtain ⟨r, hr⟩ := SlotMap.exists_get? (m := t.reason) (k := v)
    (by rw [h.reasonSize]; simp only [Slotted.slot]; omega)
  simp [Trail.reasonOf, reasonAt, hr, Fault.require]

theorem reasonAt_eq_none (h : t.Wf n) (hv : ∀ l ∈ t.falsified, l.var ≠ v) :
    t.reasonAt v = none := by
  cases hr : t.reason.get? v with
  | none => simp [reasonAt, hr]
  | some r => simp [reasonAt, hr, h.reason_none v r hr hv]

theorem mem_of_reasonAt (h : t.Wf n) {d : Handle} (hr : t.reasonAt v = some d) :
    ∃ l, l.var = v ∧ ⟨l, some d⟩ ∈ t.entries := by
  by_contra hno
  have hne : ∀ l ∈ t.falsified, l.var ≠ v := by
    intro l hl he
    apply hno
    refine ⟨l, he, List.mem_map.mpr ⟨l, hl, ?_⟩⟩
    rw [he, hr]
  simp [h.reasonAt_eq_none hne] at hr

theorem intact (h : t.Wf n) : t.Intact n where
  covered l hl := by
    obtain ⟨st, -, hst⟩ := h.statusOf hl
    exact ⟨⟨st, hst⟩, _, h.reasonOf hl⟩
  status_iff l := by
    constructor
    · rintro ⟨st, hst, hne⟩
      rw [Trail.statusOf, Fault.require_eq_ok] at hst
      by_contra hl
      exact hne ((h.eq_unset_iff hst).mpr hl)
    · intro hl
      obtain ⟨st, hget, hst⟩ := h.statusOf (h.small l hl)
      exact ⟨st, hst, fun he => (h.eq_unset_iff hget).mp he hl⟩
  nodup := h.nodup_falsified
  not_mem_neg _ hl := h.not_mem_neg hl
  reason_only v c hc := by
    rw [Trail.reasonOf, Fault.require_eq_ok] at hc
    obtain ⟨l, hv, hl⟩ := h.mem_of_reasonAt (v := v) (d := c) (by rw [reasonAt, hc]; rfl)
    exact ⟨l, literal_mem_falsified hl, hv⟩

/-- Changing how a false literal is marked changes nothing else. -/
theorem setStatus (h : t.Wf n) (hl : l ∈ t.falsified) (st : Status) (hst : st ≠ .unset) :
    ∃ t', t.setStatus l st = .ok t' ∧ t'.Wf n ∧ t'.entries = t.entries ∧
      t'.processed = t.processed ∧ t'.forced = t.forced ∧
      ∀ m, t'.Marked m ↔ if m = l then st = .marked else t.Marked m := by
  obtain ⟨status, hs⟩ := SlotMap.set?_eq_some (m := t.status) (k := l)
    (by rw [h.statusSize]; exact slot_lt (h.small l hl)) st
  refine ⟨{ t with status }, by simp [Trail.setStatus, hs], ?_, rfl, rfl, rfl, ?_⟩
  · refine ⟨(SlotMap.size_set? hs).trans h.statusSize, h.reasonSize, ?_, h.proper, h.small,
      h.nodup, h.reason_none⟩
    intro i st' hi
    rw [SlotMap.getElem?_set? hs] at hi
    split at hi
    · rename_i he
      cases hi
      refine iff_of_false hst fun hno => hno l hl he
    · exact h.unset_iff i st' hi
  · intro m
    simp only [Marked, SlotMap.get?_set? hs m, Literal.slot_inj, eq_comm (a := l)]
    split <;> simp

theorem mark (h : t.Wf n) (hl : l ∈ t.falsified) :
    ∃ t', t.mark l = .ok t' ∧ t'.Wf n ∧ t'.entries = t.entries ∧ t'.processed = t.processed ∧
      t'.forced = t.forced ∧ ∀ m, t'.Marked m ↔ m = l ∨ t.Marked m := by
  obtain ⟨t', hs, hw, he, hp, hf, hm⟩ := h.setStatus hl .marked (by simp)
  refine ⟨t', by simp [Trail.mark, h.isFalse (h.small l hl), hl, hs], hw, he, hp, hf, ?_⟩
  intro m
  rw [hm]
  split <;> simp_all

section Top

variable {status : SlotMap Literal Status} {reason : SlotMap Var (Option Handle)}

/-- A literal of a variable without a value goes on top. -/
theorem pushed (h : t.Wf n) (hp : l.Proper) (hs : l.var.index ≤ n)
    (hnew : ∀ m ∈ t.falsified, m.var ≠ l.var)
    (hst : t.status.set? (-l) .falsified = some status)
    (hr : t.reason.set? l.var c = some reason) :
    Wf n { t with status, reason, stack := t.stack.push (-l) } := by
  have hstack : ∀ {m}, m ∈ (t.stack.push (-l)).toList → m ∈ t.falsified ∨ m = -l := by
    intro m hm
    rw [Array.toList_push, List.mem_append, List.mem_singleton] at hm
    exact hm
  refine ⟨(SlotMap.size_set? hst).trans h.statusSize, (SlotMap.size_set? hr).trans h.reasonSize,
    ?_, ?_, ?_, ?_, ?_⟩
  · intro i st hi
    rw [SlotMap.getElem?_set? hst] at hi
    simp only [falsified, Array.toList_push, List.mem_append, List.mem_singleton, or_imp,
      forall_and, forall_eq]
    split at hi
    · rename_i he
      cases hi
      exact iff_of_false (by simp) fun hno => hno.2 he
    · rename_i he
      rw [h.unset_iff i st hi]
      exact ⟨fun hno => ⟨hno, he⟩, fun hno => hno.1⟩
  · intro m hm
    rcases hstack hm with hm | rfl
    · exact h.proper m hm
    · exact hp.neg
  · intro m hm
    rcases hstack hm with hm | rfl
    · exact h.small m hm
    · simpa using hs
  · simp only [falsified, Array.toList_push, List.map_append, List.map_cons, List.map_nil,
      Literal.var_neg]
    rw [List.nodup_append_comm]
    simp only [List.singleton_append, List.nodup_cons, List.mem_map, not_exists, not_and]
    exact ⟨hnew, h.nodup⟩
  · intro v c' hc' hno
    simp only [falsified, Array.toList_push, List.mem_append, List.mem_singleton] at hno
    have hvl : v ≠ l.var := fun he => hno (-l) (Or.inr rfl) (by simp [he])
    simp only [SlotMap.get?_set? hr, Var.slot_inj, Ne.symm hvl, if_false] at hc'
    exact h.reason_none v c' hc' fun m hm => hno m (Or.inl hm)

theorem entries_pushed (hnew : ∀ m ∈ t.falsified, m.var ≠ l.var)
    (hr : t.reason.set? l.var c = some reason) :
    entries { t with status, reason, stack := t.stack.push (-l) } = t.entries ++ [⟨-l, c⟩] := by
  simp only [entries, falsified, Array.toList_push, List.map_append, List.map_cons, List.map_nil]
  congr 1
  · apply List.map_congr_left
    intro m hm
    simp [reasonAt, SlotMap.get?_set? hr, Ne.symm (hnew m hm)]
  · simp [reasonAt, SlotMap.get?_set? hr]

theorem assign (h : t.Wf n) (hp : l.Proper) (hs : l.var.index ≤ n) (hf : l ∉ t.falsified)
    (ht : -l ∉ t.falsified) (c : Option Handle) :
    ∃ t', t.assign l c = .ok t' ∧ t'.Wf n ∧ t'.entries = t.entries ++ [⟨-l, c⟩] ∧
      t'.processed = t.processed ∧ t'.forced = t.forced ∧ ∀ m, t'.Marked m ↔ t.Marked m := by
  obtain ⟨status, hst⟩ := SlotMap.set?_eq_some (m := t.status) (k := -l)
    (by rw [h.statusSize]; exact slot_lt (by simpa using hs)) .falsified
  obtain ⟨reason, hr⟩ := SlotMap.set?_eq_some (m := t.reason) (k := l.var)
    (by rw [h.reasonSize]; simp only [Slotted.slot]; omega) c
  have hnew : ∀ m ∈ t.falsified, m.var ≠ l.var := by
    intro m hm he
    rcases Literal.eq_or_eq_neg_of_var_eq hp he.symm with rfl | rfl
    · exact hf hm
    · exact ht hm
  have hassign : t.assign l c = .ok { t with status, reason, stack := t.stack.push (-l) } := by
    simp [Trail.assign, isAssigned, h.isFalse hs, h.isTrue hs hp.2, hf, ht, Trail.setStatus, hst,
      push, setReason, hr]
  refine ⟨_, hassign, h.pushed hp hs hnew hst hr, entries_pushed hnew hr, rfl, rfl, ?_⟩
  intro m
  simp only [Marked, SlotMap.get?_set? hst m, Literal.slot_inj]
  split
  · rename_i he
    subst he
    obtain ⟨st, hget, -⟩ := h.statusOf (l := -l) (by simpa using hs)
    simp [hget, (h.eq_unset_iff hget).mpr ht]
  · exact Iff.rfl

/-- The literal on top is taken off. -/
theorem popped {fs : List Literal} (h : t.Wf n) (hfs : t.falsified = fs ++ [l])
    (hapart : ∀ m ∈ fs, m.var ≠ l.var) (hst : t.status.set? l .unset = some status)
    (hr : t.reason.set? l.var none = some reason) :
    Wf n { t with status, reason, stack := t.stack.pop } := by
  have hpop : t.stack.pop.toList = fs := by
    rw [Array.toList_pop, show t.stack.toList = _ from hfs]
    simp
  have hold : ∀ m ∈ fs, m ∈ t.falsified := fun m hm => by
    rw [hfs]
    exact List.mem_append_left _ hm
  refine ⟨(SlotMap.size_set? hst).trans h.statusSize, (SlotMap.size_set? hr).trans h.reasonSize,
    ?_, ?_, ?_, ?_, ?_⟩ <;> simp only [falsified, hpop]
  · intro i st hi
    rw [SlotMap.getElem?_set? hst] at hi
    split at hi
    · rename_i he
      cases hi
      refine iff_of_true rfl fun m hm hmi => hapart m hm ?_
      rw [Literal.slot_injective (hmi.trans he.symm)]
    · rename_i he
      rw [h.unset_iff i st hi, hfs]
      simp only [List.mem_append, List.mem_singleton, or_imp, forall_and, forall_eq]
      exact and_iff_left he
  · exact fun m hm => h.proper m (hold m hm)
  · exact fun m hm => h.small m (hold m hm)
  · have hnd := h.nodup
    rw [hfs, List.map_append] at hnd
    exact (List.nodup_append.mp hnd).1
  · intro v c hc hno
    by_cases hvl : v = l.var
    · simpa [SlotMap.get?_set? hr, hvl, eq_comm] using hc
    · simp only [SlotMap.get?_set? hr, Var.slot_inj, Ne.symm hvl, if_false] at hc
      apply h.reason_none v c hc
      intro m hm
      rw [hfs, List.mem_append, List.mem_singleton] at hm
      rcases hm with hm | rfl
      · exact hno m hm
      · exact fun he => hvl he.symm

theorem entries_popped (he : t.entries = es ++ [e])
    (hfs : t.falsified = es.map Entry.literal ++ [l])
    (hapart : ∀ m ∈ es.map Entry.literal, m.var ≠ l.var)
    (hr : t.reason.set? l.var none = some reason) :
    entries { t with status, reason, stack := t.stack.pop } = es := by
  have hpop : t.stack.pop.toList = es.map Entry.literal := by
    rw [Array.toList_pop, show t.stack.toList = _ from hfs]
    simp
  have hes : es = (es.map Entry.literal).map fun l => ⟨l, t.reasonAt l.var⟩ := by
    have hen := he
    rw [entries, hfs, List.map_append] at hen
    exact (List.append_inj_left' hen (by simp)).symm
  rw [hes]
  simp only [entries, falsified, hpop]
  apply List.map_congr_left
  intro m hm
  simp [reasonAt, SlotMap.get?_set? hr, Ne.symm (hapart m hm)]

theorem pop (h : t.Wf n) (he : t.entries = es ++ [e]) :
    ∃ t', t.pop = .ok t' ∧ t'.Wf n ∧ t'.entries = es ∧ t'.processed = t.processed ∧
      t'.forced = t.forced ∧ ∀ m, t'.Marked m ↔ t.Marked m ∧ m ≠ e.literal := by
  have hfs : t.falsified = es.map Entry.literal ++ [e.literal] := by
    rw [← map_literal_entries, he]
    simp
  obtain ⟨l, hl⟩ : ∃ l, e.literal = l := ⟨_, rfl⟩
  rw [hl] at hfs ⊢
  have hmem : l ∈ t.falsified := by simp [hfs]
  have hback : t.stack.back? = some l := by
    rw [← Array.getLast?_toList, show t.stack.toList = _ from hfs]
    simp
  have hnd := h.nodup
  rw [hfs, List.map_append, List.nodup_append_comm] at hnd
  simp only [List.map_cons, List.map_nil, List.singleton_append, List.nodup_cons] at hnd
  have hapart : ∀ m ∈ es.map Entry.literal, m.var ≠ l.var := fun m hm he =>
    hnd.1 (List.mem_map.mpr ⟨m, hm, he⟩)
  obtain ⟨status, hst⟩ := SlotMap.set?_eq_some (m := t.status) (k := l)
    (by rw [h.statusSize]; exact slot_lt (h.small l hmem)) .unset
  obtain ⟨reason, hr⟩ := SlotMap.set?_eq_some (m := t.reason) (k := l.var)
    (by rw [h.reasonSize]; have := h.small l hmem; simp only [Slotted.slot]; omega) none
  have hrun : t.pop = .ok { t with status, reason, stack := t.stack.pop } := by
    simp [Trail.pop, hback, release, Trail.setStatus, hst, clearReason, setReason, hr]
  refine ⟨_, hrun, h.popped hfs hapart hst hr, entries_popped he hfs hapart hr, rfl, rfl, ?_⟩
  intro m
  simp only [Marked, SlotMap.get?_set? hst m, Literal.slot_inj]
  by_cases he : l = m
  · simp [he]
  · simp [he, Ne.symm he]

end Top

theorem popMany (h : t.Wf n) (hk : k ≤ t.assigned) :
    ∃ t', popMany k t = .ok t' ∧ t'.Wf n ∧ t'.entries = t.entries.take (t.assigned - k) ∧
      t'.processed = t.processed ∧ t'.forced = t.forced ∧
      ∀ m, t'.Marked m ↔ t.Marked m ∧ m ∉ t.falsified.drop (t.assigned - k) := by
  induction k generalizing t with
  | zero =>
    refine ⟨t, rfl, h, ?_, rfl, rfl, fun m => ?_⟩
    · simp [List.take_of_length_le]
    · simp [List.drop_of_length_le, length_falsified]
  | succ k ih =>
    obtain ⟨es, e, he⟩ : ∃ es e, t.entries = es ++ [e] := by
      rcases List.eq_nil_or_concat t.entries with hn | ⟨es, e, he⟩
      · have := t.length_entries
        rw [hn, List.length_nil] at this
        omega
      · exact ⟨es, e, by simpa using he⟩
    have hfs : t.falsified = es.map Entry.literal ++ [e.literal] := by
      rw [← map_literal_entries, he]
      simp
    obtain ⟨t₁, hpop, hw, hes, hp, hf, hm⟩ := h.pop he
    have hsize : t.assigned = t₁.assigned + 1 := by
      rw [← length_entries, ← length_entries, he, hes]
      simp
    have hfs₁ : t₁.falsified = es.map Entry.literal := by
      rw [← map_literal_entries, hes]
    obtain ⟨t', hrun, hw', hes', hp', hf', hm'⟩ := ih hw (by omega)
    have hcut : t₁.assigned - k = t.assigned - (k + 1) := by omega
    refine ⟨t', by simp [Trail.popMany, hpop, hrun], hw', ?_, hp'.trans hp, hf'.trans hf, ?_⟩
    · rw [hes', hes, he, hcut, List.take_append_of_le_length]
      rw [← hes, length_entries]
      omega
    · intro m
      rw [hm', hm, hcut, hfs₁, hfs, List.drop_append_of_le_length]
      · simp only [List.mem_append, List.mem_singleton, not_or]
        tauto
      · rw [List.length_map, ← hes, length_entries]
        omega

/-- Only the first `k` entries are left, and of the marks those of their literals. -/
theorem truncate (h : t.Wf n) (hk : k ≤ t.assigned) :
    ∃ t', t.truncate k = .ok t' ∧ t'.Wf n ∧ t'.entries = t.entries.take k ∧
      t'.processed = t.processed ∧ t'.forced = t.forced ∧
      ∀ m, t'.Marked m ↔ t.Marked m ∧ m ∉ t.falsified.drop k := by
  have hcut : t.assigned - (t.assigned - k) = k := by omega
  simpa [Trail.truncate, hcut] using h.popMany (k := t.assigned - k) (by omega)

/-- While `l` is true, what is taken off is the entry of `l` and all later ones. -/
theorem popWhileTrue_eq (h : t.Wf n) {post : List Entry} (he : t.entries = es ++ ⟨-l, c⟩ :: post)
    (hk : post.length < k) : Trail.popWhileTrue l k t = Trail.popMany (post.length + 1) t := by
  induction k generalizing t post with
  | zero => omega
  | succ k ih =>
    have hmem : -l ∈ t.falsified := by
      rw [← map_literal_entries, he]
      simp
    have hp := Literal.proper_neg_iff.mp (h.proper _ hmem)
    have hs : l.var.index ≤ n := by simpa using h.small _ hmem
    have htrue : t.isTrue l = .ok true := by simp [h.isTrue hs hp.2, hmem]
    rcases List.eq_nil_or_concat post with rfl | ⟨post, e, rfl⟩
    · obtain ⟨t₁, hpop, hw, hes, -, -, -⟩ := h.pop he
      have hgone : -l ∉ t₁.falsified := by
        have hnd := h.nodup_falsified
        rw [← map_literal_entries, he, List.map_append, List.nodup_append_comm] at hnd
        rw [← map_literal_entries, hes]
        exact (List.nodup_cons.mp hnd).1
      have hstop : Trail.popWhileTrue l k t₁ = .ok t₁ := by
        cases k with
        | zero => rfl
        | succ k => simp [Trail.popWhileTrue, hw.isTrue hs hp.2, hgone]
      simp [Trail.popWhileTrue, Trail.popMany, htrue, hpop, hstop]
    · rw [List.concat_eq_append, ← List.cons_append, ← List.append_assoc] at he
      obtain ⟨t₁, hpop, hw, hes, -, -, -⟩ := h.pop he
      have hrest := ih hw hes (by simpa using hk)
      simp [Trail.popWhileTrue, Trail.popMany, htrue, hpop, hrest]

theorem bounds (h : t.Wf n) (processed forced : Nat) : Wf n { t with processed, forced } :=
  ⟨h.statusSize, h.reasonSize, h.unset_iff, h.proper, h.small, h.nodup, h.reason_none⟩

/-- To unassign a true literal is to cut the stack below its entry and to settle. -/
theorem unassign_eq (h : t.Wf n) {post : List Entry} (he : t.entries = es ++ ⟨-l, c⟩ :: post) :
    ∃ t', t.truncate es.length = .ok t' ∧ t.unassign l = .ok t'.settle := by
  have hmem : -l ∈ t.falsified := by
    rw [← map_literal_entries, he]
    simp
  have hp := Literal.proper_neg_iff.mp (h.proper _ hmem)
  have hs : l.var.index ≤ n := by simpa using h.small _ hmem
  have hlen := congrArg List.length he
  simp only [length_entries, List.length_append, List.length_cons] at hlen
  obtain ⟨t', hrun, -⟩ := h.truncate (k := es.length) (by omega)
  have hpops : Trail.popWhileTrue l t.assigned t = .ok t' := by
    rw [h.popWhileTrue_eq he (by omega), ← hrun, Trail.truncate]
    congr 1
    omega
  exact ⟨t', hrun, by simp [Trail.unassign, h.isTrue hs hp.2, hpops]⟩

/-- The entry of `l` and all later ones are dropped, of the marks those of their literals, and what
is left counts as propagated. -/
theorem unassign (h : t.Wf n) {post : List Entry} (he : t.entries = es ++ ⟨-l, c⟩ :: post) :
    ∃ t', t.unassign l = .ok t' ∧ t'.Wf n ∧ t'.entries = es ∧ t'.processed = es.length ∧
      t'.forced = es.length ∧ ∀ m, t'.Marked m ↔ t.Marked m ∧ m ∈ t'.falsified := by
  obtain ⟨t', hcut, hrun⟩ := h.unassign_eq he
  have hle : es.length ≤ t.assigned := by
    rw [← length_entries, he, List.length_append]
    exact Nat.le_add_right _ _
  obtain ⟨u, hu, hw, hes, -, -, hm⟩ := h.truncate hle
  cases hcut.symm.trans hu
  have htake : t'.falsified = t.falsified.take es.length := by
    rw [take_falsified, ← hes, map_literal_entries]
  have hsize : t'.stack.size = es.length := by
    rw [← assigned, ← length_falsified, htake, List.length_take, length_falsified,
      Nat.min_eq_left hle]
  rw [he, List.take_left' rfl] at hes
  refine ⟨t'.settle, hrun, hw.bounds _ _, hes, hsize, hsize, fun m => ?_⟩
  rw [show t'.settle.Marked m ↔ t'.Marked m from Iff.rfl, hm,
    show t'.settle.falsified = t'.falsified from rfl, htake]
  refine and_congr_right fun hk => ⟨fun hd => ?_, fun ht => h.not_mem_drop ht⟩
  have hall := h.mem_of_marked hk
  rw [← List.take_append_drop es.length t.falsified, List.mem_append] at hall
  exact hall.resolve_right hd

theorem status_eq (h : t.Wf n) (h' : t'.Wf n) (hm : ∀ m, t.Marked m ↔ t'.Marked m)
    (hf : t.falsified = t'.falsified) : t.status = t'.status := by
  have hsize : t.status.slots.size = t'.status.slots.size := h.statusSize.trans h'.statusSize.symm
  refine SlotMap.eq_of_slots (Array.ext hsize fun i hi hi' => ?_)
  have hst := Array.getElem?_eq_getElem hi
  have hst' := Array.getElem?_eq_getElem hi'
  have hu := h.unset_iff i _ hst
  have hu' := h'.unset_iff i _ hst'
  rw [← hf] at hu'
  by_cases hfree : ∀ l ∈ t.falsified, Slotted.slot l ≠ i
  · rw [hu.mpr hfree, hu'.mpr hfree]
  · -- A slot in use is not blank, so that its mark settles what it holds.
    have hne := mt hu.mp hfree
    have hne' := mt hu'.mp hfree
    push Not at hfree
    obtain ⟨l, -, rfl⟩ := hfree
    have hmk := hm l
    simp only [Marked, SlotMap.get?, hst, hst', Option.some.injEq] at hmk
    revert hne hne' hmk
    cases t.status.slots[Slotted.slot l] <;> cases t'.status.slots[Slotted.slot l] <;> simp

theorem reason_eq (h : t.Wf n) (h' : t'.Wf n) (he : t.entries = t'.entries) :
    t.reason = t'.reason := by
  have hf := falsified_of_entries he
  have hsize : t.reason.slots.size = t'.reason.slots.size := h.reasonSize.trans h'.reasonSize.symm
  refine SlotMap.eq_of_slots (Array.ext hsize fun i hi hi' => ?_)
  have hr : t.reason.get? ⟨i⟩ = some t.reason.slots[i] := Array.getElem?_eq_getElem hi
  have hr' : t'.reason.get? ⟨i⟩ = some t'.reason.slots[i] := Array.getElem?_eq_getElem hi'
  by_cases hfree : ∀ l ∈ t.falsified, l.var ≠ ⟨i⟩
  · rw [h.reason_none _ _ hr hfree, h'.reason_none _ _ hr' (hf ▸ hfree)]
  · push Not at hfree
    obtain ⟨l, hl, hv⟩ := hfree
    have hmem : ⟨l, t.reasonAt l.var⟩ ∈ t'.entries := he ▸ List.mem_map.mpr ⟨l, hl, rfl⟩
    have heq := mem_entries_reason (e := ⟨l, t.reasonAt l.var⟩) hmem
    simp only [hv, reasonAt, hr, hr', Option.join_some] at heq
    exact heq.symm

/-- A trail is determined by its entries, marks and bounds. -/
theorem ext (h : t.Wf n) (h' : t'.Wf n) (hm : ∀ m, t.Marked m ↔ t'.Marked m)
    (he : t.entries = t'.entries) (hp : t.processed = t'.processed)
    (hfo : t.forced = t'.forced) : t = t' := by
  have hf := falsified_of_entries he
  have hstatus := h.status_eq h' hm hf
  have hreason := h.reason_eq h' he
  have hstack : t.stack = t'.stack := by
    unfold falsified at hf
    exact Array.toList_inj.mp hf
  rw [show t = ⟨t.status, t.reason, t.stack, t.processed, t.forced⟩ from rfl, hstatus, hreason,
    hstack, hp, hfo]

end Wf

theorem not_marked_blank (n : Nat) (l : Literal) : ¬ (blank n).Marked l := fun h =>
  List.not_mem_nil ((wf_blank n).mem_of_marked h)

end Trail

end UnsatCore
