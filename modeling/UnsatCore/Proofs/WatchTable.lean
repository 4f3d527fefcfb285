import UnsatCore.WatchTable
import UnsatCore.Proofs.Literal
import UnsatCore.Proofs.Trail

/-! What the operations on watch lists do to the lists. Where a watcher is taken out, those before
it stay in place and those after it stay in some order. -/
namespace UnsatCore

section Split

variable {α : Type} {xs : List α} {i : Nat} {x : α}

theorem eq_take_append_cons_drop (h : xs[i]? = some x) :
    xs = xs.take i ++ x :: xs.drop (i + 1) := by
  obtain ⟨hlt, rfl⟩ := List.getElem?_eq_some_iff.mp h
  rw [List.getElem_cons_drop, List.take_append_drop]

/-- A list is what stands before, at and after one of its places. -/
theorem exists_eq_append_cons (h : xs[i]? = some x) :
    ∃ pre post, xs = pre ++ x :: post ∧ pre.length = i :=
  ⟨xs.take i, xs.drop (i + 1), eq_take_append_cons_drop h,
    List.length_take_of_le (Nat.le_of_lt (List.getElem?_eq_some_iff.mp h).1)⟩

end Split

theorem toList_swapRemove {α : Type} {xs : Array α} {pre post : List α} {x : α}
    (h : xs.toList = pre ++ x :: post) :
    ∃ rest, (swapRemove xs pre.length).toList = pre ++ rest ∧ rest.Perm post := by
  have hsize : xs.size = pre.length + 1 + post.length := by
    rw [← Array.length_toList, h]
    simp
    omega
  have hi : pre.length < xs.size := by omega
  have hj : xs.size - 1 < xs.size := by omega
  have hrun : (swapRemove xs pre.length).toList =
      ((xs.toList.set pre.length xs[xs.size - 1]).set (xs.size - 1) xs[pre.length]).dropLast := by
    simp [swapRemove, Array.swapIfInBounds, hi, hj, Array.swap]
  have hx : xs[pre.length] = x := by
    simp [← Array.getElem_toList, h]
  rcases List.eq_nil_or_concat post with rfl | ⟨post, y, rfl⟩
  · have hlast : xs.size - 1 = pre.length := by simp [hsize]
    refine ⟨[], ?_, List.Perm.refl _⟩
    simp [hrun, hlast, h]
  · rw [List.concat_eq_append] at hsize h ⊢
    simp only [List.length_append, List.length_singleton] at hsize
    have hlast : xs.size - 1 = pre.length + (post.length + 1) := by omega
    have hy : xs[xs.size - 1] = y := by
      simp [← Array.getElem_toList, h, hlast]
    refine ⟨y :: post, ?_, ?_⟩
    · rw [hrun, hx, hy, h, hlast]
      simp only [List.set_append_right _ _ (Nat.le_refl _), Nat.sub_self, List.set_cons_zero,
        List.set_append_right _ _ (Nat.le_add_right _ _), Nat.add_sub_cancel_left,
        List.set_cons_succ]
      rw [← List.cons_append, ← List.append_assoc, List.dropLast_concat]
    · exact (List.perm_append_singleton y post).symm

namespace WatchTable

variable {t : WatchTable} {n : Nat} {l : Literal} {c : Handle} {w : Watcher}

def watchers (t : WatchTable) (l : Literal) : List Watcher := ((t.lists.get? l).getD #[]).toList

/-- The clauses on a watch list, in their order. -/
def clauses (t : WatchTable) (l : Literal) : List Handle := (t.watchers l).map Watcher.clause

/-- The table has a list for both literals of each variable up to `n`. -/
def Fits (n : Nat) (t : WatchTable) : Prop := t.lists.size = 2 * n + 3

theorem fits_blank (n : Nat) : (blank (2 * n + 3)).Fits n := by
  simp [Fits, blank, SlotMap.replicate, SlotMap.size]

theorem watchers_blank (k : Nat) (l : Literal) : (blank k).watchers l = [] := by
  simp only [watchers, blank, SlotMap.get?, SlotMap.replicate, Array.getElem?_replicate]
  split <;> rfl

namespace Fits

theorem list (h : t.Fits n) (hl : l.var.index ≤ n) :
    ∃ ws, t.list l = .ok ws ∧ t.lists.get? l = some ws ∧ ws.toList = t.watchers l := by
  obtain ⟨ws, hw⟩ := SlotMap.exists_get? (m := t.lists) (k := l)
    (by rw [h]; exact Trail.slot_lt hl)
  exact ⟨ws, by simp [WatchTable.list, hw, Fault.require], hw, by simp [watchers, hw]⟩

theorem length (h : t.Fits n) (hl : l.var.index ≤ n) :
    t.length l = .ok (t.watchers l).length := by
  obtain ⟨ws, hw, -, he⟩ := h.list hl
  simp [WatchTable.length, hw, ← he]

theorem watcher (h : t.Fits n) (hl : l.var.index ≤ n) {i : Nat} (hi : (t.watchers l)[i]? = some w) :
    t.watcher l i = .ok w := by
  obtain ⟨ws, hw, -, he⟩ := h.list hl
  rw [← he, Array.getElem?_toList] at hi
  simp [WatchTable.watcher, hw, hi, Fault.require]

theorem modify (h : t.Fits n) (hl : l.var.index ≤ n) (f : Array Watcher → Array Watcher) :
    ∃ t' ws, t.modify l f = .ok t' ∧ t'.Fits n ∧ ws.toList = t.watchers l ∧
      t'.watchers l = (f ws).toList ∧ ∀ m, m ≠ l → t'.watchers m = t.watchers m := by
  obtain ⟨ws, -, hw, he⟩ := h.list hl
  obtain ⟨lists, hm⟩ := SlotMap.modify?_eq_some (m := t.lists) (k := l)
    (by rw [h]; exact Trail.slot_lt hl) f
  refine ⟨⟨lists⟩, ws, by simp [WatchTable.modify, hm], (SlotMap.size_modify? hm).trans h, he,
    ?_, ?_⟩
  · simp [watchers, SlotMap.get?_modify? hm, hw]
  · intro m hne
    simp [watchers, SlotMap.get?_modify? hm, Ne.symm hne]

theorem insert (h : t.Fits n) (hl : l.var.index ≤ n) (w : Watcher) :
    ∃ t', t.insert l w = .ok t' ∧ t'.Fits n ∧ t'.watchers l = t.watchers l ++ [w] ∧
      ∀ m, m ≠ l → t'.watchers m = t.watchers m := by
  obtain ⟨t', ws, hm, hf, hws, hself, hother⟩ := h.modify hl (·.push w)
  refine ⟨t', hm, hf, ?_, hother⟩
  rw [hself, Array.toList_push, hws]

theorem removeAt (h : t.Fits n) (hl : l.var.index ≤ n) {pre post : List Watcher}
    (hw : t.watchers l = pre ++ w :: post) :
    ∃ t' rest, t.removeAt l pre.length = .ok t' ∧ t'.Fits n ∧ t'.watchers l = pre ++ rest ∧
      rest.Perm post ∧ ∀ m, m ≠ l → t'.watchers m = t.watchers m := by
  obtain ⟨t', ws, hm, hf, hws, hself, hother⟩ := h.modify hl (swapRemove · pre.length)
  obtain ⟨rest, hr, hp⟩ := toList_swapRemove (hws.trans hw)
  have hat := h.watcher hl (i := pre.length) (w := w) (by simp [hw])
  exact ⟨t', rest, by simp [WatchTable.removeAt, hat, hm], hf, hself.trans hr, hp, hother⟩

/-- The position of the first watcher of a clause that has one. -/
theorem find (h : t.Fits n) (hl : l.var.index ≤ n) (hw : w ∈ t.watchers l) (hc : w.clause = c) :
    ∃ pre v post, t.watchers l = pre ++ v :: post ∧ v.clause = c ∧
      t.find l c = .ok pre.length := by
  obtain ⟨ws, ho, -, he⟩ := h.list hl
  have hf : ws.findIdx? (fun v => v.clause == c) ≠ none := by
    rw [Ne, Array.findIdx?_eq_none_iff]
    intro hno
    have := hno w (by rw [← Array.mem_toList_iff, he]; exact hw)
    simp [hc] at this
  obtain ⟨i, hi⟩ := Option.ne_none_iff_exists'.mp hf
  obtain ⟨hlt, hv, -⟩ := Array.findIdx?_eq_some_iff_getElem.mp hi
  have hget : (t.watchers l)[i]? = some ws[i] := by
    rw [← he, Array.getElem?_toList, Array.getElem?_eq_getElem hlt]
  obtain ⟨pre, post, hsplit, hlen⟩ := exists_eq_append_cons hget
  refine ⟨pre, ws[i], post, hsplit, by simpa using hv, ?_⟩
  simp [WatchTable.find, ho, hi, Fault.require, hlen]

theorem remove (h : t.Fits n) (hl : l.var.index ≤ n) (hw : w ∈ t.watchers l) (hc : w.clause = c) :
    ∃ t' v, t.remove l c = .ok t' ∧ t'.Fits n ∧ v.clause = c ∧
      (v :: t'.watchers l).Perm (t.watchers l) ∧ ∀ m, m ≠ l → t'.watchers m = t.watchers m := by
  obtain ⟨pre, v, post, hs, hv, hfind⟩ := h.find hl hw hc
  obtain ⟨t', ws, hm, hf, hws, hself, hother⟩ := h.modify hl (swapRemove · pre.length)
  obtain ⟨rest, hr, hp⟩ := toList_swapRemove (hws.trans hs)
  refine ⟨t', v, by simp [WatchTable.remove, hfind, hm], hf, hv, ?_, hother⟩
  rw [hself, hr, hs]
  exact ((hp.append_left pre).cons v).trans List.perm_middle.symm

theorem mark (h : t.Fits n) (hl : l.var.index ≤ n) (hw : w ∈ t.watchers l) (hc : w.clause = c) :
    ∃ t' pre v post, t.mark l c = .ok t' ∧ t'.Fits n ∧ v.clause = c ∧
      t.watchers l = pre ++ v :: post ∧ t'.watchers l = pre ++ ⟨c, true⟩ :: post ∧
      ∀ m, m ≠ l → t'.watchers m = t.watchers m := by
  obtain ⟨pre, v, post, hs, hv, hfind⟩ := h.find hl hw hc
  obtain ⟨t', ws, hm, hf, hws, hself, hother⟩ :=
    h.modify hl (·.modify pre.length fun w => { w with core := true })
  refine ⟨t', pre, v, post, by simp [WatchTable.mark, hfind, hm], hf, hv, hs, ?_, hother⟩
  rw [hself, Array.toList_modify, hws, hs, List.modify_eq_take_cons_drop (by simp), ← hv]
  simp [List.drop_append]

end Fits

end WatchTable

end UnsatCore
