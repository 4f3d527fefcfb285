import UnsatCore.Proofs.Arena
import UnsatCore.Proofs.Lockstep
import UnsatCore.Proofs.WatchTable
import Mathlib.Data.List.Infix

/-! Tables of different sizes that hold the same data where both of them are used. What is read
there is the same in both, and an operation that is carried out on both leaves them so. -/
namespace UnsatCore

open Engine

/-- Twins: the same entries and marks, all of variables up to `n`, and reasons in `H`. The two
trails may have room for more variables. -/
structure Trail.Twin (n : Nat) (H : Handle → Prop) (t t' : Trail) : Prop where
  wf : ∃ r, n ≤ r ∧ t.Wf r
  wf' : ∃ r, n ≤ r ∧ t'.Wf r
  small : ∀ l ∈ t.falsified, l.var.index ≤ n
  reasons : ∀ e ∈ t.entries, ∀ c, e.reason = some c → H c
  entries : t'.entries = t.entries
  marked : ∀ m, t'.Marked m ↔ t.Marked m
  processed : t'.processed = t.processed
  forced : t'.forced = t.forced

namespace Trail

theorem mem_of_literalAt {t : Trail} {l : Literal} {i : Nat} (h : t.literalAt i = .ok l) :
    l ∈ t.falsified := by
  rw [literalAt, Fault.require_eq_ok] at h
  exact Array.mem_toList_iff.mpr (Array.mem_of_getElem? h)

theorem stack_setStatus {t u : Trail} {l : Literal} {st : Status}
    (h : t.setStatus l st = .ok u) : u.stack = t.stack := by
  unfold setStatus at h
  split at h <;> cases h
  rfl

theorem stack_mark {t u : Trail} {l : Literal} (h : t.mark l = .ok u) : u.stack = t.stack := by
  unfold mark at h
  split at h
  · exact stack_setStatus h
  · cases h
  · cases h

namespace Twin

variable {n k : Nat} {H : Handle → Prop} {t t' : Trail} {l : Literal} {v : Var}
  {c : Option Handle}

theorem falsified (h : Twin n H t t') : t'.falsified = t.falsified :=
  falsified_of_entries h.entries

theorem stack (h : Twin n H t t') : t'.stack = t.stack := Array.toList_inj.mp h.falsified

theorem assigned (h : Twin n H t t') : t'.assigned = t.assigned := congrArg Array.size h.stack

theorem assigned_le (h : Twin n H t t') : t.assigned ≤ n + 1 := by
  obtain ⟨r, -, hw⟩ := h.wf
  exact Nat.le_succ_of_le (hw.assigned_le h.small)

theorem mono {H' : Handle → Prop} (h : Twin n H t t') (hH : ∀ c, H c → H' c) :
    Twin n H' t t' :=
  { h with reasons := fun e he c hc => hH c (h.reasons e he c hc) }

/-- Other bounds for what is propagated and what is fixed. -/
theorem bounds (h : Twin n H t t') (processed forced : Nat) :
    Twin n H { t with processed, forced } { t' with processed, forced } := by
  obtain ⟨r, hr, hw⟩ := h.wf
  obtain ⟨r', hr', hw'⟩ := h.wf'
  exact ⟨⟨r, hr, hw.statusSize, hw.reasonSize, hw.unset_iff, hw.proper, hw.small, hw.nodup,
      hw.reason_none⟩, ⟨r', hr', hw'.statusSize, hw'.reasonSize, hw'.unset_iff, hw'.proper,
      hw'.small, hw'.nodup, hw'.reason_none⟩,
    h.small, h.reasons, h.entries, h.marked, rfl, rfl⟩

section Reading

theorem literalAt (h : Twin n H t t') (i : Nat) : t'.literalAt i = t.literalAt i := by
  rw [Trail.literalAt, Trail.literalAt, h.stack]

theorem isFalse (h : Twin n H t t') (hl : l.var.index ≤ n) : t'.isFalse l = t.isFalse l := by
  obtain ⟨r, hr, hw⟩ := h.wf
  obtain ⟨r', hr', hw'⟩ := h.wf'
  rw [hw.isFalse (by omega), hw'.isFalse (by omega), h.falsified]

theorem isTrue (h : Twin n H t t') (hl : l.var.index ≤ n) : t'.isTrue l = t.isTrue l := by
  rw [Trail.isTrue, Trail.isTrue]
  by_cases hm : l.val = Int32.minValue
  · rw [Literal.opposite?_eq_none hm]
  · rw [Literal.opposite?_eq_some hm]
    exact h.isFalse (by simpa using hl)

theorem isMarked (h : Twin n H t t') (hl : l.var.index ≤ n) : t'.isMarked l = t.isMarked l := by
  classical
  obtain ⟨r, hr, hw⟩ := h.wf
  obtain ⟨r', hr', hw'⟩ := h.wf'
  rw [hw.isMarked (by omega), hw'.isMarked (by omega), decide_eq_decide.mpr (h.marked l)]

theorem reasonAt (h : Twin n H t t') (hv : v.index ≤ n) : t'.reasonAt v = t.reasonAt v := by
  obtain ⟨r, hr, hw⟩ := h.wf
  obtain ⟨r', hr', hw'⟩ := h.wf'
  refine Option.ext fun d => ⟨fun hd => ?_, fun hd => ?_⟩
  · obtain ⟨l, rfl, he⟩ := hw'.mem_of_reasonAt hd
    rw [h.entries] at he
    exact mem_entries_reason (e := ⟨l, some d⟩) he
  · obtain ⟨l, rfl, he⟩ := hw.mem_of_reasonAt hd
    rw [← h.entries] at he
    exact mem_entries_reason (e := ⟨l, some d⟩) he

theorem reasonOf (h : Twin n H t t') (hv : v.index ≤ n) : t'.reasonOf v = t.reasonOf v := by
  obtain ⟨r, hr, hw⟩ := h.wf
  obtain ⟨r', hr', hw'⟩ := h.wf'
  rw [hw.reasonOf (by omega), hw'.reasonOf (by omega), h.reasonAt hv]

/-- What is given as a reason is one. -/
theorem of_reasonOf (h : Twin n H t t') (hv : v.index ≤ n) {d : Handle}
    (hd : t.reasonOf v = .ok (some d)) : H d := by
  obtain ⟨r, hr, hw⟩ := h.wf
  rw [hw.reasonOf (by omega), Except.ok.injEq] at hd
  obtain ⟨l, -, he⟩ := hw.mem_of_reasonAt hd
  exact h.reasons _ he d rfl

end Reading

section Writing

theorem setStatus (h : Twin n H t t') (hl : l ∈ t.falsified) {st : Status} (hst : st ≠ .unset) :
    Both (t.setStatus l st) (t'.setStatus l st) (Twin n H) := by
  obtain ⟨r, hr, hw⟩ := h.wf
  obtain ⟨r', hr', hw'⟩ := h.wf'
  obtain ⟨u, hu, hwu, heu, hpu, hfu, hmu⟩ := hw.setStatus hl st hst
  obtain ⟨u', hu', hwu', heu', hpu', hfu', hmu'⟩ := hw'.setStatus (h.falsified ▸ hl) st hst
  rw [hu, hu', both_ok]
  refine ⟨⟨r, hr, hwu⟩, ⟨r', hr', hwu'⟩, ?_, heu ▸ h.reasons, by rw [heu, heu', h.entries], ?_,
    by rw [hpu, hpu', h.processed], by rw [hfu, hfu', h.forced]⟩
  · exact falsified_of_entries heu ▸ h.small
  · intro m
    rw [hmu, hmu', h.marked]

theorem mark (h : Twin n H t t') (hl : l.var.index ≤ n) :
    Both (t.mark l) (t'.mark l) (Twin n H) := by
  rw [Trail.mark, Trail.mark, h.isFalse hl]
  obtain ⟨r, hr, hw⟩ := h.wf
  rw [hw.isFalse (by omega)]
  by_cases hm : l ∈ t.falsified
  · rw [decide_eq_true hm]
    exact h.setStatus hm (by simp)
  · rw [decide_eq_false hm]
    rfl

theorem assign (h : Twin n H t t') (hl : l.var.index ≤ n) (hz : l.val ≠ 0)
    (hc : ∀ d, c = some d → H d) : Both (t.assign l c) (t'.assign l c) (Twin n H) := by
  obtain ⟨r, hr, hw⟩ := h.wf
  obtain ⟨r', hr', hw'⟩ := h.wf'
  have hassigned : t'.isAssigned l = t.isAssigned l := by
    rw [isAssigned, isAssigned, h.isFalse hl, h.isTrue hl]
  by_cases hfree : t.isAssigned l = .ok false
  · -- Only then does anything change.
    obtain ⟨hp, hf, hn⟩ := hw.free_of_isAssigned (by omega) hz hfree
    obtain ⟨u, hu, hwu, heu, hpu, hfu, hmu⟩ := hw.assign hp (by omega) hf hn c
    obtain ⟨u', hu', hwu', heu', hpu', hfu', hmu'⟩ := hw'.assign hp (by omega)
      (h.falsified ▸ hf) (h.falsified ▸ hn) c
    rw [hu, hu', both_ok]
    refine ⟨⟨r, hr, hwu⟩, ⟨r', hr', hwu'⟩, ?_, ?_, by rw [heu, heu', h.entries], ?_,
      by rw [hpu, hpu', h.processed], by rw [hfu, hfu', h.forced]⟩
    · rw [falsified_of_append heu, List.forall_mem_append, List.forall_mem_map,
        List.forall_mem_singleton]
      exact ⟨h.small, by simpa using hl⟩
    · rw [heu, List.forall_mem_append, List.forall_mem_singleton]
      exact ⟨h.reasons, hc⟩
    · intro m
      rw [hmu, hmu', h.marked]
  · rw [Trail.assign, Trail.assign, hassigned]
    cases hr : t.isAssigned l with
    | error e => rfl
    | ok b =>
      cases b with
      | true => rfl
      | false => exact (hfree hr).elim

theorem pop (h : Twin n H t t') : Both t.pop t'.pop (Twin n H) := by
  obtain ⟨r, hr, hw⟩ := h.wf
  obtain ⟨r', hr', hw'⟩ := h.wf'
  rcases List.eq_nil_or_concat t.entries with hnil | ⟨es, e, he⟩
  · have hstack : t.stack = #[] := by
      rw [← Array.toList_eq_nil_iff]
      show t.falsified = []
      rw [← map_literal_entries, hnil, List.map_nil]
    simpa only [Trail.pop, h.stack, hstack, Array.back?_empty, both_ok] using h
  · rw [List.concat_eq_append] at he
    obtain ⟨u, hu, hwu, heu, hpu, hfu, hmu⟩ := hw.pop he
    obtain ⟨u', hu', hwu', heu', hpu', hfu', hmu'⟩ := hw'.pop (h.entries.trans he)
    have hsub : ∀ e ∈ u.entries, e ∈ t.entries := by
      intro e hm
      rw [he, ← heu]
      exact List.mem_append_left _ hm
    rw [hu, hu', both_ok]
    refine ⟨⟨r, hr, hwu⟩, ⟨r', hr', hwu'⟩, ?_, fun e hm => h.reasons e (hsub e hm),
      by rw [heu, heu'], ?_, by rw [hpu, hpu', h.processed], by rw [hfu, hfu', h.forced]⟩
    · rw [← map_literal_entries]
      intro l hl
      obtain ⟨e, hm, rfl⟩ := List.mem_map.mp hl
      exact h.small _ (literal_mem_falsified (hsub e hm))
    · intro m
      rw [hmu, hmu', h.marked]

theorem popMany (h : Twin n H t t') (k : Nat) :
    Both (popMany k t) (popMany k t') (Twin n H) := by
  induction k generalizing t t' with
  | zero => exact h
  | succ k ih =>
    rw [Trail.popMany, Trail.popMany]
    rcases h.pop.cases with ⟨u, u', hu, hu', htwin⟩ | ⟨e, hu, hu'⟩
    · rw [hu, hu']
      exact ih htwin
    · rw [hu, hu']
      rfl

theorem truncate (h : Twin n H t t') (k : Nat) :
    Both (t.truncate k) (t'.truncate k) (Twin n H) := by
  rw [Trail.truncate, Trail.truncate, h.assigned]
  exact h.popMany _

theorem popWhileTrue (h : Twin n H t t') (hl : l.var.index ≤ n) (k : Nat) :
    Both (popWhileTrue l k t) (popWhileTrue l k t') (Twin n H) := by
  induction k generalizing t t' with
  | zero => exact h
  | succ k ih =>
    rw [Trail.popWhileTrue, Trail.popWhileTrue, h.isTrue hl]
    cases t.isTrue l with
    | error e => rfl
    | ok b =>
      cases b with
      | false => exact h
      | true =>
        rcases h.pop.cases with ⟨u, u', hu, hu', htwin⟩ | ⟨e, hu, hu'⟩
        · rw [hu, hu']
          exact ih htwin
        · rw [hu, hu']
          rfl

theorem settle (h : Twin n H t t') : Twin n H t.settle t'.settle := by
  have hb := h.bounds t.stack.size t.stack.size
  rw [Trail.settle, Trail.settle, congrArg Array.size h.stack]
  exact hb

theorem unassign (h : Twin n H t t') (hl : l.var.index ≤ n) :
    Both (t.unassign l) (t'.unassign l) (Twin n H) := by
  rw [Trail.unassign, Trail.unassign, h.isTrue hl, h.assigned]
  cases t.isTrue l with
  | error e => rfl
  | ok b =>
    rcases (h.popWhileTrue hl t.assigned).cases with ⟨u, u', hu, hu', htwin⟩ | ⟨e, hu, hu'⟩
    · rw [hu, hu']
      exact settle htwin
    · rw [hu, hu']
      rfl

end Writing

end Twin

end Trail

theorem mem_of_mem_swapRemove {α : Type} {xs : Array α} {i : Nat} {x : α}
    (h : x ∈ (swapRemove xs i).toList) : x ∈ xs.toList := by
  rw [swapRemove, Array.toList_pop] at h
  have hm := List.mem_of_mem_dropLast h
  rw [Array.mem_toList_iff] at hm ⊢
  rw [Array.swapIfInBounds] at hm
  split at hm
  · split at hm
    · exact (Array.swap_perm _ _).mem_iff.mp hm
    · exact hm
  · exact hm

/-- Twins: the same watchers for the literals of variables up to `n`, all of clauses in `H`. -/
structure WatchTable.Twin (n : Nat) (H : Handle → Prop) (t t' : WatchTable) : Prop where
  fits : ∃ r, n ≤ r ∧ t.Fits r
  fits' : ∃ r, n ≤ r ∧ t'.Fits r
  clauses : ∀ (l : Literal) (w : Watcher), w ∈ t.watchers l → H w.clause
  watchers : ∀ l : Literal, l.var.index ≤ n → t'.watchers l = t.watchers l

namespace WatchTable.Twin

variable {n i : Nat} {H : Handle → Prop} {t t' : WatchTable} {l : Literal} {c : Handle}
  {w : Watcher}

theorem mono {H' : Handle → Prop} (h : Twin n H t t') (hH : ∀ c, H c → H' c) :
    Twin n H' t t' :=
  { h with clauses := fun l w hw => hH w.clause (h.clauses l w hw) }

theorem list (h : Twin n H t t') (hl : l.var.index ≤ n) :
    t'.list l = t.list l ∧ ∃ ws, t.list l = .ok ws ∧ ws.toList = t.watchers l := by
  obtain ⟨r, hr, hf⟩ := h.fits
  obtain ⟨r', hr', hf'⟩ := h.fits'
  obtain ⟨ws, hw, -, he⟩ := hf.list (l := l) (by omega)
  obtain ⟨ws', hw', -, he'⟩ := hf'.list (l := l) (by omega)
  have hsame : ws' = ws := Array.toList_inj.mp (by rw [he, he', h.watchers l hl])
  exact ⟨by rw [hw, hw', hsame], ws, hw, he⟩

theorem length (h : Twin n H t t') (hl : l.var.index ≤ n) : t'.length l = t.length l := by
  rw [WatchTable.length, WatchTable.length, (h.list hl).1]

theorem watcher (h : Twin n H t t') (hl : l.var.index ≤ n) (i : Nat) :
    t'.watcher l i = t.watcher l i := by
  rw [WatchTable.watcher, WatchTable.watcher, (h.list hl).1]

theorem of_watcher (h : Twin n H t t') (hl : l.var.index ≤ n) (hw : t.watcher l i = .ok w) :
    H w.clause := by
  obtain ⟨-, ws, hws, he⟩ := h.list hl
  rw [WatchTable.watcher, hws] at hw
  refine h.clauses l w ?_
  rw [← he]
  exact Array.mem_toList_iff.mpr (Array.mem_of_getElem? (Fault.require_eq_ok.mp hw))

theorem find (h : Twin n H t t') (hl : l.var.index ≤ n) (c : Handle) :
    t'.find l c = t.find l c := by
  rw [WatchTable.find, WatchTable.find, (h.list hl).1]

/-- A change of one list that brings in clauses in `H` only. -/
theorem modify (h : Twin n H t t') (hl : l.var.index ≤ n) {f : Array Watcher → Array Watcher}
    (hf : ∀ ws, (∀ w ∈ ws.toList, H w.clause) → ∀ w ∈ (f ws).toList, H w.clause) :
    Both (t.modify l f) (t'.modify l f) (Twin n H) := by
  obtain ⟨r, hr, hfits⟩ := h.fits
  obtain ⟨r', hr', hfits'⟩ := h.fits'
  obtain ⟨u, ws, hu, hfu, hws, hself, hother⟩ := hfits.modify (l := l) (by omega) f
  obtain ⟨u', ws', hu', hfu', hws', hself', hother'⟩ := hfits'.modify (l := l) (by omega) f
  have hsame : ws' = ws := Array.toList_inj.mp (by rw [hws, hws', h.watchers l hl])
  rw [hu, hu', both_ok]
  refine ⟨⟨r, hr, hfu⟩, ⟨r', hr', hfu'⟩, fun m w hw => ?_, fun m hm => ?_⟩
  · by_cases he : m = l
    · subst he
      rw [hself] at hw
      refine hf ws (fun v hv => h.clauses m v ?_) w hw
      rwa [← hws]
    · rw [hother m he] at hw
      exact h.clauses m w hw
  · by_cases he : m = l
    · rw [he, hself, hself', hsame]
    · rw [hother m he, hother' m he, h.watchers m hm]

theorem insert (h : Twin n H t t') (hl : l.var.index ≤ n) (hw : H w.clause) :
    Both (t.insert l w) (t'.insert l w) (Twin n H) := by
  refine h.modify hl fun ws hws v hv => ?_
  rw [Array.toList_push, List.mem_append, List.mem_singleton] at hv
  rcases hv with hv | rfl
  · exact hws v hv
  · exact hw

theorem swapRemove (h : Twin n H t t') (hl : l.var.index ≤ n) (i : Nat) :
    Both (t.modify l (swapRemove · i)) (t'.modify l (UnsatCore.swapRemove · i)) (Twin n H) :=
  h.modify hl fun _ hws v hv => hws v (mem_of_mem_swapRemove hv)

theorem removeAt (h : Twin n H t t') (hl : l.var.index ≤ n) (i : Nat) :
    Both (t.removeAt l i) (t'.removeAt l i) (Twin n H) := by
  rw [WatchTable.removeAt, WatchTable.removeAt, h.watcher hl]
  cases t.watcher l i with
  | error e => rfl
  | ok w => exact h.swapRemove hl i

theorem remove (h : Twin n H t t') (hl : l.var.index ≤ n) (c : Handle) :
    Both (t.remove l c) (t'.remove l c) (Twin n H) := by
  rw [WatchTable.remove, WatchTable.remove, h.find hl]
  cases t.find l c with
  | error e => rfl
  | ok i => exact h.swapRemove hl i

theorem mark (h : Twin n H t t') (hl : l.var.index ≤ n) (c : Handle) :
    Both (t.mark l c) (t'.mark l c) (Twin n H) := by
  rw [WatchTable.mark, WatchTable.mark, h.find hl]
  cases t.find l c with
  | error e => rfl
  | ok i =>
    refine h.modify hl fun ws hws v hv => ?_
    rw [Array.toList_modify, List.mem_iff_getElem?] at hv
    obtain ⟨j, hj⟩ := hv
    rw [List.getElem?_modify] at hj
    cases hw : ws.toList[j]? with
    | none => simp [hw] at hj
    | some w =>
      have hmem := hws w (List.mem_of_getElem? hw)
      rw [hw] at hj
      split at hj <;> cases hj <;> exact hmem

end WatchTable.Twin

namespace Arena

variable {n m i j : Nat} {size : Handle → Option Nat} {a a' b b' : Arena} {c d : Handle}

/-- A clause of `m` literals that two arenas have in common. -/
structure Common (n m : Nat) (a a' : Arena) (c : Handle) : Prop where
  has : a.Has c
  has' : a'.Has c
  literals : a'.literals c = a.literals c
  inCore : a'.inCore c = a.inCore c
  length : (a.literals c).length = m
  small : ∀ l ∈ a.literals c, l.var.index ≤ n

/-- Twins: the clauses with a size are common to both. -/
structure Twin (n : Nat) (size : Handle → Option Nat) (a a' : Arena) : Prop where
  wf : a.Wf
  wf' : a'.Wf
  common : ∀ c m, size c = some m → Common n m a a' c

namespace Common

theorem literal (h : Common n m a a' c) (hi : i ≤ m) : a'.literal c i = a.literal c i := by
  rcases Nat.lt_or_ge i m with hlt | hge
  · rw [← h.length] at hlt
    have hl := List.getElem?_eq_getElem hlt
    rw [h.has.literal hl, h.has'.literal (l := (a.literals c)[i])]
    rw [h.literals, hl]
  · obtain rfl : i = (a.literals c).length := by rw [h.length]; omega
    rw [h.has.literal_end]
    simpa only [h.literals] using h.has'.literal_end

theorem mem_of_literal (h : Common n m a a' c) (hi : i < m) {l : Literal}
    (hl : a.literal c i = .ok l) : l ∈ a.literals c := by
  rw [← h.length] at hi
  rw [h.has.literal (List.getElem?_eq_getElem hi)] at hl
  cases hl
  exact List.getElem_mem hi

theorem body (h : Common n m a a' c) (hi : i ≤ m) : a'.body c i = a.body c i := by
  rw [← h.length] at hi
  rw [h.has.body hi, h.has'.body (by rwa [h.literals]), h.literals]

theorem isWatchable (h : Common n m a a' c) : a'.isWatchable c = a.isWatchable c := by
  rw [h.has.isWatchable, h.has'.isWatchable, h.literals]

theorem isCore (h : Common n m a a' c) : a'.isCore c = a.isCore c := by
  rw [h.has.isCore, h.has'.isCore, h.inCore]

/-- What is done to another clause does not matter. -/
theorem kept (h : Common n m a a' d) (hk : a.Kept b c) (hk' : a'.Kept b' c) (hne : d ≠ c) :
    Common n m b b' d where
  has := (hk.has d).mpr h.has
  has' := (hk'.has d).mpr h.has'
  literals := by rw [hk.literals d h.has hne, hk'.literals d h.has' hne, h.literals]
  inCore := by rw [hk.inCore d h.has hne, hk'.inCore d h.has' hne, h.inCore]
  length := by rw [hk.literals d h.has hne, h.length]
  small := by
    rw [hk.literals d h.has hne]
    exact h.small

end Common

theorem Twin.swap (h : Twin n size a a') (hc : size c = some m) (hi : i < m) (hj : j < m) :
    Both (a.swap c i j) (a'.swap c i j) (Twin n size) := by
  have hcom := h.common c m hc
  have hlen := hcom.length
  obtain ⟨b, hb, hk, hlit, hcore, -⟩ := hcom.has.swap (i := i) (j := j) (by omega) (by omega)
  obtain ⟨b', hb', hk', hlit', hcore', -⟩ := hcom.has'.swap (i := i) (j := j)
    (by rw [hcom.literals]; omega) (by rw [hcom.literals]; omega)
  have hperm := (a.literals c).perm_exchange i j
  rw [hb, hb', both_ok]
  refine ⟨hk.wf, hk'.wf, fun d m' hd => ?_⟩
  by_cases he : d = c
  · subst he
    obtain rfl : m' = m := by rw [hc] at hd; exact (Option.some.inj hd).symm
    refine ⟨(hk.has d).mpr hcom.has, (hk'.has d).mpr hcom.has', ?_, ?_, ?_, ?_⟩
    · rw [hlit, hlit', hcom.literals]
    · rw [hcore, hcore', hcom.inCore]
    · rw [hlit, hperm.length_eq, hlen]
    · rw [hlit]
      exact fun l hl => hcom.small l (hperm.mem_iff.mp hl)
  · exact (h.common d m' hd).kept hk hk' he

theorem Twin.markCore (h : Twin n size a a') (hc : size c = some m) :
    Both (a.markCore c) (a'.markCore c) fun r r' => r'.1 = r.1 ∧ Twin n size r.2 r'.2 := by
  have hcom := h.common c m hc
  obtain ⟨b, hb, hk, hlit, hcore, -⟩ := hcom.has.markCore
  obtain ⟨b', hb', hk', hlit', hcore', -⟩ := hcom.has'.markCore
  rw [hb, hb', both_ok]
  refine ⟨by rw [hcom.inCore], hk.wf, hk'.wf, fun d m' hd => ?_⟩
  by_cases he : d = c
  · subst he
    obtain rfl : m' = m := by rw [hc] at hd; exact (Option.some.inj hd).symm
    refine ⟨(hk.has d).mpr hcom.has, (hk'.has d).mpr hcom.has', ?_, by rw [hcore, hcore'], ?_, ?_⟩
    · rw [hlit, hlit', hcom.literals]
    · rw [hlit, hcom.length]
    · rw [hlit]
      exact hcom.small
  · exact (h.common d m' hd).kept hk hk' he

/-- The second arena has one more clause. -/
theorem Twin.grown {x : Clause} (h : Twin n size a a') (hg : a'.Grown b c x) :
    Twin n size a b := by
  refine ⟨h.wf, hg.wf, fun d m hd => ?_⟩
  have hcom := h.common d m hd
  exact { hcom with
    has' := (hg.has d).mpr (Or.inl hcom.has')
    literals := (hg.literals d hcom.has').trans hcom.literals
    inCore := (hg.inCore d hcom.has').trans hcom.inCore }

end Arena

end UnsatCore
