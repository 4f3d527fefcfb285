import UnsatCore.Proofs.Image
import Mathlib.Logic.Function.Basic

/-! The watch lists and the arena of a run, and those of a run on another input. What the first run
has stored is found in the second one; the second one may have clauses of its own, which are on the
lists of its own literals only. -/
namespace UnsatCore

open Engine

section Arrays

variable {α β : Type} {xs : Array α} {f : α → β}

theorem swapRemove_map (xs : Array α) (f : α → β) (i : Nat) :
    swapRemove (xs.map f) i = (swapRemove xs i).map f := by
  have hswap : (xs.map f).swapIfInBounds i (xs.size - 1) =
      (xs.swapIfInBounds i (xs.size - 1)).map f := by
    ext j hj hj'
    · simp
    · simp only [Array.getElem_swapIfInBounds, Array.size_map, Array.getElem_map]
      grind
  rw [swapRemove, swapRemove, Array.size_map, hswap, Array.map_pop]

theorem findIdx?_map_congr {p : α → Bool} {q : β → Bool} (h : ∀ x ∈ xs.toList, q (f x) = p x) :
    (xs.map f).findIdx? q = xs.findIdx? p := by
  obtain ⟨xs⟩ := xs
  simp only [List.map_toArray, List.findIdx?_toArray]
  induction xs with
  | nil => rfl
  | cons x xs ih =>
    simp only [List.mem_cons, forall_eq_or_imp] at h
    simp only [List.map_cons, List.findIdx?_cons, h.1, ih h.2]

end Arrays

/-- The literals of a clause change places under other names too. -/
theorem Clause.map_exchange (f : Literal → Literal) (x : Clause) (i j : Nat) :
    (x.exchange i j).map f = Clause.exchange (x.map f) i j := by
  unfold exchange
  rw [List.getElem?_map, List.getElem?_map]
  cases x[i]? with
  | none => rfl
  | some l =>
    cases x[j]? with
    | none => rfl
    | some m => simp only [Option.map_some, List.map_set]

namespace Image

def watcher (g : Image) (w : Watcher) : Watcher := ⟨g.handle w.clause, w.core⟩

end Image

namespace WatchTable

variable (t : WatchTable) (l : Literal) (c : Handle) (i : Nat)

theorem removeAt_eq :
    t.removeAt l i = t.watcher l i >>= fun _ => t.modify l (swapRemove · i) := by
  rw [removeAt]
  cases t.watcher l i <;> rfl

theorem remove_eq : t.remove l c = t.find l c >>= fun i => t.modify l (swapRemove · i) := by
  rw [remove]
  cases t.find l c <;> rfl

theorem mark_eq :
    t.mark l c = t.find l c >>= fun i => t.modify l (·.modify i fun w => ⟨w.clause, true⟩) := by
  rw [mark]
  cases t.find l c <;> rfl

end WatchTable

/-- The watch lists of two runs: those of the first one are found in the second one. -/
structure WatchTable.Mirror (g : Image) (t t' : WatchTable) : Prop where
  fits : t.Fits g.bound
  fits' : t'.Fits g.bound'
  known : ∀ l, g.legal l → ∀ w ∈ t.watchers l, g.AtLeast 2 w.clause
  watchers : ∀ l, g.legal l → t'.watchers (g.lit l) = (t.watchers l).map g.watcher
  aliens : ∀ l, g.own l = false → ∀ w ∈ t'.watchers l, g.alien 2 w.clause

namespace WatchTable.Mirror

variable {g : Image} {t t' : WatchTable} {l : Literal} {c : Handle} {w : Watcher}
  {f f' : Array Watcher → Array Watcher}

theorem list (h : Mirror g t t') (hl : g.legal l) :
    ∃ ws, t.list l = .ok ws ∧ t'.list (g.lit l) = .ok (ws.map g.watcher) ∧
      ∀ w ∈ ws.toList, g.AtLeast 2 w.clause := by
  obtain ⟨ws, hws, -, he⟩ := h.fits.list (g.small hl)
  obtain ⟨ws', hws', -, he'⟩ := h.fits'.list (g.lit_small hl)
  obtain rfl : ws' = ws.map g.watcher := by
    rw [← Array.toList_inj, he', h.watchers l hl, Array.toList_map, he]
  exact ⟨ws, hws, hws', he ▸ h.known l hl⟩

theorem length (h : Mirror g t t') (hl : g.legal l) : t'.length (g.lit l) = t.length l := by
  obtain ⟨ws, hws, hws', -⟩ := h.list hl
  simp only [WatchTable.length, hws, hws', Array.size_map]

theorem watcher (h : Mirror g t t') (hl : g.legal l) (i : Nat) :
    Answers g.comparison (t.watcher l i) (t'.watcher (g.lit l) i)
      fun w w' => w' = g.watcher w ∧ g.AtLeast 2 w.clause := by
  obtain ⟨ws, hws, hws', hk⟩ := h.list hl
  simp only [WatchTable.watcher, hws, hws', Array.getElem?_map]
  cases hi : ws[i]? with
  | none => exact g.answers_error .outOfBounds
  | some w => exact ⟨rfl, hk w (Array.mem_toList_iff.mpr (Array.mem_of_getElem? hi))⟩

/-- Other clauses may be known. -/
theorem amend (h : Mirror g t t') {size : Handle → Option Nat} {alien : Nat → Handle → Prop}
    {read read' : Formula} {clear : Prop}
    (hs : ∀ c, g.AtLeast 2 c → Image.AtLeast { g with size, alien, read, read', clear } 2 c)
    (ha : ∀ c, g.alien 2 c → alien 2 c) : Mirror { g with size, alien, read, read', clear } t t' :=
  { h with
    known := fun l hl w hw => hs _ (h.known l hl w hw)
    aliens := fun l hl w hw => ha _ (h.aliens l hl w hw) }

/-- The same change of the list of a literal in both runs. -/
theorem modify (h : Mirror g t t') (hl : g.legal l)
    (hf : ∀ ws : Array Watcher, (∀ w ∈ ws.toList, g.AtLeast 2 w.clause) →
      f' (ws.map g.watcher) = (f ws).map g.watcher ∧
        ∀ w ∈ (f ws).toList, g.AtLeast 2 w.clause) :
    Answers g.comparison (t.modify l f) (t'.modify (g.lit l) f') (Mirror g) := by
  obtain ⟨u, ws, hu, hfits, hws, hself, hother⟩ := h.fits.modify (g.small hl) f
  obtain ⟨u', ws', hu', hfits', hws', hself', hother'⟩ := h.fits'.modify (g.lit_small hl) f'
  obtain rfl : ws' = ws.map g.watcher := by
    rw [← Array.toList_inj, hws', h.watchers l hl, Array.toList_map, hws]
  obtain ⟨hmap, hknown⟩ := hf ws (hws ▸ h.known l hl)
  rw [hu, hu', answers_ok]
  refine ⟨hfits, hfits', fun m hm => ?_, fun m hm => ?_, fun m ho => ?_⟩
  · by_cases he : m = l
    · rw [he, hself]
      exact hknown
    · rw [hother m he]
      exact h.known m hm
  · by_cases he : m = l
    · rw [he, hself, hself', hmap, Array.toList_map]
    · rw [hother m he, hother' _ (mt (g.lit_inj hm hl) he), h.watchers m hm]
  · rw [hother' m]
    · exact h.aliens m ho
    · rintro rfl
      simp [g.own_lit hl] at ho

/-- A change of the list of a literal that the first run does not have. -/
theorem modify_foreign (h : Mirror g t t') (hl : g.Foreign l)
    (hf : ∀ ws : Array Watcher, (∀ w ∈ ws.toList, g.alien 2 w.clause) →
      ∀ w ∈ (f ws).toList, g.alien 2 w.clause) :
    Yields True (t'.modify l f) (Mirror g t) := by
  obtain ⟨u', ws', hu', hfits', hws', hself', hother'⟩ := h.fits'.modify hl.small f
  rw [hu', yields_ok]
  refine ⟨h.fits, hfits', h.known, fun m hm => ?_, fun m ho => ?_⟩
  · rw [hother', h.watchers m hm]
    rintro rfl
    simpa [g.own_lit hm] using hl.own
  · by_cases he : m = l
    · rw [he, hself']
      exact hf ws' (hws' ▸ h.aliens l hl.own)
    · rw [hother' m he]
      exact h.aliens m ho

theorem insert (h : Mirror g t t') (hl : g.legal l) (hw : g.AtLeast 2 w.clause) :
    Answers g.comparison (t.insert l w) (t'.insert (g.lit l) (g.watcher w)) (Mirror g) := by
  refine h.modify hl fun ws hws => ⟨Array.map_push.symm, fun v hv => ?_⟩
  rw [Array.toList_push, List.mem_append, List.mem_singleton] at hv
  rcases hv with hv | rfl
  · exact hws v hv
  · exact hw

theorem insert_foreign (h : Mirror g t t') (hl : g.Foreign l) (hw : g.alien 2 w.clause) :
    Yields True (t'.insert l w) (Mirror g t) := by
  refine h.modify_foreign hl fun ws hws v hv => ?_
  rw [Array.toList_push, List.mem_append, List.mem_singleton] at hv
  rcases hv with hv | rfl
  · exact hws v hv
  · exact hw

theorem swapRemove (h : Mirror g t t') (hl : g.legal l) (i : Nat) :
    Answers g.comparison (t.modify l (swapRemove · i))
      (t'.modify (g.lit l) (UnsatCore.swapRemove · i)) (Mirror g) :=
  h.modify hl fun ws hws =>
    ⟨swapRemove_map ws g.watcher i, fun v hv => hws v (mem_of_mem_swapRemove hv)⟩

theorem removeAt (h : Mirror g t t') (hl : g.legal l) (i : Nat) :
    Answers g.comparison (t.removeAt l i) (t'.removeAt (g.lit l) i) (Mirror g) := by
  rw [removeAt_eq, removeAt_eq]
  exact (h.watcher hl i).bind fun _ _ _ => h.swapRemove hl i

/-- The watcher of a clause is at the same place in both runs. -/
theorem find (h : Mirror g t t') (hl : g.legal l)
    (hc : ∀ d, g.AtLeast 2 d → g.handle d = g.handle c → d = c) :
    Answers g.comparison (t.find l c) (t'.find (g.lit l) (g.handle c)) fun i i' => i' = i := by
  obtain ⟨ws, hws, hws', hk⟩ := h.list hl
  have hsame : (ws.map g.watcher).findIdx? (fun w => w.clause == g.handle c) =
      ws.findIdx? (fun w => w.clause == c) := by
    refine findIdx?_map_congr fun w hw => ?_
    rw [Bool.eq_iff_iff, beq_iff_eq, beq_iff_eq]
    exact ⟨hc _ (hk w hw), congrArg g.handle⟩
  simp only [WatchTable.find, hws, hws', hsame]
  cases ws.findIdx? (fun w => w.clause == c) with
  | none => exact g.answers_error (.noWatcher c l)
  | some i => rfl

theorem remove (h : Mirror g t t') (hl : g.legal l)
    (hc : ∀ d, g.AtLeast 2 d → g.handle d = g.handle c → d = c) :
    Answers g.comparison (t.remove l c) (t'.remove (g.lit l) (g.handle c)) (Mirror g) := by
  rw [remove_eq, remove_eq]
  refine (h.find hl hc).bind ?_
  rintro i _ rfl
  exact h.swapRemove hl _

theorem mark (h : Mirror g t t') (hl : g.legal l)
    (hc : ∀ d, g.AtLeast 2 d → g.handle d = g.handle c → d = c) :
    Answers g.comparison (t.mark l c) (t'.mark (g.lit l) (g.handle c)) (Mirror g) := by
  rw [mark_eq, mark_eq]
  refine (h.find hl hc).bind ?_
  rintro k _ rfl
  refine h.modify hl fun ws hws => ⟨?_, fun v hv => ?_⟩
  · ext j hj hj'
    · simp
    · simp only [Array.getElem_modify, Array.getElem_map]
      split <;> rfl
  · rw [Array.toList_modify, List.mem_iff_getElem?] at hv
    obtain ⟨j, hj⟩ := hv
    rw [List.getElem?_modify] at hj
    cases hw : ws.toList[j]? with
    | none => simp [hw] at hj
    | some w =>
      have hmem := hws w (List.mem_of_getElem? hw)
      rw [hw] at hj
      split at hj <;> cases hj <;> exact hmem

theorem watcher_foreign (h : Mirror g t t') (hl : g.Foreign l) (i : Nat) :
    Yields True (t'.watcher l i) fun w => g.alien 2 w.clause := by
  obtain ⟨ws, hws, -, he⟩ := h.fits'.list hl.small
  rw [WatchTable.watcher, hws]
  cases hi : ws[i]? with
  | none => simp [hi, Fault.require]
  | some w =>
    simp only [hi, Fault.require, yields_ok]
    refine h.aliens l hl.own w ?_
    rw [← he]
    exact Array.mem_toList_iff.mpr (Array.mem_of_getElem? hi)

theorem removeAt_foreign (h : Mirror g t t') (hl : g.Foreign l) (i : Nat) :
    Yields True (t'.removeAt l i) (Mirror g t) := by
  rw [WatchTable.removeAt]
  cases t'.watcher l i with
  | error e => trivial
  | ok w => exact h.modify_foreign hl fun ws hws v hv => hws v (mem_of_mem_swapRemove hv)

end WatchTable.Mirror

theorem WatchTable.mirror_blank (g : Image) :
    Mirror g (blank (2 * g.bound + 3)) (blank (2 * g.bound' + 3)) where
  fits := fits_blank _
  fits' := fits_blank _
  known l _ := by simp [watchers_blank]
  watchers l _ := by simp [watchers_blank]
  aliens l _ := by simp [watchers_blank]

namespace Arena

variable {g : Image} {n m i j : Nat} {a a' b b' : Arena} {c c' d : Handle} {x x' : Clause}

/-- A clause of the first run that is found in the second one. -/
structure Reflected (g : Image) (n : Nat) (a a' : Arena) (c : Handle) : Prop where
  has : a.Has c
  has' : a'.Has (g.handle c)
  literals : a'.literals (g.handle c) = (a.literals c).map g.lit
  inCore : a'.inCore (g.handle c) = a.inCore c
  length : (a.literals c).length = n
  legal : ∀ l ∈ a.literals c, g.legal l

/-- A clause that only the second run has. It is not in the core, and it has a literal that cannot
be false. -/
structure Apart (g : Image) (n : Nat) (a : Arena) (c : Handle) : Prop where
  has : a.Has c
  length : n ≤ (a.literals c).length
  inCore : a.inCore c = false
  foreign : ∀ l ∈ a.literals c, g.Foreign l
  standing : ∃ l ∈ a.literals c, ¬ g.down l

/-- The arenas of two runs: the clauses of the first one are found in the second one. -/
structure Mirror (g : Image) (a a' : Arena) : Prop where
  wf : a.Wf
  wf' : a'.Wf
  common : ∀ c m, g.size c = some m → Reflected g m a a' c
  inj : ∀ c d, g.AtLeast 0 c → g.AtLeast 0 d → g.handle c = g.handle d → c = d
  apart : ∀ n c, g.alien n c → Apart g n a' c
  nextId : g.exact = true → a'.nextId = a.nextId

namespace Reflected

theorem literal (h : Reflected g n a a' c) (hi : i < n) :
    ∃ l ∈ a.literals c, a.literal c i = .ok l ∧ a'.literal (g.handle c) i = .ok (g.lit l) := by
  rw [← h.length] at hi
  have hl := List.getElem?_eq_getElem hi
  refine ⟨(a.literals c)[i], List.getElem_mem hi, h.has.literal hl, h.has'.literal ?_⟩
  rw [h.literals, List.getElem?_map, hl]
  rfl

theorem literal_end (h : Reflected g n a a' c) :
    a.literal c n = .ok ⟨0⟩ ∧ a'.literal (g.handle c) n = .ok ⟨0⟩ := by
  have hend := h.has.literal_end
  have hend' := h.has'.literal_end
  rw [h.literals, List.length_map, h.length] at hend'
  rw [h.length] at hend
  exact ⟨hend, hend'⟩

theorem body (h : Reflected g n a a' c) (hi : i ≤ n) :
    a.body c i = .ok ((a.literals c).drop i) ∧
      a'.body (g.handle c) i = .ok (((a.literals c).drop i).map g.lit) := by
  rw [← h.length] at hi
  refine ⟨h.has.body hi, ?_⟩
  rw [h.has'.body (by rwa [h.literals, List.length_map]), h.literals, List.map_drop]

theorem isWatchable (h : Reflected g n a a' c) :
    a.isWatchable c = .ok (decide (2 ≤ n)) ∧
      a'.isWatchable (g.handle c) = .ok (decide (2 ≤ n)) := by
  rw [h.has.isWatchable, h.has'.isWatchable, h.literals, List.length_map, h.length]
  exact ⟨rfl, rfl⟩

theorem isCore (h : Reflected g n a a' c) :
    a.isCore c = .ok (a.inCore c) ∧ a'.isCore (g.handle c) = .ok (a.inCore c) := by
  rw [h.has.isCore, h.has'.isCore, h.inCore]
  exact ⟨rfl, rfl⟩

theorem congr (h : Reflected g n a a' c) (hb : b.Has c) (hb' : b'.Has (g.handle c))
    (hl : b.literals c = a.literals c) (hl' : b'.literals (g.handle c) = a'.literals (g.handle c))
    (hi : b.inCore c = a.inCore c) (hi' : b'.inCore (g.handle c) = a'.inCore (g.handle c)) :
    Reflected g n b b' c where
  has := hb
  has' := hb'
  literals := by rw [hl, hl', h.literals]
  inCore := by rw [hi, hi', h.inCore]
  length := by rw [hl, h.length]
  legal := hl ▸ h.legal

/-- What is done to another clause does not matter. -/
theorem kept (h : Reflected g n a a' d) (hk : a.Kept b c) (hk' : a'.Kept b' (g.handle c))
    (hne : d ≠ c) (hne' : g.handle d ≠ g.handle c) : Reflected g n b b' d :=
  h.congr ((hk.has d).mpr h.has) ((hk'.has _).mpr h.has') (hk.literals d h.has hne)
    (hk'.literals _ h.has' hne') (hk.inCore d h.has hne) (hk'.inCore _ h.has' hne')

/-- Clauses that are stored later do not matter. -/
theorem grown (h : Reflected g n a a' d) (hg : a.Grown b c x) (hg' : a'.Grown b' c' x') :
    Reflected g n b b' d :=
  h.congr ((hg.has d).mpr (Or.inl h.has)) ((hg'.has _).mpr (Or.inl h.has'))
    (hg.literals d h.has) (hg'.literals _ h.has') (hg.inCore d h.has) (hg'.inCore _ h.has')

end Reflected

namespace Apart

theorem congr (h : Apart g n a c) (hb : b.Has c) (hl : (b.literals c).Perm (a.literals c))
    (hi : b.inCore c = a.inCore c) : Apart g n b c where
  has := hb
  length := hl.length_eq ▸ h.length
  inCore := by rw [hi, h.inCore]
  foreign l hm := h.foreign l (hl.mem_iff.mp hm)
  standing := by
    obtain ⟨l, hm, hd⟩ := h.standing
    exact ⟨l, hl.mem_iff.mpr hm, hd⟩

theorem kept (h : Apart g n a d) (hk : a.Kept b c) (hne : d ≠ c) : Apart g n b d :=
  h.congr ((hk.has d).mpr h.has) (.of_eq (hk.literals d h.has hne)) (hk.inCore d h.has hne)

theorem grown (h : Apart g n a d) (hg : a.Grown b c x) : Apart g n b d :=
  h.congr ((hg.has d).mpr (Or.inl h.has)) (.of_eq (hg.literals d h.has)) (hg.inCore d h.has)

/-- Whether a clause is apart does not depend on which other clauses there are. -/
theorem amend (h : Apart g n a c) {size : Handle → Option Nat} {alien : Nat → Handle → Prop}
    {read read' : Formula} {clear : Prop} :
    Apart { g with size, alien, read, read', clear } n a c :=
  { h with foreign := fun l hl => { h.foreign l hl with } }

end Apart

namespace Mirror

/-- Other clauses may have been read, and more of the trail may be fixed. -/
theorem amend (h : Mirror g a a') (read read' : Formula) (clear : Prop) :
    Mirror { g with read, read', clear } a a' := by
  exact { h with
    common := fun c m hc => { h.common c m hc with }
    apart := fun n c hc => (h.apart n c hc).amend }

/-- No clause is found in the first run and missing there. -/
theorem ne_of_alien (h : Mirror g a a') (hc : g.size c = some m) (hd : g.alien n d) :
    g.handle c ≠ d := by
  rintro rfl
  obtain ⟨l, hl, -⟩ := (h.apart _ _ hd).standing
  have hf := ((h.apart _ _ hd).foreign l hl).own
  rw [(h.common c m hc).literals] at hl
  obtain ⟨x, hx, rfl⟩ := List.mem_map.mp hl
  rw [g.own_lit ((h.common c m hc).legal x hx)] at hf
  cases hf

/-- A change of one clause in both runs. -/
theorem replace (h : Mirror g a a') (hc : g.size c = some m) (hk : a.Kept b c)
    (hk' : a'.Kept b' (g.handle c)) (hr : Reflected g m b b' c)
    (hn : b.nextId = a.nextId) (hn' : b'.nextId = a'.nextId) : Mirror g b b' := by
  refine ⟨hk.wf, hk'.wf, fun d k hd => ?_, h.inj, fun k d hd => ?_, fun hx => ?_⟩
  · by_cases he : d = c
    · subst he
      obtain rfl : k = m := by rw [hc] at hd; exact (Option.some.inj hd).symm
      exact hr
    · exact (h.common d k hd).kept hk hk' he
        (mt (h.inj d c ⟨k, hd, Nat.zero_le k⟩ ⟨m, hc, Nat.zero_le m⟩) he)
  · exact (h.apart k d hd).kept hk' (h.ne_of_alien hc hd).symm
  · rw [hn, hn', h.nextId hx]

theorem swap (h : Mirror g a a') (hc : g.size c = some m) (hi : i < m) (hj : j < m) :
    Answers g.comparison (a.swap c i j) (a'.swap (g.handle c) i j) (Mirror g) := by
  have hcom := h.common c m hc
  have hlen := hcom.length
  obtain ⟨b, hb, hk, hlit, hcore, hn⟩ := hcom.has.swap (i := i) (j := j) (by omega) (by omega)
  obtain ⟨b', hb', hk', hlit', hcore', hn'⟩ := hcom.has'.swap (i := i) (j := j)
    (by rw [hcom.literals, List.length_map]; omega) (by rw [hcom.literals, List.length_map]; omega)
  have hperm := (a.literals c).perm_exchange i j
  rw [hb, hb', answers_ok]
  refine h.replace hc hk hk' ⟨(hk.has c).mpr hcom.has, (hk'.has _).mpr hcom.has', ?_, ?_, ?_, ?_⟩
    hn hn'
  · rw [hlit, hlit', hcom.literals, Clause.map_exchange]
  · rw [hcore, hcore', hcom.inCore]
  · rw [hlit, hperm.length_eq, hlen]
  · rw [hlit]
    exact fun l hl => hcom.legal l (hperm.mem_iff.mp hl)

theorem markCore (h : Mirror g a a') (hc : g.size c = some m) :
    Answers g.comparison (a.markCore c) (a'.markCore (g.handle c))
      fun r r' => r'.1 = r.1 ∧ Mirror g r.2 r'.2 := by
  have hcom := h.common c m hc
  obtain ⟨b, hb, hk, hlit, hcore, hn⟩ := hcom.has.markCore
  obtain ⟨b', hb', hk', hlit', hcore', hn'⟩ := hcom.has'.markCore
  rw [hb, hb', answers_ok]
  refine ⟨by rw [hcom.inCore], h.replace hc hk hk' ⟨(hk.has c).mpr hcom.has,
    (hk'.has _).mpr hcom.has', ?_, by rw [hcore, hcore'], ?_, ?_⟩ hn hn'⟩
  · rw [hlit, hlit', hcom.literals]
  · rw [hlit, hcom.length]
  · rw [hlit]
    exact hcom.legal

/-- The second run changes a clause that the first one does not have. -/
theorem swap_foreign (h : Mirror g a a') (hc : g.alien n c) (hi : i < (a'.literals c).length)
    (hj : j < (a'.literals c).length) :
    ∃ b', a'.swap c i j = .ok b' ∧ (b'.literals c).Perm (a'.literals c) ∧
      b'.literals c = (a'.literals c).exchange i j ∧ Mirror g a b' := by
  have hapart := h.apart n c hc
  obtain ⟨b', hb', hk', hlit', hcore', hn'⟩ := hapart.has.swap hi hj
  have hperm : (b'.literals c).Perm (a'.literals c) := hlit' ▸ (a'.literals c).perm_exchange i j
  refine ⟨b', hb', hperm, hlit', h.wf, hk'.wf, fun d k hd => ?_, h.inj, fun k d hd => ?_,
    fun hx => by rw [hn', h.nextId hx]⟩
  · have hcom := h.common d k hd
    have hne := h.ne_of_alien hd hc
    exact hcom.congr hcom.has ((hk'.has _).mpr hcom.has') rfl (hk'.literals _ hcom.has' hne) rfl
      (hk'.inCore _ hcom.has' hne)
  · by_cases he : d = c
    · subst he
      exact (h.apart k d hd).congr ((hk'.has d).mpr hapart.has) hperm hcore'
    · exact (h.apart k d hd).kept hk' he

end Mirror

theorem mirror_empty (hs : g.size = fun _ => none) (ha : ∀ n c, ¬ g.alien n c) :
    Mirror g .empty .empty where
  wf := wf_empty
  wf' := wf_empty
  common c m hc := by simp [hs] at hc
  inj c d := by
    rintro ⟨m, hm, -⟩
    simp [hs] at hm
  apart n c hc := (ha n c hc).elim
  nextId _ := rfl

/-- A clause is put at the end of the buffer, unless no number is left for it. -/
theorem Wf.add_cases (h : a.Wf) (hx : x.hasZero = false) :
    a.nextId = Int32.maxValue ∧ a.add x = .error .overflow ∨
      a.nextId ≠ Int32.maxValue ∧ ∃ b, a.add x = .ok (⟨a.words.size⟩, b) ∧
        a.Grown b ⟨a.words.size⟩ x ∧ b.words.size = a.words.size + (x.length + 2) ∧
        b.nextId = a.nextId + 1 := by
  by_cases hn : a.nextId = Int32.maxValue
  · exact Or.inl ⟨hn, by simp [Arena.add, hx, hn]⟩
  · refine Or.inr ⟨hn, ?_⟩
    have hadd : a.add x = .ok (⟨a.words.size⟩, ⟨((a.words.push (a.nextId + a.nextId)) ++
        x.map Literal.val).push 0, a.nextId + 1⟩) := by simp [Arena.add, hx, hn]
    rcases h.add hx with ⟨-, he⟩ | ⟨c, b, hb, hg⟩
    · rw [hadd] at he
      cases he
    · rw [hadd] at hb
      cases hb
      refine ⟨_, hadd, hg, ?_, rfl⟩
      simp only [← Array.length_toList, Array.toList_push, Array.toList_appendList,
        List.length_append, List.length_map, List.length_singleton]
      omega

end Arena

namespace Image

variable {g : Image} {n m : Nat} {c h : Handle}

/-- One more clause that the first run has. -/
def stored (g : Image) (h : Handle) (n : Nat) : Image :=
  { g with size := Function.update g.size h (some n) }

/-- One more clause that only the second run has. -/
def admitted (g : Image) (h : Handle) (m : Nat) : Image :=
  { g with alien := fun n c => g.alien n c ∨ c = h ∧ n ≤ m }

theorem stored_size (g : Image) (h : Handle) (n : Nat) : (g.stored h n).size h = some n :=
  Function.update_self ..

theorem AtLeast.stored (hc : g.AtLeast n c) (hne : c ≠ h) : (g.stored h m).AtLeast n c := by
  obtain ⟨k, hk, hn⟩ := hc
  exact ⟨k, by simp [Image.stored, Function.update_of_ne hne, hk], hn⟩

theorem size_of_stored (hc : (g.stored h m).size c = some n) (hne : c ≠ h) :
    g.size c = some n := by
  simpa only [Image.stored, Function.update_of_ne hne] using hc

end Image

namespace Arena.Mirror

variable {g : Image} {a a' b b' : Arena} {c c' : Handle} {x : Clause}

theorem atLeast_stored (h : Mirror g a a') (hf : ¬ a.Has c) {n m : Nat} {d : Handle}
    (hd : g.AtLeast n d) : (g.stored c m).AtLeast n d := by
  obtain ⟨k, hk, hn⟩ := hd
  refine Image.AtLeast.stored ⟨k, hk, hn⟩ ?_
  rintro rfl
  exact hf (h.common _ k hk).has

/-- A clause is stored in both runs. -/
theorem grown (h : Mirror g a a') (hg : a.Grown b c x)
    (hg' : a'.Grown b' (g.handle c) (x.map g.lit)) (hx : ∀ l ∈ x, g.legal l)
    (hn : g.exact = true → b'.nextId = b.nextId) : Mirror (g.stored c x.length) b b' := by
  have hold : ∀ d, (g.stored c x.length).AtLeast 0 d → d ≠ c →
      b'.Has (g.handle d) ∧ g.handle d ≠ g.handle c ∧ g.AtLeast 0 d := by
    rintro d ⟨m, hd, hm⟩ hne
    have hsize := Image.size_of_stored hd hne
    have hhas := (h.common d m hsize).has'
    refine ⟨(hg'.has _).mpr (Or.inl hhas), fun he => hg'.fresh (he ▸ hhas), m, hsize, hm⟩
  refine ⟨hg.wf, hg'.wf, fun d m hd => ?_, fun d e hd he heq => ?_, fun k d hd => ?_, hn⟩
  · by_cases he : d = c
    · subst he
      rw [Image.stored_size, Option.some.injEq] at hd
      refine ⟨(hg.has d).mpr (Or.inr rfl), (hg'.has _).mpr (Or.inr rfl), ?_, ?_, ?_, ?_⟩
      · rw [hg.literals_new]
        exact hg'.literals_new
      · rw [hg.inCore_new]
        exact hg'.inCore_new
      · rw [hg.literals_new, hd]
      · rw [hg.literals_new]
        exact hx
    · exact { (h.common d m (Image.size_of_stored hd he)).grown hg hg' with }
  · by_cases hdc : d = c
    · by_cases hec : e = c
      · rw [hdc, hec]
      · subst hdc
        exact ((hold e he hec).2.1 heq.symm).elim
    · by_cases hec : e = c
      · subst hec
        exact ((hold d hd hdc).2.1 heq).elim
      · exact h.inj d e (hold d hd hdc).2.2 (hold e he hec).2.2 heq
  · exact ((h.apart k d hd).grown hg').amend

theorem add (h : Mirror g a a') (hx : ∀ l ∈ x, g.legal l)
    (hh : g.handle ⟨a.words.size⟩ = ⟨a'.words.size⟩) :
    Answers g.comparison (a.add x) (a'.add (x.map g.lit)) fun r r' =>
      r.1 = ⟨a.words.size⟩ ∧ r'.1 = g.handle r.1 ∧ ¬ a.Has r.1 ∧
      r.2.words.size = a.words.size + (x.length + 2) ∧
      r'.2.words.size = a'.words.size + (x.length + 2) ∧
      Mirror (g.stored r.1 x.length) r.2 r'.2 := by
  have hz : x.hasZero = false := Clause.hasZero_eq_false.mpr fun l hl => (g.proper (hx l hl)).1
  have hz' : Clause.hasZero (x.map g.lit) = false := by
    refine Clause.hasZero_eq_false.mpr fun l hl => ?_
    obtain ⟨m, hm, rfl⟩ := List.mem_map.mp hl
    exact (g.lit_proper (hx m hm)).1
  rcases h.wf.add_cases hz with ⟨hn, hadd⟩ | ⟨hn, b, hadd, hg, hsize, hnext⟩ <;>
    rcases h.wf'.add_cases hz' with ⟨hn', hadd'⟩ | ⟨hn', b', hadd', hg', hsize', hnext'⟩
  · rw [hadd, hadd']
    exact g.answers_error .overflow
  · rw [hadd, hadd']
    refine Bool.eq_false_iff.mpr fun hexact => hn' ?_
    rw [h.nextId hexact, hn]
  · rw [hadd, hadd']
    refine Bool.eq_false_iff.mpr fun hexact => hn ?_
    rw [← h.nextId hexact, hn']
  · rw [hadd, hadd', answers_ok]
    rw [List.length_map] at hsize'
    rw [← hh] at hg'
    refine ⟨rfl, hh.symm, hg.fresh, hsize, hsize', h.grown hg hg' hx fun hexact => ?_⟩
    rw [hnext, hnext', h.nextId hexact]

/-- The second run stores a clause that the first one does not have. -/
theorem grown_foreign (h : Mirror g a a') (hg' : a'.Grown b' c' x) (hx : ∀ l ∈ x, g.Foreign l)
    (hs : ∃ l ∈ x, ¬ g.down l) (hn : g.exact = false) : Mirror (g.admitted c' x.length) a b' := by
  refine ⟨h.wf, hg'.wf, fun d m hd => ?_, h.inj, fun k d hd => ?_, fun hexact => ?_⟩
  · have hcom := h.common d m hd
    exact { hcom.congr hcom.has ((hg'.has _).mpr (Or.inl hcom.has')) rfl
      (hg'.literals _ hcom.has') rfl (hg'.inCore _ hcom.has') with }
  · rcases hd with hd | ⟨rfl, hd⟩
    · exact ((h.apart k d hd).grown hg').amend
    · have hforeign : ∀ l ∈ x, (g.admitted d x.length).Foreign l := fun l hl =>
        { hx l hl with }
      refine ⟨(hg'.has d).mpr (Or.inr rfl), ?_, hg'.inCore_new, ?_, ?_⟩
      · rw [hg'.literals_new]
        exact hd
      · rw [hg'.literals_new]
        exact hforeign
      · rw [hg'.literals_new]
        exact hs
  · rw [show g.exact = true from hexact] at hn
    cases hn

end Arena.Mirror

end UnsatCore
