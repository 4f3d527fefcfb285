import UnsatCore.Proofs.Arena
import Mathlib.Algebra.Group.Nat.Defs
import Mathlib.Data.List.Nodup

/-! Any sequence of changes of an arena. What a handle gives back depends on the changes made
through this handle alone. The number of its clause is read off a header that may have
overflowed. -/
namespace UnsatCore

/-- A change of an arena, with what it gave back. -/
inductive Change
  | added (c : Handle) (x : Clause)
  | swapped (c : Handle) (i j : Nat)
  | replaced (c : Handle) (i : Nat) (l : Literal)
  | marked (c : Handle) (fresh : Bool)

namespace Change

/-- The handle that a change is about. -/
def handle : Change → Handle
  | added c _ | swapped c _ _ | replaced c _ _ | marked c _ => c

/-- The handles that were given out, in order. Lists of changes start with the newest one. -/
def handles : List Change → List Handle
  | [] => []
  | added c _ :: cs => handles cs ++ [c]
  | swapped _ _ _ :: cs | replaced _ _ _ :: cs | marked _ _ :: cs => handles cs

/-- The clause that was added under a handle, with the handle's own swaps and replacements. -/
def content (c : Handle) : List Change → Clause
  | [] => []
  | added d x :: cs => if d = c then x else content c cs
  | swapped d i j :: cs => if d = c then (content c cs).exchange i j else content c cs
  | replaced d i l :: cs => if d = c then (content c cs).set i l else content c cs
  | marked _ _ :: cs => content c cs

/-- Whether one of the changes marked the clause of a handle. -/
def isMarked (c : Handle) : List Change → Bool
  | [] => false
  | marked d _ :: cs => d == c || isMarked c cs
  | added _ _ :: cs | swapped _ _ _ :: cs | replaced _ _ _ :: cs => isMarked c cs

variable {c d : Handle} {ch : Change} {cs : List Change}

/-- A change through one handle is no change of the clause of another. -/
theorem content_of_ne (h : d ≠ ch.handle) : content d (ch :: cs) = content d cs := by
  cases ch with
  | marked c fresh => rfl
  | _ => exact if_neg (Ne.symm h)

theorem isMarked_of_ne (h : d ≠ ch.handle) : isMarked d (ch :: cs) = isMarked d cs := by
  cases ch with
  | marked c fresh =>
    have hne : c ≠ d := Ne.symm h
    simp [isMarked, hne]
  | _ => rfl

end Change

open Change

namespace Arena

variable {a a' : Arena} {c d : Handle} {x : Clause} {b : Bool} {k : Nat} {ch : Change}
  {cs : List Change}

/-- A change that goes through on an arena that has given out the handles `hs`. -/
def Carries (a : Arena) (hs : List Handle) : Change → Arena → Prop
  | .added c x, a' => a.add x = .ok (c, a')
  | .swapped c i j, a' => c ∈ hs ∧ i < a.length c ∧ j < a.length c ∧ a.swap c i j = .ok a'
  | .replaced c i l, a' => c ∈ hs ∧ i < a.length c ∧ l.val ≠ 0 ∧ a.setLiteral c i l = .ok a'
  | .marked c fresh, a' => c ∈ hs ∧ a.markCore c = .ok (fresh, a')

/-- The arenas that changes lead to. -/
inductive History : List Change → Arena → Prop
  | empty : History [] empty
  | change {cs : List Change} {ch : Change} {a a' : Arena} : History cs a →
      a.Carries (handles cs) ch a' → History (ch :: cs) a'

/-- What all readers of a handle say together. -/
structure Shows (a : Arena) (c : Handle) (x : Clause) (core : Bool) : Prop where
  literals : a.literals c = x
  length : a.length c = x.length
  literal : ∀ i l, x[i]? = some l → a.literal c i = .ok l
  closed : a.literal c x.length = .ok ⟨0⟩
  isWatchable : a.isWatchable c = .ok (decide (2 ≤ x.length))
  isCore : a.isCore c = .ok core

theorem Has.shows_iff (h : a.Has c) : a.Shows c x b ↔ a.literals c = x ∧ a.inCore c = b := by
  constructor
  · intro hs
    exact ⟨hs.literals, Except.ok.inj (h.isCore.symm.trans hs.isCore)⟩
  · rintro ⟨rfl, rfl⟩
    exact ⟨rfl, h.length, fun _ _ => h.literal, h.literal_end, h.isWatchable, h.isCore⟩

/-- What is read back as the number of the clause that was added after `k` others. From 2 ^ 30 on
the doubled number overflows its word, and the sign fills the upper half when it is widened. -/
def numberOf (k : Nat) : Nat := if k < 2 ^ 30 then k else k + (2 ^ 64 - 2 ^ 31)

theorem half_double {w : Int32} (hw : 0 ≤ w.toInt) :
    ((w + w).toInt / 2 % UInt64.size).toNat = numberOf w.toInt.toNat := by
  have hhigh := w.toInt_lt
  rw [Int32.toInt_add, Int.bmod_def, numberOf, UInt64.size]
  split <;> split <;> omega

/-- An arena has the handles that were given out, and under each of them what its changes say. -/
structure Tracks (cs : List Change) (a : Arena) : Prop where
  wf : a.Wf
  has : ∀ c, a.Has c ↔ c ∈ handles cs
  literals : ∀ c ∈ handles cs, a.literals c = content c cs
  inCore : ∀ c ∈ handles cs, a.inCore c = isMarked c cs
  mem_of_isMarked : ∀ c, isMarked c cs = true → c ∈ handles cs
  nodup : (handles cs).Nodup
  count : a.clauseCount = (handles cs).length
  id : ∀ k c, (handles cs)[k]? = some c → a.id c = .ok (numberOf k)

theorem tracks_empty : Tracks [] empty where
  wf := wf_empty
  has c := iff_of_false (not_has_empty c) List.not_mem_nil
  literals _ hc := (List.not_mem_nil hc).elim
  inCore _ hc := (List.not_mem_nil hc).elim
  mem_of_isMarked _ hm := by simp [isMarked] at hm
  nodup := List.nodup_nil
  count := rfl
  id _ _ hc := by simp [handles] at hc

namespace Tracks

theorem shows (h : Tracks cs a) (hc : c ∈ handles cs) :
    a.Shows c (content c cs) (isMarked c cs) :=
  ((h.has c).mpr hc).shows_iff.mpr ⟨h.literals c hc, h.inCore c hc⟩

theorem added (h : Tracks cs a) (hg : a.Grown a' c x) : Tracks (.added c x :: cs) a' := by
  have hnew : c ∉ handles cs := fun hc => hg.fresh ((h.has c).mpr hc)
  have hother : ∀ d ∈ handles cs, d ≠ c := fun d hd he => hnew (he ▸ hd)
  have hmem : ∀ d, d ∈ handles (.added c x :: cs) ↔ d ∈ handles cs ∨ d = c := by
    simp [handles]
  refine ⟨hg.wf, fun d => ?_, fun d hd => ?_, fun d hd => ?_, fun d hd => ?_, ?_, ?_, ?_⟩
  · rw [hg.has, h.has, hmem]
  · rcases (hmem d).mp hd with hd | rfl
    · rw [hg.literals d ((h.has d).mpr hd), h.literals d hd, content_of_ne (hother d hd)]
    · rw [hg.literals_new, content, if_pos rfl]
  · rcases (hmem d).mp hd with hd | rfl
    · rw [hg.inCore d ((h.has d).mpr hd), h.inCore d hd, isMarked_of_ne (hother d hd)]
    · rw [hg.inCore_new, isMarked]
      exact (Bool.eq_false_iff.mpr fun hm => hnew (h.mem_of_isMarked d hm)).symm
  · exact (hmem d).mpr (Or.inl (h.mem_of_isMarked d hd))
  · rw [handles, List.nodup_append_comm]
    exact List.nodup_cons.mpr ⟨hnew, h.nodup⟩
  · rw [hg.count, h.count, handles, List.length_append, List.length_singleton]
  · intro k d hk
    rw [handles, List.getElem?_append] at hk
    split at hk
    · rw [hg.id d ((h.has d).mpr (List.mem_of_getElem? hk)), h.id k d hk]
    · -- The new clause has the number of clauses before it.
      obtain ⟨rs, hl⟩ := h.wf
      have hpos : 0 ≤ a.nextId.toInt := by simp [hl.count]
      have hcount : a.nextId.toInt.toNat = (handles cs).length := h.count
      obtain ⟨hlt, rfl⟩ := List.getElem?_eq_some_iff.mp hk
      rw [List.length_singleton] at hlt
      rw [List.getElem_singleton, hg.id_new, half_double hpos, hcount]
      congr 2
      omega

/-- A change through a handle that was given out is seen through this handle only. -/
theorem kept (h : Tracks cs a) (hc : ch.handle ∈ handles cs) (hk : a.Kept a' ch.handle)
    (hhs : handles (ch :: cs) = handles cs)
    (hx : a'.literals ch.handle = content ch.handle (ch :: cs))
    (hb : a'.inCore ch.handle = isMarked ch.handle (ch :: cs)) (hn : a'.nextId = a.nextId) :
    Tracks (ch :: cs) a' where
  wf := hk.wf
  has d := by rw [hk.has, h.has, hhs]
  literals d hd := by
    rw [hhs] at hd
    by_cases he : d = ch.handle
    · rw [he, hx]
    · rw [hk.literals d ((h.has d).mpr hd) he, h.literals d hd, content_of_ne he]
  inCore d hd := by
    rw [hhs] at hd
    by_cases he : d = ch.handle
    · rw [he, hb]
    · rw [hk.inCore d ((h.has d).mpr hd) he, h.inCore d hd, isMarked_of_ne he]
  mem_of_isMarked d hd := by
    rw [hhs]
    by_cases he : d = ch.handle
    · rw [he]
      exact hc
    · rw [isMarked_of_ne he] at hd
      exact h.mem_of_isMarked d hd
  nodup := hhs ▸ h.nodup
  count := by
    rw [hhs, ← h.count, clauseCount, clauseCount, hn]
  id k d hd := by
    rw [hhs] at hd
    rw [hk.id d ((h.has d).mpr (List.mem_of_getElem? hd)), h.id k d hd]

/-- A change more is tracked, and a mark is told to be new if it is. -/
theorem carries (h : Tracks cs a) (hch : a.Carries (handles cs) ch a') :
    Tracks (ch :: cs) a' ∧ ∀ c fresh, ch = .marked c fresh → fresh = !isMarked c cs := by
  cases ch with
  | added c x =>
    rw [Carries] at hch
    have hx : x.hasZero = false := by
      by_contra hz
      rw [Arena.add, if_pos (by simpa using hz)] at hch
      cases hch
    rcases h.wf.add hx with ⟨-, he⟩ | ⟨d, u, hu, hg⟩
    · cases he.symm.trans hch
    · cases hu.symm.trans hch
      exact ⟨h.added hg, by simp⟩
  | swapped c i j =>
    obtain ⟨hc, hi, hj, hrun⟩ := hch
    have hhas := (h.has c).mpr hc
    rw [hhas.length] at hi hj
    obtain ⟨u, hu, hk, hx, hb, hn⟩ := hhas.swap hi hj
    cases hu.symm.trans hrun
    refine ⟨h.kept hc hk rfl ?_ ?_ hn, by simp⟩
    · rw [handle, hx, h.literals c hc, content, if_pos rfl]
    · rw [handle, hb, h.inCore c hc, isMarked]
  | replaced c i l =>
    obtain ⟨hc, hi, hl, hrun⟩ := hch
    have hhas := (h.has c).mpr hc
    rw [hhas.length] at hi
    obtain ⟨u, hu, hk, hx, hb, hn⟩ := hhas.setLiteral hi hl
    cases hu.symm.trans hrun
    refine ⟨h.kept hc hk rfl ?_ ?_ hn, by simp⟩
    · rw [handle, hx, h.literals c hc, content, if_pos rfl]
    · rw [handle, hb, h.inCore c hc, isMarked]
  | marked c fresh =>
    obtain ⟨hc, hrun⟩ := hch
    obtain ⟨u, hu, hk, hx, hb, hn⟩ := ((h.has c).mpr hc).markCore
    cases hu.symm.trans hrun
    refine ⟨h.kept hc hk rfl ?_ ?_ hn, ?_⟩
    · rw [handle, hx, h.literals c hc, content]
    · rw [handle, hb, isMarked, beq_self_eq_true, Bool.true_or]
    · rintro d fresh' he
      cases he
      rw [h.inCore c hc]

end Tracks

theorem History.tracks (h : History cs a) : Tracks cs a := by
  induction h with
  | empty => exact tracks_empty
  | change _ hch ih => exact (ih.carries hch).1

/-- Handles stay valid for ever: each of them shows the clause that was added under it, with the
changes made through it and no others. -/
theorem History.handles_valid (h : History cs a) :
    (∀ c ∈ handles cs, a.Shows c (content c cs) (isMarked c cs)) ∧ (handles cs).Nodup ∧
      a.clauseCount = (handles cs).length ∧
      ∀ ch a', a.Carries (handles cs) ch a' →
        (∀ c fresh, ch = .marked c fresh → fresh = !isMarked c cs) ∧
          ∀ c ∈ handles cs, c ≠ ch.handle → ∀ x b, a'.Shows c x b ↔ a.Shows c x b := by
  have ht := h.tracks
  refine ⟨fun c hc => ht.shows hc, ht.nodup, ht.count, fun ch a' hch => ?_⟩
  obtain ⟨ht', hfresh⟩ := ht.carries hch
  refine ⟨hfresh, fun c hc hne x b => ?_⟩
  have hc' : c ∈ handles (ch :: cs) := by
    cases ch with
    | added d y => exact List.mem_append_left _ hc
    | _ => exact hc
  rw [((ht.has c).mpr hc).shows_iff, ((ht'.has c).mpr hc').shows_iff, ht.literals c hc,
    ht.inCore c hc, ht'.literals c hc', ht'.inCore c hc', content_of_ne hne, isMarked_of_ne hne]

theorem handles_valid_two :
    ∃ cs a, History cs a ∧ handles cs = [⟨0⟩, ⟨5⟩] ∧ a.Shows ⟨0⟩ [⟨3⟩, ⟨6⟩, ⟨1⟩] true ∧
      a.Shows ⟨5⟩ [⟨4⟩] false ∧ a.clauseCount = 2 := by
  have hfirst : History [.added ⟨0⟩ [⟨1⟩, ⟨-2⟩, ⟨3⟩]] _ := .change .empty rfl
  have hsecond : History (.added ⟨5⟩ [⟨4⟩] :: _) _ := .change hfirst rfl
  have hswapped : History (.swapped ⟨0⟩ 0 2 :: _) _ :=
    .change hsecond ⟨by decide, by decide, by decide, rfl⟩
  have hreplaced : History (.replaced ⟨0⟩ 1 ⟨6⟩ :: _) _ :=
    .change hswapped ⟨by decide, by decide, by decide, rfl⟩
  have hmarked : History (.marked ⟨0⟩ true :: _) _ := .change hreplaced ⟨by decide, rfl⟩
  have hagain : History (.marked ⟨0⟩ false :: _) _ := .change hmarked ⟨by decide, rfl⟩
  obtain ⟨hshows, -, hcount, -⟩ := hagain.handles_valid
  exact ⟨_, _, hagain, rfl, hshows ⟨0⟩ (by decide), hshows ⟨5⟩ (by decide), hcount⟩

/-- The number of a clause is read back right if fewer than 2 ^ 30 clauses came before, however many
marks were set since. -/
theorem History.id_eq_numberOf (h : History cs a) (hc : (handles cs)[k]? = some c) :
    a.id c = .ok (numberOf k) :=
  h.tracks.id k c hc

theorem id_eq_numberOf_marked :
    ∃ cs a, History cs a ∧ (handles cs)[1]? = some ⟨2⟩ ∧ a.isCore ⟨2⟩ = .ok true ∧
      a.id ⟨2⟩ = .ok 1 := by
  have hfirst : History [.added ⟨0⟩ []] _ := .change .empty rfl
  have hsecond : History (.added ⟨2⟩ [⟨3⟩] :: _) _ := .change hfirst rfl
  have hmarked : History (.marked ⟨2⟩ true :: _) _ := .change hsecond ⟨by decide, rfl⟩
  exact ⟨_, _, hmarked, rfl, rfl, hmarked.id_eq_numberOf (k := 1) rfl⟩

/-- As many empty clauses as there are numbers can be added one after another. -/
theorem exists_history_of_le (hk : k ≤ 2147483647) :
    ∃ cs a, History cs a ∧ (∀ ch ∈ cs, ∃ c, ch = .added c []) ∧ (handles cs).length = k := by
  induction k with
  | zero => exact ⟨[], _, .empty, by simp, rfl⟩
  | succ k ih =>
    obtain ⟨cs, a, h, hcs, hlen⟩ := ih (by omega)
    rcases h.tracks.wf.add (x := []) rfl with ⟨hfull, -⟩ | ⟨c, a', hadd, -⟩
    · have hcount := h.tracks.count
      omega
    · refine ⟨.added c [] :: cs, a', .change h hadd, ?_, ?_⟩
      · rw [List.forall_mem_cons]
        exact ⟨⟨c, rfl⟩, hcs⟩
      · rw [handles, List.length_append, List.length_singleton, hlen]

/-- The clause that comes after 2 ^ 30 others is not read back as number 2 ^ 30. -/
theorem id_overflows :
    ∃ cs a c, History cs a ∧ (∀ ch ∈ cs, ∃ d, ch = .added d []) ∧
      (handles cs)[1073741824]? = some c ∧ a.id c = .ok 18446744072635809792 := by
  obtain ⟨cs, a, h, hcs, hlen⟩ := exists_history_of_le (k := 1073741825) (by omega)
  have hc := List.getElem?_eq_getElem (l := handles cs) (i := 1073741824) (by omega)
  exact ⟨cs, a, _, h, hcs, hc, h.tracks.id _ _ hc⟩

end Arena

end UnsatCore
