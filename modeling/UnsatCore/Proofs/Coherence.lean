import UnsatCore.Engine.Attachment
import UnsatCore.Proofs.Arena
import UnsatCore.Proofs.Closure
import UnsatCore.Proofs.Endings
import UnsatCore.Proofs.WatchTable
import Mathlib.Data.Set.Insert

/-! The arena, the watch lists and the trail of a state agree with each other. The attached clauses
are those that the watch lists know; `body` gives the literals that each clause was stored with. -/
namespace UnsatCore.Engine

open CheckM

variable {n : Nat} {F : Prop} {R : Rejection → State → Prop} {body : Handle → Clause}
  {A : Set Handle} {a a' : Arena} {t : WatchTable} {s s' : State} {c d : Handle} {l x y : Literal}
  {es : List Entry} {e : Entry} {fs : List Literal}

/-- Stored clauses have distinct literals, of variables up to `n`. If one of them is the least word,
faults are excused. -/
structure Stored (n : Nat) (F : Prop) (body : Handle → Clause) (a : Arena) : Prop where
  wf : a.Wf
  perm : ∀ c, a.Has c → (a.literals c).Perm (body c)
  nodup : ∀ c, a.Has c → (body c).Nodup
  small : ∀ c, a.Has c → ∀ l ∈ body c, l.var.index ≤ n
  least : ∀ c, a.Has c → ∀ l ∈ body c, l.val = Int32.minValue → F

/-- An attached clause is once on the lists of its first two literals, with its core mark. -/
structure Watched (n : Nat) (A : Set Handle) (a : Arena) (t : WatchTable) : Prop where
  fits : t.Fits n
  nodup : ∀ l : Literal, ((t.watchers l).map Watcher.clause).Nodup
  mem_iff : ∀ (l : Literal) (w : Watcher), w ∈ t.watchers l ↔
    w.clause ∈ A ∧ w.core = a.inCore w.clause ∧ l ∈ (a.literals w.clause).take 2

/-- A reason has the literal that it forced in front; its other literals were false before. -/
def Grounded (a : Arena) (es : List Entry) : Prop :=
  ∀ pre e post c, es = pre ++ e :: post → e.reason = some c →
    a.Has c ∧ ∃ rest, a.literals c = -e.literal :: rest ∧ ∀ m ∈ rest, m ∈ pre.map Entry.literal

/-- Reasons that can be watched are. -/
def Anchored (body : Handle → Clause) (A : Set Handle) (es : List Entry) : Prop :=
  ∀ e ∈ es, ∀ c, e.reason = some c → 2 ≤ (body c).length → c ∈ A

structure Coherent (n : Nat) (F : Prop) (body : Handle → Clause) (A : Set Handle) (s : State) :
    Prop where
  stored : Stored n F body s.arena
  attached : ∀ c ∈ A, s.arena.Has c ∧ 2 ≤ (s.arena.literals c).length
  watched : Watched n A s.arena s.watches
  trail : s.trail.Wf n
  grounded : Grounded s.arena s.trail.entries

namespace Stored

theorem mem_iff (h : Stored n F body a) (hc : a.Has c) : l ∈ a.literals c ↔ l ∈ body c :=
  (h.perm c hc).mem_iff

/-- A stored clause has as many literals as it was stored with. -/
theorem length (h : Stored n F body a) (hc : a.Has c) :
    (a.literals c).length = (body c).length := (h.perm c hc).length_eq

theorem nodup_literals (h : Stored n F body a) (hc : a.Has c) : (a.literals c).Nodup :=
  (h.perm c hc).nodup_iff.mpr (h.nodup c hc)

theorem small_literal (h : Stored n F body a) (hc : a.Has c) (hl : l ∈ a.literals c) :
    l.var.index ≤ n := h.small c hc l ((h.mem_iff hc).mp hl)

theorem least_literal (h : Stored n F body a) (hc : a.Has c) (hl : l ∈ a.literals c)
    (hm : l.val = Int32.minValue) : F := h.least c hc l ((h.mem_iff hc).mp hl) hm

theorem proper_literal (hc : a.Has c) (hl : l ∈ a.literals c) (hm : l.val ≠ Int32.minValue) :
    l.Proper := ⟨hc.zeroFree l hl, hm⟩

/-- Another arrangement of the literals of one clause stores the same clauses. -/
theorem rearrange (h : Stored n F body a) (hk : a.Kept a' c) (hc : a.Has c)
    (hp : (a'.literals c).Perm (a.literals c)) : Stored n F body a' where
  wf := hk.wf
  perm := by
    intro d hd
    have hd := (hk.has d).mp hd
    by_cases he : d = c
    · exact he ▸ hp.trans (h.perm c hc)
    · rw [hk.literals d hd he]
      exact h.perm d hd
  nodup := fun d hd => h.nodup d ((hk.has d).mp hd)
  small := fun d hd => h.small d ((hk.has d).mp hd)
  least := fun d hd => h.least d ((hk.has d).mp hd)

end Stored

theorem Grounded.append_left {es' : List Entry} (h : Grounded a (es ++ es')) : Grounded a es := by
  intro pre e post c he hr
  exact h pre e (post ++ es') c (by simp [he]) hr

theorem Grounded.take (h : Grounded a es) (k : Nat) : Grounded a (es.take k) := by
  rw [← List.take_append_drop k es] at h
  exact h.append_left

/-- An entry goes on top if its reason, where it has one, forces it there. -/
theorem Grounded.push (h : Grounded a es)
    (he : ∀ c, e.reason = some c → a.Has c ∧ ∃ rest, a.literals c = -e.literal :: rest ∧
      ∀ m ∈ rest, m ∈ es.map Entry.literal) : Grounded a (es ++ [e]) := by
  intro pre e' post c heq hr
  rcases List.eq_nil_or_concat post with rfl | ⟨post, e'', rfl⟩
  · obtain ⟨rfl, hee⟩ := List.append_inj' heq rfl
    cases hee
    exact he c hr
  · rw [List.concat_eq_append, ← List.cons_append, ← List.append_assoc] at heq
    obtain ⟨rfl, -⟩ := List.append_inj' heq rfl
    exact h pre e' post c rfl hr

theorem Grounded.has (h : Grounded a es) (he : e ∈ es) (hr : e.reason = some c) : a.Has c := by
  obtain ⟨pre, post, rfl⟩ := List.append_of_mem he
  exact (h pre e post c rfl hr).1

theorem Grounded.head (h : Grounded a es) (he : e ∈ es) (hr : e.reason = some c) :
    ∃ rest, a.literals c = -e.literal :: rest := by
  obtain ⟨pre, post, rfl⟩ := List.append_of_mem he
  obtain ⟨rest, hl, -⟩ := (h pre e post c rfl hr).2
  exact ⟨rest, hl⟩

/-- Changes to clauses that are no reasons leave the reasons as they are. -/
theorem Grounded.congr (h : Grounded a es) (hh : ∀ d, a.Has d → a'.Has d)
    (hl : ∀ e ∈ es, ∀ d, e.reason = some d → a'.literals d = a.literals d) :
    Grounded a' es := by
  intro pre e post d he hr
  obtain ⟨hd, hrest⟩ := h pre e post d he hr
  rw [hl e (by simp [he]) d hr]
  exact ⟨hh d hd, hrest⟩

/-- The two watched literals of a clause, in either order. -/
def Pair (k : Clause) (x y : Literal) : Prop :=
  ∃ rest, k = x :: y :: rest ∨ k = y :: x :: rest

theorem Pair.symm {k : Clause} (h : Pair k x y) : Pair k y x := by
  obtain ⟨rest, h⟩ := h
  exact ⟨rest, h.symm⟩

theorem Pair.mem_take {k : Clause} (h : Pair k x y) : x ∈ k.take 2 := by
  obtain ⟨rest, rfl | rfl⟩ := h <;> simp

theorem Pair.mem {k : Clause} (h : Pair k x y) : x ∈ k := List.mem_of_mem_take h.mem_take

theorem Pair.ne {k : Clause} (h : Pair k x y) (hnd : k.Nodup) : x ≠ y := by
  rintro rfl
  obtain ⟨rest, rfl | rfl⟩ := h <;> simp at hnd

theorem pair_cons {rest : Clause} {u v : Literal} :
    Pair (x :: y :: rest) u v ↔ (u = x ∧ v = y) ∨ (u = y ∧ v = x) := by
  constructor
  · rintro ⟨rest', h | h⟩ <;> simp_all
  · rintro (⟨rfl, rfl⟩ | ⟨rfl, rfl⟩)
    · exact ⟨rest, Or.inl rfl⟩
    · exact ⟨rest, Or.inr rfl⟩

/-- If one of the two watched literals of a clause is false, the other one is true. -/
def Settled (fs : List Literal) (k : Clause) : Prop := ∀ x y, Pair k x y → x ∈ fs → -y ∈ fs

theorem exists_watches {k : Clause} (h : 2 ≤ k.length) : ∃ x y rest, k = x :: y :: rest := by
  match k with
  | x :: y :: rest => exact ⟨x, y, rest, rfl⟩

theorem Settled.quiet {k : Clause} (h : Settled fs k) (hlen : 2 ≤ k.length) (hnd : k.Nodup) :
    Quiet fs k := by
  obtain ⟨x, y, rest, rfl⟩ := exists_watches hlen
  have hp : Pair (x :: y :: rest) x y := ⟨rest, Or.inl rfl⟩
  by_cases hx : x ∈ fs
  · exact Or.inl ⟨y, by simp, h x y hp hx⟩
  by_cases hy : y ∈ fs
  · exact Or.inl ⟨x, by simp, h y x hp.symm hy⟩
  exact Or.inr ⟨x, by simp, y, by simp, hp.ne hnd, hx, hy⟩

/-- A clause that watches two literals that are not false is settled. -/
theorem settled_of_not_mem {rest : Clause} (hx : x ∉ fs) (hy : y ∉ fs) :
    Settled fs (x :: y :: rest) := by
  intro u v hp hu
  rcases pair_cons.mp hp with ⟨rfl, rfl⟩ | ⟨rfl, rfl⟩
  · exact (hx hu).elim
  · exact (hy hu).elim

theorem Coherent.congr (h : Coherent n F body A s) (ha : s'.arena = s.arena)
    (hw : s'.watches = s.watches) (ht : s'.trail = s.trail) : Coherent n F body A s' :=
  ⟨ha ▸ h.stored, ha ▸ h.attached, by rw [ha, hw]; exact h.watched, ht ▸ h.trail,
    by rw [ha, ht]; exact h.grounded⟩

/-- What counts as propagated or fixed does not matter here. -/
theorem Coherent.bounds (h : Coherent n F body A s) (processed forced : Nat) :
    Coherent n F body A { s with trail := { s.trail with processed, forced } } :=
  ⟨h.stored, h.attached, h.watched, ⟨h.trail.statusSize, h.trail.reasonSize, h.trail.unset_iff,
    h.trail.proper, h.trail.small, h.trail.nodup, h.trail.reason_none⟩, h.grounded⟩

theorem Coherent.quiet (h : Coherent n F body A s) (hc : c ∈ A)
    (hs : Settled fs (s.arena.literals c)) : Quiet fs (body c) := by
  obtain ⟨hh, hlen⟩ := h.attached c hc
  exact (hs.quiet hlen (h.stored.nodup_literals hh)).same fun _ => h.stored.mem_iff hh

/-- A reason has the literal that it forced. -/
theorem Coherent.neg_mem_of_reason (h : Coherent n F body A s) (he : e ∈ s.trail.entries)
    (hr : e.reason = some d) : -e.literal ∈ body d := by
  obtain ⟨rest, hl⟩ := h.grounded.head he hr
  rw [← h.stored.mem_iff (h.grounded.has he hr), hl]
  exact List.mem_cons_self

/-- Asking whether the least word is true is a fault. -/
theorem yields_isTrue_of_eq {t : Trail} {b : Bool}
    (hb : l.val ≠ Int32.minValue → t.isTrue l = .ok b) (hm : l.val = Int32.minValue → F)
    {Q : Bool → Prop} (hq : l.val ≠ Int32.minValue → Q b) : Yields F (t.isTrue l) Q := by
  by_cases he : l.val = Int32.minValue
  · simpa [Trail.isTrue, Literal.opposite?_eq_none he] using hm he
  · simpa [hb he] using hq he

theorem yields_isTrue {t : Trail} (h : t.Wf n) (hl : l.var.index ≤ n)
    (hm : l.val = Int32.minValue → F) {Q : Bool → Prop}
    (hq : l.val ≠ Int32.minValue → Q (decide (-l ∈ t.falsified))) : Yields F (t.isTrue l) Q :=
  yields_isTrue_of_eq (h.isTrue hl) hm hq

end UnsatCore.Engine
