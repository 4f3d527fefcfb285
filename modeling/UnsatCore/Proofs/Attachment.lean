import UnsatCore.Proofs.Enlistment

/-! Attaching and detaching keep a state coherent, and sorting a clause brings the literals that are
not false to its front, in their order. -/
namespace UnsatCore.Engine

open CheckM

variable {n : Nat} {F : Prop} {R : Rejection → State → Prop} {body : Handle → Clause}
  {A : Set Handle} {a a' : Arena} {t : WatchTable} {s s' : State} {c d : Handle} {l x y : Literal}
  {rest : Clause}

namespace Watched

/-- The watch lists do not depend on the order of the two watched literals. -/
theorem turn (h : Watched n A a t)
    (hl : ∀ d ∈ A, ∀ l, l ∈ (a'.literals d).take 2 ↔ l ∈ (a.literals d).take 2)
    (hi : ∀ d ∈ A, a'.inCore d = a.inCore d) : Watched n A a' t where
  fits := h.fits
  nodup := h.nodup
  mem_iff := by
    intro l w
    rw [h.mem_iff l w]
    constructor
    · rintro ⟨hA, hcore, htake⟩
      exact ⟨hA, hcore.trans (hi _ hA).symm, (hl _ hA l).mpr htake⟩
    · rintro ⟨hA, hcore, htake⟩
      exact ⟨hA, hcore.trans (hi _ hA), (hl _ hA l).mp htake⟩

/-- A clause that is not attached may be changed. -/
theorem congr (h : Watched n A a t) (hl : ∀ d ∈ A, a'.literals d = a.literals d)
    (hi : ∀ d ∈ A, a'.inCore d = a.inCore d) : Watched n A a' t :=
  h.turn (fun d hd l => by rw [hl d hd]) hi

end Watched

namespace Coherent

/-- The first two literals of a clause that can be watched. -/
theorem watches (h : Coherent n F body A s) (hc : s.arena.Has c)
    (hlen : 2 ≤ (s.arena.literals c).length) :
    ∃ x y rest, s.arena.literals c = x :: y :: rest ∧ x ≠ y ∧ x.var.index ≤ n ∧
      y.var.index ≤ n := by
  obtain ⟨x, y, rest, hl⟩ := exists_watches hlen
  have hnd := h.stored.nodup_literals hc
  rw [hl] at hnd
  have hne : x ≠ y := by
    intro he
    simp [he] at hnd
  exact ⟨x, y, rest, hl, hne, h.stored.small_literal hc (by simp [hl]),
    h.stored.small_literal hc (by simp [hl])⟩

/-- Another arrangement of a clause, with watch lists that fit it. A reason has to stay as it is. -/
theorem replace {t' : WatchTable} (h : Coherent n F body A s) (hk : s.arena.Kept a' c)
    (hc : s.arena.Has c) (hp : (a'.literals c).Perm (s.arena.literals c))
    (hr : ∀ e ∈ s.trail.entries, e.reason = some c → a'.literals c = s.arena.literals c)
    (hw : Watched n A a' t') : Coherent n F body A { s with arena := a', watches := t' } := by
  have hst := h.stored.rearrange hk hc hp
  refine ⟨hst, ?_, hw, h.trail, ?_⟩
  · intro d hd
    obtain ⟨hh, hlen⟩ := h.attached d hd
    have hh' := (hk.has d).mpr hh
    refine ⟨hh', ?_⟩
    show 2 ≤ (a'.literals d).length
    rw [hst.length hh', ← h.stored.length hh]
    exact hlen
  · apply h.grounded.congr fun d => (hk.has d).mpr
    intro e he d hd
    by_cases hdc : d = c
    · exact hdc ▸ hr e he (hdc ▸ hd)
    · exact hk.literals d (h.grounded.has he hd) hdc

/-- Another arrangement of a clause that is neither attached nor a reason. -/
theorem rearrange (h : Coherent n F body A s) (hk : s.arena.Kept a' c) (hc : s.arena.Has c)
    (hp : (a'.literals c).Perm (s.arena.literals c)) (hA : c ∉ A)
    (hr : ∀ e ∈ s.trail.entries, e.reason ≠ some c) :
    Coherent n F body A { s with arena := a' } := by
  refine h.replace hk hc hp (fun e he hd => (hr e he hd).elim) (h.watched.congr ?_ ?_)
  · exact fun d hd => hk.literals d (h.attached d hd).1 fun he => hA (he ▸ hd)
  · exact fun d hd => hk.inCore d (h.attached d hd).1 fun he => hA (he ▸ hd)

end Coherent

theorem ends_attach (h : Coherent n F body A s) (hc : s.arena.Has c)
    (hlen : 2 ≤ (s.arena.literals c).length) (hA : c ∉ A) :
    Ends F R (attach c) s fun _ s' =>
      Coherent n F body (insert c A) s' ∧ s' = { s with watches := s'.watches } := by
  obtain ⟨x, y, rest, hl, hne, hx, hy⟩ := h.watches hc hlen
  obtain ⟨t₁, t₂, h₁, h₂, hw⟩ := h.watched.attach hA hl hne hx hy
  have hx₀ := hc.literal (i := 0) (l := x) (by simp [hl])
  have hy₀ := hc.literal (i := 1) (l := y) (by simp [hl])
  simp only [attach, requireWatchable, watchable, literalOf, ends_bind, ends_ask, hc.isWatchable,
    hlen, decide_true, if_true, ends_pure, hc.isCore, hx₀, hy₀, yields_ok, ends_onWatches, h₁, h₂]
  refine ⟨⟨h.stored, ?_, hw, h.trail, h.grounded⟩, trivial⟩
  intro d hd
  rcases Set.mem_insert_iff.mp hd with rfl | hd
  · exact ⟨hc, hlen⟩
  · exact h.attached d hd

theorem ends_detach (h : Coherent n F body A s) (hA : c ∈ A) :
    Ends F R (detach c) s fun _ s' =>
      Coherent n F body (A \ {c}) s' ∧ s' = { s with watches := s'.watches } := by
  obtain ⟨hc, hlen⟩ := h.attached c hA
  obtain ⟨x, y, rest, hl, hne, hx, hy⟩ := h.watches hc hlen
  obtain ⟨t₁, t₂, h₁, h₂, hw⟩ := h.watched.detach hA hl hne hx hy
  have hx₀ := hc.literal (i := 0) (l := x) (by simp [hl])
  have hy₀ := hc.literal (i := 1) (l := y) (by simp [hl])
  simp only [detach, requireWatchable, watchable, literalOf, ends_bind, ends_ask, hc.isWatchable,
    hlen, decide_true, if_true, ends_pure, hx₀, hy₀, yields_ok, ends_onWatches, h₁, h₂]
  exact ⟨⟨h.stored, fun d hd => h.attached d hd.1, hw, h.trail, h.grounded⟩, trivial⟩

section Sorting

variable {fs : List Literal} {given kept front back : Clause} {view : View}

/-- Of the literals of `x` the trail calls those false that are in `fs`, and those true whose opposite
is. Whether the least word is true cannot be asked, which only `F` excuses. -/
structure Seen (F : Prop) (fs : List Literal) (t : Trail) (x : Clause) : Prop where
  isFalse : ∀ l ∈ x, t.isFalse l = .ok (decide (l ∈ fs))
  isTrue : ∀ l ∈ x, l.val ≠ Int32.minValue → t.isTrue l = .ok (decide (-l ∈ fs))
  least : ∀ l ∈ x, l.val = Int32.minValue → F

theorem Seen.tail {t : Trail} (h : Seen F fs t (l :: rest)) : Seen F fs t rest where
  isFalse m hm := h.isFalse m (List.mem_cons_of_mem l hm)
  isTrue m hm := h.isTrue m (List.mem_cons_of_mem l hm)
  least m hm := h.least m (List.mem_cons_of_mem l hm)

theorem Coherent.seen (h : Coherent n F body A s) (hc : s.arena.Has c) :
    Seen F s.trail.falsified s.trail (s.arena.literals c) where
  isFalse _ hl := h.trail.isFalse (h.stored.small_literal hc hl)
  isTrue _ hl hm := h.trail.isTrue (h.stored.small_literal hc hl) hm
  least _ hl := h.stored.least_literal hc hl

/-- What sorting the literals of `given` keeps in front: those that are not false, in order. -/
structure SortedInto (fs : List Literal) (given kept : Clause) (view : View) : Prop where
  size : view.size = kept.length
  satisfied : view.satisfied = true ↔ ∃ l ∈ kept, -l ∈ fs
  eq_filter : kept = given.filter (· ∉ fs)
  least : ∀ l ∈ kept, l.val ≠ Int32.minValue

theorem SortedInto.mem_iff (h : SortedInto fs given kept view) : l ∈ kept ↔ l ∈ given ∧ l ∉ fs := by
  rw [h.eq_filter, List.mem_filter, decide_eq_true_eq]

theorem SortedInto.skip (h : SortedInto fs given kept view) (hl : l ∈ fs) :
    SortedInto fs (given ++ [l]) kept view := by
  refine ⟨h.size, h.satisfied, ?_, h.least⟩
  rw [List.filter_append, ← h.eq_filter]
  simp [hl]

theorem SortedInto.push (h : SortedInto fs given kept view) (hl : l ∉ fs)
    (hm : l.val ≠ Int32.minValue) : SortedInto fs (given ++ [l]) (kept ++ [l])
      ⟨view.satisfied || decide (-l ∈ fs), view.size + 1⟩ where
  size := by simp [h.size]
  satisfied := by
    simp only [Bool.or_eq_true, h.satisfied, decide_eq_true_eq, List.mem_append,
      List.mem_singleton]
    constructor
    · rintro (⟨m, hm, ht⟩ | ht)
      · exact ⟨m, Or.inl hm, ht⟩
      · exact ⟨l, Or.inr rfl, ht⟩
    · rintro ⟨m, hm | rfl, ht⟩
      · exact Or.inl ⟨m, hm, ht⟩
      · exact Or.inr ht
  eq_filter := by
    rw [List.filter_append, ← h.eq_filter]
    simp [hl]
  least := by
    intro m hm'
    rcases List.mem_append.mp hm' with hm' | hm'
    · exact h.least m hm'
    · exact List.mem_singleton.mp hm' ▸ hm

/-- A literal that is not false changes places with the first false one before it. -/
theorem exchange_front (front back rest : Clause) (l : Literal) :
    ∃ back', (front ++ (back ++ l :: rest)).exchange (front.length + back.length) front.length =
      front ++ l :: (back' ++ rest) ∧ back'.Perm back := by
  cases back with
  | nil => exact ⟨[], by simp [Clause.exchange_self], List.Perm.refl _⟩
  | cons b bs =>
    refine ⟨bs ++ [b], ?_, List.perm_append_singleton b bs⟩
    have hj : front.length + (b :: bs).length = front.length + 1 + bs.length := by
      simp only [List.length_cons]
      omega
    rw [Clause.exchange_comm, hj, List.cons_append, Clause.exchange_append]
    simp

/-- The literals read so far are in `front` if they are not false, in their order, and else in `back`;
`rest` is still to be read. -/
theorem ends_sortFrom (front back : Clause) (hc : s.arena.Has c)
    (hl : s.arena.literals c = front ++ (back ++ rest)) (hseen : Seen F fs s.trail rest)
    (hview : SortedInto fs given front view) (hback : ∀ l ∈ back, l ∈ fs) {i : Nat}
    (hi : i = front.length + back.length) :
    Ends F R (sortFrom c rest i view) s fun view' s' => ∃ kept dropped,
      s' = { s with arena := s'.arena } ∧ s.arena.Kept s'.arena c ∧
      s'.arena.inCore c = s.arena.inCore c ∧ s'.arena.literals c = kept ++ dropped ∧
      (kept ++ dropped).Perm (s.arena.literals c) ∧ SortedInto fs (given ++ rest) kept view' ∧
      ∀ l ∈ dropped, l ∈ fs := by
  induction rest generalizing s front back given view i with
  | nil =>
    refine ⟨front, back, rfl, Arena.Kept.refl hc.wf c, rfl, by simpa using hl, ?_, ?_, hback⟩
    · simp [hl]
    · simpa using hview
  | cons l rest ih =>
    have hmem : l ∈ l :: rest := List.mem_cons_self
    have hgiven : given ++ l :: rest = given ++ [l] ++ rest := by simp
    rw [hgiven]
    simp only [sortFrom, isFalseNow, ends_bind, ends_ask, hseen.isFalse l hmem, yields_ok, ends_ite,
      decide_eq_true_eq]
    split
    · rename_i hf
      refine ih front (back ++ [l]) hc (by simp [hl]) hseen.tail (hview.skip hf) ?_
        (by simp [hi]; omega)
      intro m hm
      rcases List.mem_append.mp hm with hm | hm
      · exact hback m hm
      · exact List.mem_singleton.mp hm ▸ hf
    · rename_i hf
      simp only [isTrueNow, ends_ask]
      refine yields_isTrue_of_eq (hseen.isTrue l hmem) (hseen.least l hmem) fun hmin => ?_
      obtain ⟨back', hx, hperm⟩ := exchange_front front back rest l
      obtain ⟨a', hswap, hkept, hlit, hcore, -⟩ := hc.swap (i := front.length + back.length)
        (j := front.length) (by simp [hl])
        (by rw [hl, List.length_append, List.length_append, List.length_cons]; omega)
      have hp : (a'.literals c).Perm (s.arena.literals c) := by
        rw [hlit]
        exact Clause.perm_exchange _ _ _
      rw [hl, hx] at hlit
      simp only [ends_onArena, hi, hview.size, hswap, yields_ok]
      have hback' : ∀ m ∈ back', m ∈ fs := fun m hm => hback m (hperm.mem_iff.mp hm)
      have hview' := hview.push hf hmin
      rw [hview.size] at hview'
      refine (ih (s := { s with arena := a' }) (front ++ [l]) back' ((hkept.has c).mpr hc)
        (by simp [hlit]) hseen.tail hview' hback' ?_).mono ?_
      · simp only [List.length_append, List.length_singleton, hperm.length_eq]
        omega
      · rintro view' s' ⟨kept, dropped, hs, hk, hcore', hlit', hperm', hsorted, hdrop⟩
        exact ⟨kept, dropped, hs, hkept.trans hk, hcore'.trans hcore, hlit', hperm'.trans hp,
          hsorted, hdrop⟩

/-- Wherever the literals of a clause have values, it can be sorted, and no other one is touched. -/
theorem ends_sortSeen (hc : s.arena.Has c) (hseen : Seen F fs s.trail (s.arena.literals c)) :
    Ends F R (sortUnfalsified c) s fun view s' => ∃ kept dropped,
      s' = { s with arena := s'.arena } ∧ s.arena.Kept s'.arena c ∧
      s'.arena.inCore c = s.arena.inCore c ∧ s'.arena.literals c = kept ++ dropped ∧
      (kept ++ dropped).Perm (s.arena.literals c) ∧
      SortedInto fs (s.arena.literals c) kept view ∧ ∀ l ∈ dropped, l ∈ fs := by
  simp only [sortUnfalsified, bodyOf, ends_bind, ends_ask, hc.body (Nat.zero_le _), yields_ok,
    List.drop_zero]
  have hnone : SortedInto fs [] [] ⟨false, 0⟩ := ⟨rfl, by simp, rfl, by simp⟩
  exact ends_sortFrom [] [] hc rfl hseen hnone (by simp) rfl

/-- Sorting a clause that is neither attached nor a reason keeps the state coherent. -/
theorem ends_sortUnfalsified (h : Coherent n F body A s) (hc : s.arena.Has c) (hA : c ∉ A)
    (hr : ∀ e ∈ s.trail.entries, e.reason ≠ some c) :
    Ends F R (sortUnfalsified c) s fun view s' => ∃ kept dropped,
      Coherent n F body A s' ∧ s' = { s with arena := s'.arena } ∧ s.arena.Kept s'.arena c ∧
      s'.arena.inCore c = s.arena.inCore c ∧ s'.arena.literals c = kept ++ dropped ∧
      SortedInto s.trail.falsified (s.arena.literals c) kept view ∧
      ∀ l ∈ dropped, l ∈ s.trail.falsified := by
  refine (ends_sortSeen hc (h.seen hc)).mono ?_
  rintro view s' ⟨kept, dropped, hs, hk, hcore, hlit, hperm, hsorted, hdrop⟩
  refine ⟨kept, dropped, ?_, hs, hk, hcore, hlit, hsorted, hdrop⟩
  rw [hs]
  exact h.rearrange hk hc (hlit ▸ hperm) hA hr

end Sorting

end UnsatCore.Engine
