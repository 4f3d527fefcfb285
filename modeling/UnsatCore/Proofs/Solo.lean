import UnsatCore.Proofs.Detours
import UnsatCore.Proofs.ParallelSaturation

/-! What the second run does alone. It comes across clauses that the first run does not have, while
the first one waits and is found in it as before. None of these clauses is ever false: each has a
literal that is not `down`. -/
namespace UnsatCore.Engine

open CheckM

variable {g : Image} {R : Rejection → State → Prop} {s s' : State} {c : Handle} {i j : Nat}
  {b l m x : Literal} {rest : Clause}

/-- A clause of which all literals but the first one are false: the first one can be true only. -/
theorem Mirrored.not_down_first (h : Mirrored g s s') (hc : g.alien 2 c)
    (hl : s'.arena.literals c = b :: rest) (hrest : ∀ m ∈ rest, m ∈ s'.trail.falsified) :
    ¬ g.down b := by
  have hapart := h.arena.apart 2 c hc
  obtain ⟨m, hm, hd⟩ := hapart.standing
  have ho := (hapart.foreign m hm).own
  rw [hl] at hm
  rcases List.mem_cons.mp hm with rfl | hm
  · exact hd
  · exact (hd (h.trail.down m (hrest m hm) ho)).elim

theorem Mirrored.attach_foreign (h : Mirrored g s s') (hc : g.alien 2 c) :
    Ends True R (attach c) s' fun _ t' => Mirrored g s t' := by
  have hapart := h.arena.apart 2 c hc
  obtain ⟨x, y, rest, hl⟩ := exists_watches hapart.length
  have hx₀ := hapart.has.literal (i := 0) (l := x) (by simp [hl])
  have hy₀ := hapart.has.literal (i := 1) (l := y) (by simp [hl])
  simp only [attach, requireWatchable, watchable, literalOf, ends_bind, ends_ask,
    hapart.has.isWatchable, hapart.length, decide_true, if_true, ends_pure, hapart.has.isCore, hx₀,
    hy₀, yields_ok, ends_onWatches]
  refine (h.watches.insert_foreign (hapart.foreign x (by simp [hl])) hc).mono fun t ht => ?_
  refine (ht.insert_foreign (hapart.foreign y (by simp [hl])) hc).mono fun u hu => ?_
  exact { h with watches := hu }

theorem Mirrored.moveWatcher_foreign (h : Mirrored g s s') (hc : g.alien 2 c)
    (hj : j < (s'.arena.literals c).length) (hl : g.Foreign l) (hm : g.Foreign m) :
    Ends True R (moveWatcher l i c j m) s' fun _ t' => Mirrored g s t' := by
  have hlen := (h.arena.apart 2 c hc).length
  obtain ⟨a, ha, -, -, harena⟩ := h.arena.swap_foreign hc (i := 1) (j := j) (by omega) hj
  simp only [moveWatcher, ends_bind, ends_onArena, ha, yields_ok, ends_ask, ends_onWatches]
  refine (h.watches.watcher_foreign hl i).mono fun w hw => ?_
  refine (h.watches.removeAt_foreign hl i).mono fun t ht => ?_
  refine (ht.insert_foreign hm hw).mono fun u hu => ?_
  exact { h with arena := harena, watches := hu }

/-- The first literal becomes true. There is no conflict. -/
theorem Mirrored.deriveFirst_foreign (h : Mirrored g s s') (hx : g.exact = false)
    (hclear : ¬ g.clear) (hc : g.alien 2 c) (hl : s'.arena.literals c = b :: rest)
    (hrest : ∀ m ∈ rest, m ∈ s'.trail.falsified) :
    Ends True R (deriveFirst l c) s' fun v t' => v ≠ .conflict ∧ Mirrored g s t' := by
  have hapart := h.arena.apart 2 c hc
  have hb := hapart.foreign b (by simp [hl])
  have hstands := h.not_down_first hc hl hrest
  have hfree : b ∉ s'.trail.falsified := fun hm => hstands (h.trail.down b hm hb.own)
  have hdown := (g.down_or hb.own hb.proper).resolve_left hstands
  have hcounters : s'.counters.countPropagation.tally g.exact = s.counters.tally g.exact := by
    rw [← h.counters, hx]
    rfl
  simp only [deriveFirst, literalOf, isFalseNow, ends_bind, ends_ask,
    hapart.has.literal (i := 0) (l := b) (by simp [hl]), h.trail.wf'.isFalse hb.small, yields_ok,
    hfree, decide_false, Bool.false_eq_true, if_false, ends_emit, ends_onTrail, ends_count,
    ends_pure]
  refine (h.trail.assign_foreign hb hdown hclear).mono fun u hu => ?_
  exact ⟨by simp, { h with trail := hu, counters := hcounters }⟩

theorem Mirrored.rewatch_foreign (h : Mirrored g s s') (hx : g.exact = false)
    (hclear : ¬ g.clear) (hc : g.alien 2 c) (hl : s'.arena.literals c = b :: l :: rest)
    (hm : l ∈ s'.trail.falsified) :
    Ends True R (rewatch l i c) s' fun v t' => v ≠ .conflict ∧ Mirrored g s t' := by
  have hapart := h.arena.apart 2 c hc
  have hforeign : ∀ m ∈ l :: rest, g.Foreign m := fun m hm =>
    hapart.foreign m (by rw [hl]; exact List.mem_cons_of_mem b hm)
  simp only [rewatch, replacement, ends_bind, ends_ask, yields_bind,
    hapart.has.body (i := 2) hapart.length, yields_ok, hl, List.drop_succ_cons, List.drop_zero]
  refine yields_firstUnfalsified h.trail.wf'
    (fun m hm => (hforeign m (List.mem_cons_of_mem l hm)).small) (fun hall => ?_) ?_
  · refine h.deriveFirst_foreign hx hclear hc hl fun m hmem => ?_
    rcases List.mem_cons.mp hmem with rfl | hmem
    · exact hm
    · exact hall m hmem
  · intro pre m post he _
    simp only [ends_bind, ends_pure]
    refine (h.moveWatcher_foreign hc ?_ (hforeign l List.mem_cons_self) ?_).mono fun _ t' ht => ?_
    · simp [hl, he]
      omega
    · exact hforeign m (by simp [he])
    · exact ⟨by simp, ht⟩

/-- The literal that became false is the second one afterwards, if it was one of the first two. -/
theorem Mirrored.bringBack_foreign (h : Mirrored g s s') (hc : g.alien 2 c)
    (hl : s'.arena.literals c = b :: x :: rest) :
    Ends True R (bringBack l c b) s' fun _ t' => Mirrored g s t' ∧ t'.trail = s'.trail ∧
      ∃ m, t'.arena.literals c = m :: l :: rest := by
  have hapart := h.arena.apart 2 c hc
  rw [bringBack, ends_when, ends_ite]
  split
  · -- The two literals change places.
    rename_i he
    subst he
    obtain ⟨a, ha, -, hex, harena⟩ := h.arena.swap_foreign hc (i := 0) (j := 1) (by simp [hl])
      (by simp [hl])
    have hl₁ : a.literals c = x :: b :: rest := by
      rw [hex, hl]
      rfl
    have hb := (harena.apart 2 c hc).has.literal (i := 1) (l := b) (by simp [hl₁])
    simp only [ends_onArena, ha, yields_ok, literalOf, ends_bind, ends_ask, hb, if_true, ends_pure]
    exact ⟨{ h with arena := harena }, trivial, x, hl₁⟩
  · simp only [ends_pure, literalOf, ends_bind, ends_ask,
      hapart.has.literal (i := 1) (l := x) (by simp [hl]), yields_ok, ends_ite, ends_fault]
    split
    · rename_i hx
      exact ⟨h, trivial, b, hx ▸ hl⟩
    · trivial

theorem Mirrored.visit_foreign (h : Mirrored g s s') (hx : g.exact = false) (hclear : ¬ g.clear)
    (hc : g.alien 2 c) (hm : l ∈ s'.trail.falsified) :
    Ends True R (visit l i c) s' fun v t' => v ≠ .conflict ∧ Mirrored g s t' := by
  have hapart := h.arena.apart 2 c hc
  obtain ⟨x, y, rest, hl⟩ := exists_watches hapart.length
  have hfx := hapart.foreign x (by simp [hl])
  have hfy := hapart.foreign y (by simp [hl])
  simp only [visit, literalOf, ends_bind, ends_ask,
    hapart.has.literal (i := 0) (l := x) (by simp [hl]),
    hapart.has.literal (i := 1) (l := y) (by simp [hl]), yields_ok]
  refine yields_eitherTrue h.trail.wf' hfx.small hfy.small (fun _ => trivial) (fun _ => trivial)
    (fun _ => ?_) fun _ _ _ _ => ?_
  · simp only [if_true, ends_pure]
    exact ⟨by simp, h⟩
  · simp only [Bool.false_eq_true, if_false, ends_bind]
    refine (h.bringBack_foreign hc hl).mono ?_
    rintro _ t' ⟨ht, htrail, b, hl'⟩
    exact ht.rewatch_foreign hx hclear hc hl' (by rwa [htrail])

/-- A sweep over clauses that only the second run has. -/
theorem Mirrored.sweepFrom_foreign (h : Mirrored g s s') (hx : g.exact = false)
    (hclear : ¬ g.clear) (hl : g.Foreign l) (hm : l ∈ s'.trail.falsified) (n i : Nat) :
    Ends True R (sweepFrom .all l n i) s' fun r t' => r = .finished ∧ Mirrored g s t' := by
  induction n generalizing i s' with
  | zero => exact ⟨rfl, h⟩
  | succ n ih =>
    simp only [sweepFrom, ends_bind, ends_ask]
    refine (h.watches.watcher_foreign hl i).mono fun w hw => ?_
    rw [if_pos (by rfl), ends_bind]
    refine (h.visit_foreign hx hclear hw hm).run.mono ?_
    rintro v t' ⟨hrun, hv, ht⟩
    have hm' := (climbs_visit l i w.clause hrun hv).1.subset hm
    cases v with
    | kept => exact ih ht hm' (i + 1)
    | moved => exact ih ht hm' i
    | derived => exact ih ht hm' (i + 1)
    | conflict => exact (hv rfl).elim

theorem Mirrored.sweep_foreign (h : Mirrored g s s') (hx : g.exact = false)
    (hclear : ¬ g.clear) (hl : g.Foreign l) (hm : l ∈ s'.trail.falsified) (i : Nat) :
    Ends True R (sweep .all l i) s' fun r t' => r = .finished ∧ Mirrored g s t' := by
  simp only [sweep, ends_bind, ends_ask, h.watches.fits'.length hl.small, yields_ok]
  exact h.sweepFrom_foreign hx hclear hl hm _ i

/-- A sweep that visits all the clauses does not pause. -/
theorem not_paused_of_sweep_all (h : sweep .all l i s = .ok (r, t)) (next : Nat) :
    r ≠ .paused next := by
  obtain ⟨size, s₁, -, hfrom⟩ := bind_eq_ok_iff.mp h
  rintro rfl
  rcases assigned_of_sweepFrom hfrom with hr | ⟨-, hpause⟩
  · cases hr
  · cases (hpause next rfl).1

/-- Both runs stop once neither has a literal left to look at. -/
theorem Mirrored.rounds_done (h : Mirrored g s s') (hx : g.exact = false)
    (hi : s.trail.assigned ≤ i) (hi' : s'.trail.assigned ≤ i') (a b k k' : Nat) :
    Corresponds g.comparison (Engine.rounds a ⟨.all, k, i, 0⟩)
      (Engine.rounds (b + 1) ⟨.all, k', i', 0⟩) s s'
      fun r t r' t' => r' = r ∧ Mirrored g t t' ∧
        (r = .drained → t'.trail.processed = t'.trail.assigned) := by
  cases a with
  | zero => exact corresponds_of_fault hx (Or.inl rfl)
  | succ a =>
    have hround := round_of_le (s := s) ⟨.all, k, i, 0⟩ hi
    have hround' := round_of_le (s := s') ⟨.all, k', i', 0⟩ hi'
    refine corresponds_left_ok (hround.trans rfl) (corresponds_right_ok (hround'.trans rfl) ?_)
    exact ⟨rfl, { h with trail := h.trail.drain }, fun _ => rfl⟩

/-- Without detours, both runs visit the clauses of the literals in common one after the other, and
the second run those of its own literals in between. -/
theorem Mirrored.rounds_all (h : Mirrored g s s') (hx : g.exact = false) (hclear : ¬ g.clear)
    {i' : Nat} (hi : g.Level s'.trail i i') (a b k k' : Nat) :
    Corresponds g.comparison (Engine.rounds a ⟨.all, k, i, 0⟩)
      (Engine.rounds b ⟨.all, k', i', 0⟩) s s'
      fun r t r' t' => r' = r ∧ Mirrored g t t' ∧
        (r = .drained → t'.trail.processed = t'.trail.assigned) := by
  -- The induction is on the rounds of the second run, which takes at least as many.
  induction b generalizing a i i' s s' with
  | zero => exact corresponds_of_fault hx (Or.inr rfl)
  | succ b ih =>
    by_cases hlt' : i' < s'.trail.assigned
    · obtain ⟨l', hl'⟩ : ∃ l', s'.trail.falsified[i']? = some l' :=
        ⟨_, List.getElem?_eq_getElem (by rwa [Trail.length_falsified])⟩
      have hmem' := List.mem_of_getElem? hl'
      have hnext := hi.next hl'
      have hround' := rounds_succ_of_lt (k := b) ⟨.all, k', i', 0⟩ hlt' hl'
      cases ho : g.own l' with
      | true =>
        have hlt := (hi.lt_iff h.trail.top hl' ho).mp hlt'
        obtain ⟨l, hl, hlegal, rfl⟩ := h.trail.exists_own hi hl' ho
        cases a with
        | zero => exact corresponds_of_fault hx (Or.inl rfl)
        | succ a =>
          have hround := rounds_succ_of_lt (k := a) ⟨.all, k, i, 0⟩ hlt hl
          refine corresponds_congr hround hround' ((parallel_sweep .all hlegal 0 h).run.bind ?_)
          rintro _ t r t' ⟨hrun, hrun', rfl, ht⟩
          rw [if_pos ho] at hnext
          cases r with
          | finished =>
            have hpre := (climbs_sweep _ _ _ hrun' (by simp)).1
            exact ih ht (hnext.extend hpre) a
          | paused next => exact (not_paused_of_sweep_all hrun next rfl).elim
          | conflict => exact ⟨rfl, ht, by simp⟩
      | false =>
        have hl : g.Foreign l' := ⟨ho, h.trail.wf'.proper l' hmem', h.trail.wf'.small l' hmem'⟩
        rw [if_neg (by simp [ho])] at hnext
        refine corresponds_congr rfl hround' ?_
        refine corresponds_right hx (h.sweep_foreign hx hclear hl hmem' 0).run ?_
        rintro _ t' ⟨hrun', rfl, ht⟩
        have hpre := (climbs_sweep _ _ _ hrun' (by simp)).1
        exact ih ht (hnext.extend hpre) a
    · have hle' := Nat.not_lt.mp hlt'
      exact h.rounds_done hx (h.trail.top.mono hi hle') hle' a b k k'

theorem Mirrored.saturate_all (h : Mirrored g s s') (hx : g.exact = false) (hclear : ¬ g.clear) :
    Corresponds g.comparison (saturate false) (saturate false) s s' fun r t r' t' =>
      r' = r ∧ Mirrored g t t' ∧ (r = .drained → t'.trail.processed = t'.trail.assigned) := by
  refine corresponds_left_ok rfl (corresponds_right_ok rfl ?_)
  refine corresponds_left_ok rfl (corresponds_right_ok rfl ?_)
  exact h.rounds_all hx hclear h.trail.processed _ _ _ _

end UnsatCore.Engine
