import UnsatCore.Proofs.Forward
import UnsatCore.Proofs.Intake

/-! The first pass. Before each line, every live clause is attached and settled or has a true
literal, so a lemma that is all false without a conflict does not follow, and neither does one at
which the pass goes on past the end. -/
namespace UnsatCore.Engine

open CheckM

variable {L : Ledger} {past : List Frame} {A A' : Set Handle} {s s' : State} {c h : Handle}
  {step : Step} {R : Rejection → State → Prop} {coreFirst : Bool} {l u : Literal}
  {es : List Entry} {n : Nat} {F : Prop} {body : Handle → Clause}

section Addition

variable {kept dropped : Clause} {view : View}

/-- A lemma whose literals that are not false, the ones of `kept`, are in front. -/
structure SortedLemma (L : Ledger) (h : Handle) (s : State) (kept dropped : Clause)
    (view : View) : Prop where
  literals : s.arena.literals h = kept ++ dropped
  size : view.size = kept.length
  satisfied : view.satisfied = true ↔ ∃ l ∈ kept, -l ∈ s.trail.falsified
  unfalsified : ∀ l ∈ kept, l ∉ s.trail.falsified
  falsified : ∀ l ∈ dropped, l ∈ s.trail.falsified
  proper : ∀ l ∈ L.body h, l.Proper

/-- The lemma of the next line has no part in anything yet. -/
theorem Forward.not_involved (hf : Forward L past A s)
    (hs : L.steps[past.length]? = some (.add h)) : ¬ Involved A s.trail.entries h := fun hi =>
  L.not_known hs (hf.restored.chronicle.known hi)

/-- Another arrangement of the literals of a clause that has no part in anything. -/
theorem Forward.rearrange (hf : Forward L past A s)
    (hco : Coherent L.bound L.excuse L.body A s') (heq : s' = { s with arena := s'.arena })
    (hlit : ∀ c ∈ A, s'.arena.literals c = s.arena.literals c)
    (hhas : ∀ d, s'.arena.Has d ↔ s.arena.Has d)
    (hcore : ∀ d, s.arena.Has d → s'.arena.inCore d = s.arena.inCore d) : Forward L past A s' := by
  have htrail : s'.trail = s.trail := by rw [heq]
  have hsteps : s'.steps = s.steps := by rw [heq]
  have hr := hf.restored
  have hres : Restored L past A s' := by
    refine ⟨hco, htrail ▸ hr.chronicle, fun fr hfr c hc hca => ?_, htrail ▸ hr.forced,
      htrail ▸ hr.processed, htrail ▸ hr.unmarked, hsteps ▸ hr.steps,
      hr.records.congr (by rw [heq]) hsteps hhas⟩
    rw [hlit c hc]
    exact hr.boundaries fr hfr c hc hca
  refine ⟨hres, fun c hc => ?_, htrail ▸ hf.anchored, htrail ▸ hf.upheld, fun d hd => ?_, ?_,
    hsteps ▸ hf.rest, hf.nonempty⟩
  · rw [hlit c hc, htrail]
    exact hf.settled c hc
  · have hd := (hhas d).mp hd
    exact (hcore d hd).trans (hf.unneeded d hd)
  · rw [heq]
    exact hf.justified

theorem ends_sortLemma (hf : Forward L past A s) (hs : L.steps[past.length]? = some (.add h)) :
    Ends L.excuse R (sortUnfalsified h) s fun view s' => Forward L past A s' ∧
      s' = { s with arena := s'.arena } ∧ ∃ kept dropped, SortedLemma L h s' kept dropped view := by
  have hco := hf.restored.coherent
  have hnot := hf.not_involved hs
  have hA : h ∉ A := fun hA => hnot (Or.inl hA)
  have hh : s.arena.Has h := hf.restored.has_lemma hs
  refine (ends_sortUnfalsified hco hh hA fun e he hr => hnot (Or.inr ⟨e, he, hr⟩)).mono ?_
  rintro view s' ⟨kept, dropped, hco', heq, hk, hic, hlit, hsorted, hdrop⟩
  have htrail : s'.trail = s.trail := by rw [heq]
  have hf' : Forward L past A s' := by
    refine hf.rearrange hco' heq (fun c hc => ?_) hk.has fun d hd => ?_
    · exact hk.literals c (hco.attached c hc).1 fun he => hA (he ▸ hc)
    · by_cases he : d = h
      · rw [he, hic]
      · exact hk.inCore d hd he
  refine ⟨hf', heq, kept, dropped, hlit, hsorted.size, ?_, ?_, ?_, ?_⟩
  · rw [htrail]
    exact hsorted.satisfied
  · rw [htrail]
    exact fun l hl => (hsorted.mem_iff.mp hl).2
  · rw [htrail]
    exact hdrop
  · intro l hl
    have hl' := (hco.stored.mem_iff hh).mpr hl
    by_cases hfl : l ∈ s.trail.falsified
    · exact hco.trail.proper l hfl
    · exact Stored.proper_literal hh hl' (hsorted.least l (hsorted.mem_iff.mpr ⟨hl', hfl⟩))

theorem ends_leaveOut (hf : Forward L past A s) (hs : L.steps[past.length]? = some (.add h))
    (hsat : ∃ l ∈ L.body h, -l ∈ s.trail.falsified) :
    Ends L.excuse R (leaveOut past.length h) s fun _ s' =>
      ∃ step A', Forward L (⟨step, A, s.trail.entries⟩ :: past) A' s' := by
  simp only [leaveOut, ends_bind, ends_look, ends_emit, revise, ends_modify, ends_count]
  refine ⟨_, _, hf.stay hs (.leftOut hsat) (hf.restored.coherent.congr rfl rfl rfl) .satisfied rfl
    rfl rfl rfl rfl hf.settled hf.anchored ?_ ?_⟩
  · intro k hk
    rcases List.mem_cons.mp hk with rfl | hk
    · exact Or.inr hsat
    · exact hf.upheld_falsified k hk
  · intro k hk
    cases hk
    obtain ⟨l, hl, -⟩ := hsat
    exact List.ne_nil_of_mem hl

theorem ends_attachLong (hs : Coherent n F body A s) (hh : s.arena.Has h) (hA : h ∉ A) :
    Ends F R (attachLong h) s fun _ s' => Coherent n F body (grow body A h) s' ∧
      s' = { s with watches := s'.watches } := by
  simp only [attachLong, watchable, ends_bind, ends_ask, hh.isWatchable, yields_ok, ends_ite,
    decide_eq_true_eq, ends_pure]
  have hlen := hs.stored.length hh
  split
  · rename_i hlong
    rw [grow_eq_insert (hlen ▸ hlong)]
    exact ends_attach hs hh hlong hA
  · rename_i hshort
    rw [grow_eq_self (hlen ▸ hshort)]
    exact ⟨hs, trivial⟩

/-- A lemma that is neither true nor false stays. -/
theorem SortedLemma.became (hsort : SortedLemma L h s kept dropped view) (hf : Forward L past A s)
    (hs : L.steps[past.length]? = some (.add h)) (hsat : ¬ view.satisfied = true)
    (hne : kept ≠ []) : Became L.body s.trail.falsified (.add h) (.add h) := by
  have hh := hf.restored.has_lemma hs
  have hmem : ∀ l, l ∈ L.body h ↔ l ∈ kept ++ dropped := fun l => by
    rw [← hf.restored.coherent.stored.mem_iff hh, hsort.literals]
  obtain ⟨u, hu⟩ := List.exists_mem_of_ne_nil kept hne
  refine .added (fun l hl ht => ?_)
    ⟨u, (hmem u).mpr (List.mem_append_left _ hu), hsort.unfalsified u hu⟩
  rcases List.mem_append.mp ((hmem l).mp hl) with hl | hl
  · exact hsat (hsort.satisfied.mpr ⟨l, hl, ht⟩)
  · exact hf.restored.coherent.trail.not_mem_neg (hsort.falsified l hl) ht

/-- A lemma with two literals that are not false forces nothing. -/
theorem Forward.widen (hf : Forward L past A s) (hs : L.steps[past.length]? = some (.add h))
    (hsort : SortedLemma L h s kept dropped view) (hsat : ¬ view.satisfied = true)
    (hsize : 2 ≤ kept.length)
    (hco : Coherent L.bound L.excuse L.body (grow L.body A h) s')
    (heq : s' = { s with watches := s'.watches }) :
    Forward L (⟨.add h, A, s.trail.entries⟩ :: past) (grow L.body A h) s' := by
  have hh : s.arena.Has h := hf.restored.has_lemma hs
  have hlen := hf.restored.coherent.stored.length hh
  obtain ⟨x, y, more, hkept⟩ := exists_watches hsize
  have hbody : 2 ≤ (L.body h).length := by
    rw [← hlen, hsort.literals, List.length_append]
    omega
  have hne : L.body h ≠ [] := List.ne_nil_of_length_pos (by omega)
  have hcar : Carried L.body (.add h) A s.trail.entries (grow L.body A h)
      (s.trail.entries ++ []) := .add hne hsort.proper (Or.inl rfl) (by simp)
  rw [List.append_nil] at hcar
  have hbe := hsort.became hf hs hsat (by simp [hkept])
  have hsteps : s'.steps = s.steps.setIfInBounds past.length (.add h) := by
    rw [heq]
    exact hf.setIfInBounds_steps hs
  refine hf.stay hs hbe hco hcar (by rw [heq]) (by rw [heq]) (by rw [heq]) (by rw [heq]) hsteps ?_
    ?_ ?_ (fun k hk => by cases hk; exact hne)
  · rintro c (hc | ⟨rfl, -⟩)
    · exact hf.settled c hc
    · rw [hsort.literals, hkept, List.cons_append, List.cons_append]
      exact settled_of_not_mem (hsort.unfalsified x (by simp [hkept]))
        (hsort.unfalsified y (by simp [hkept]))
  · exact fun e he c hr hl => subset_grow (hf.anchored e he c hr hl)
  · intro k hk
    rcases List.mem_cons.mp hk with rfl | hk
    · exact Or.inl (Or.inr ⟨rfl, hbody⟩)
    · exact (hf.upheld_falsified k hk).imp_left subset_grow

/-- The literals of the lemma of the next line are all false in `s`, and there is no conflict. The
pass ends in `s'`. -/
structure Stuck (L : Ledger) (past : List Frame) (s s' : State) : Prop where
  false_lemma : ∃ h, L.steps[past.length]? = some (.add h) ∧ ∀ l ∈ L.body h, l ∈ s.trail.falsified
  steps : s'.steps = s.steps
  unfounded : ∃ c, L.Unfounded past.length c s'

theorem ends_replayEmpty (hb : ∀ s', Stuck L past s s' → R (.conflictNotFound past.length) s')
    (hf : Forward L past A s) (hs : L.steps[past.length]? = some (.add h))
    (hsort : SortedLemma L h s [] dropped view) (heq : s' = { s with watches := s'.watches })
    {Q : Option Refutation → State → Prop} :
    Ends L.excuse R (replayEmpty coreFirst past.length) s' Q := by
  have hco := hf.restored.coherent
  have hh : s.arena.Has h := hf.restored.has_lemma hs
  obtain ⟨c, hline, hbody⟩ := L.addition hs
  simp only [replayEmpty, ends_bind]
  have hw : s'.trail.Wf L.bound := by
    rw [heq]
    exact hco.trail
  refine (ends_saturate_idle hw ?_).mono ?_
  · rw [heq]
    exact hf.restored.processed
  · rintro r s'' ⟨rfl, rfl⟩
    have hfalse : ∀ l ∈ L.body h, l ∈ s.trail.falsified := by
      intro l hl
      rw [← hco.stored.mem_iff hh, hsort.literals] at hl
      exact hsort.falsified l hl
    refine hb _ ⟨⟨h, hs, hfalse⟩, by rw [heq], c, hf.restored.chronicle.unfounded hf.quiet
      (fun l hl => hco.trail.not_mem_neg hl) hline ?_ ?_ ?_ ?_⟩
    · intro l hl
      rw [← Clause.mem_distinct, ← hbody] at hl
      exact hfalse l hl
    · rw [heq]
      exact hf.restored.steps
    · rw [heq]
      exact hco.stored
    · refine hf.restored.records.congr (by rw [heq]) (by rw [heq]) fun _ => ?_
      rw [heq]

/-- What a conflict leaves in the core before anything is checked. -/
theorem Refuted.audited (hr : Refuted L.body A s s')
    (hno : ∀ d, s.arena.Has d → s.arena.inCore d = false) (hj : s.justified = [])
    (hk : ∀ c, Involved A s.trail.entries c → Met L past c)
    (hre : ∀ e ∈ s.trail.entries, e.reason ≠ none) : Audited L past s' := by
  obtain ⟨C, hC, hcore, hg⟩ := hr.conflict
  have hmem : ∀ d, s'.arena.Has d → s'.arena.inCore d = true → d ∈ C := by
    intro d hd hc
    have hd := (hr.has d).mp hd
    rcases (hcore d hd).mp hc with hc | hc
    · rw [hno d hd] at hc
      cases hc
    · exact hc
  have hjust : s'.justified = [] := hr.backtracked.framed.justified.trans hj
  refine ⟨?_, ?_, by simp [hjust], by simp [hjust], C, ?_, ?_⟩
  · exact fun d hd hc => Or.inl (hk d (hC.known d (hmem d hd hc)))
  · exact fun d hd hc => hC.proper d (hmem d hd hc)
  · intro d hd
    exact ⟨(hr.has d).mpr (hC.has d hd), (hcore d (hC.has d hd)).mpr (Or.inr hd)⟩
  · exact fun g hl => hg g _ hl fun e he hn => (hre e he hn).elim

/-- The state in which a lemma has just made its only literal that is not false true. -/
structure Assigned (L : Ledger) (A : Set Handle) (h : Handle) (u : Literal) (s s' : State) :
    Prop where
  coherent : Coherent L.bound L.excuse L.body (grow L.body A h) s'
  framed : Framed s s'
  arena : s'.arena = s.arena
  entries : s'.trail.entries = s.trail.entries ++ [⟨-u, some h⟩]
  processed : s'.trail.processed = s.trail.processed
  forced : s'.trail.forced = s.trail.forced
  unmarked : ∀ m, ¬ s'.trail.Marked m
  poised : Poised (grow L.body A h) s'

theorem Forward.poised (hf : Forward L past A s)
    (hsort : SortedLemma L h s [u] dropped view) (harena : s'.arena = s.arena)
    (hfal : s'.trail.falsified = s.trail.falsified ++ [-u])
    (hproc : s'.trail.processed = s.trail.processed) : Poised (grow L.body A h) s' := by
  intro c hc x y hp hx
  rw [hproc, hf.restored.processed, hfal, ← Trail.length_falsified, List.take_left] at hx
  rw [harena] at hp
  rw [hfal]
  rcases hc with hc | ⟨rfl, -⟩
  · exact List.mem_append_left _ (hf.settled c hc x y hp hx)
  · -- The lemma watches its true literal, and only the other one can be false.
    cases hd : dropped with
    | nil =>
      obtain ⟨more, hl | hl⟩ := hp <;> simp [hsort.literals, hd] at hl
    | cons v more =>
      rw [hsort.literals, hd] at hp
      rcases pair_cons.mp hp with ⟨rfl, -⟩ | ⟨-, rfl⟩
      · exact (hsort.unfalsified x (by simp) hx).elim
      · simp

theorem ends_assign_unit (hf : Forward L past A s) (hs : L.steps[past.length]? = some (.add h))
    (hsort : SortedLemma L h s [u] dropped view) (hsat : ¬ view.satisfied = true)
    (hco : Coherent L.bound L.excuse L.body (grow L.body A h) s')
    (heq : s' = { s with watches := s'.watches }) :
    Ends L.excuse R (onTrail (·.assign u (some h))) s' fun _ s'' =>
      Assigned L A h u s s'' := by
  have hh : s'.arena.Has h := by
    rw [heq]
    exact hf.restored.has_lemma hs
  have hlit : s'.arena.literals h = u :: dropped := by
    rw [heq]
    exact hsort.literals
  have htrail : s'.trail = s.trail := by rw [heq]
  have hmem : u ∈ s'.arena.literals h := by simp [hlit]
  have hfu : u ∉ s'.trail.falsified := by
    rw [htrail]
    exact hsort.unfalsified u (by simp)
  have htu : -u ∉ s'.trail.falsified := by
    rw [htrail]
    exact fun ht => hsat (hsort.satisfied.mpr ⟨u, by simp, ht⟩)
  have hproper := hsort.proper u ((hco.stored.mem_iff hh).mp hmem)
  obtain ⟨t, hassign, hw, hent, hp, hfo, hmk⟩ := hco.trail.assign hproper
    (hco.stored.small_literal hh hmem) hfu htu (some h)
  have hfal : t.falsified = s.trail.falsified ++ [-u] := by
    rw [← Trail.map_literal_entries, hent, htrail]
    simp
  have hgr : Grounded s'.arena t.entries := by
    rw [hent]
    apply hco.grounded.push
    intro c hc
    cases hc
    refine ⟨hh, dropped, by simpa using hlit, ?_⟩
    rw [Trail.map_literal_entries, htrail]
    exact hsort.falsified
  have harena : s'.arena = s.arena := by rw [heq]
  simp only [ends_onTrail, hassign, yields_ok]
  refine ⟨hco.withTrail hw hgr, ?_, harena, htrail ▸ hent, htrail ▸ hp, htrail ▸ hfo,
    fun m hm => hf.restored.unmarked m (htrail ▸ (hmk m).mp hm),
    hf.poised hsort harena hfal (htrail ▸ hp)⟩
  rw [heq]
  exact ⟨rfl, rfl, rfl, rfl⟩

/-- Unit propagation met a conflict after the lemma `h`, and the trail is what it was before. -/
structure Overturned (L : Ledger) (past : List Frame) (A : Set Handle) (h : Handle)
    (s s' : State) : Prop where
  restored : Restored L (⟨.add h, A, s.trail.entries⟩ :: past) (grow L.body A h) s'
  audited : Audited L (⟨.add h, A, s.trail.entries⟩ :: past) s'
  entries : s'.trail.entries = s.trail.entries
  steps : s'.steps = s.steps
  conflict : Conflicting ((h :: aliveAfter L.origins (carriedOut past)).map L.body) fun _ => False

theorem Overturned.noted (ho : Overturned L past A h s s') (log : Log) :
    Overturned L past A h s { s' with log } :=
  ⟨ho.restored.noted s'.justified s'.counters log, ho.audited.noted s'.counters log, ho.entries,
    ho.steps, ho.conflict⟩

/-- What is attached or a reason is live. -/
theorem Forward.alive_of_involved (hf : Forward L past A s) (hi : Involved A s.trail.entries c) :
    c ∈ aliveAfter L.origins (carriedOut past) :=
  hf.restored.chronicle.alive_of_involved
    (fun _ he _ hr => hf.restored.coherent.neg_mem_of_reason he hr) hi

theorem lists_map {C : Set Handle} {hs : List Handle} (hC : ∀ d ∈ C, d ∈ hs) :
    Lists body C (hs.map body) := fun d hd =>
  ⟨body d, List.mem_map_of_mem (hC d hd), Clause.Same.refl _⟩

namespace Assigned

variable {s₁ s₂ : State}

theorem involved (ha : Assigned L A h u s s₁)
    (hi : Involved (grow L.body A h) s₁.trail.entries c) :
    Involved A s.trail.entries c ∨ c = h := by
  rcases hi with (hi | ⟨rfl, -⟩) | ⟨e, he, hr⟩
  · exact Or.inl (Or.inl hi)
  · exact Or.inr rfl
  · rw [ha.entries] at he
    rcases List.mem_append.mp he with he | he
    · exact Or.inl (Or.inr ⟨e, he, hr⟩)
    · cases List.mem_singleton.mp he
      cases hr
      exact Or.inr rfl

theorem anchored (ha : Assigned L A h u s s₁) (hf : Forward L past A s) :
    Anchored L.body (grow L.body A h) s₁.trail.entries := by
  intro e he c hr hlen
  rw [ha.entries] at he
  rcases List.mem_append.mp he with he | he
  · exact subset_grow (hf.anchored e he c hr hlen)
  · cases List.mem_singleton.mp he
    cases hr
    exact Or.inr ⟨rfl, hlen⟩

theorem assigned_eq (ha : Assigned L A h u s s₁) :
    s₁.trail.assigned = s.trail.assigned + 1 := by
  rw [← Trail.length_entries, ha.entries, List.length_append, Trail.length_entries]
  rfl

theorem nonempty (hf : Forward L past A s) (hs : L.steps[past.length]? = some (.add h))
    (hsort : SortedLemma L h s [u] dropped view) : u ∈ L.body h := by
  have hh : s.arena.Has h := hf.restored.has_lemma hs
  rw [← hf.restored.coherent.stored.mem_iff hh, hsort.literals]
  simp

theorem reason_ne_none (ha : Assigned L A h u s s₁) (hf : Forward L past A s) :
    ∀ e ∈ s₁.trail.entries, e.reason ≠ none := by
  intro e he
  rw [ha.entries] at he
  rcases List.mem_append.mp he with he | he
  · exact hf.restored.chronicle.reason_ne_none e he
  · cases List.mem_singleton.mp he
    simp

/-- The live clauses and the lemma are in conflict. -/
theorem conflicting (ha : Assigned L A h u s s₁) (hf : Forward L past A s)
    (hr : Refuted L.body (grow L.body A h) s₁ s₂) :
    Conflicting ((h :: aliveAfter L.origins (carriedOut past)).map L.body) fun _ => False := by
  obtain ⟨C, hC, -, hg⟩ := hr.conflict
  refine hg _ _ (lists_map fun d hd => ?_) fun e he hn => (ha.reason_ne_none hf e he hn).elim
  rcases ha.involved (hC.known d hd) with hi | rfl
  · exact List.mem_cons_of_mem _ (hf.alive_of_involved hi)
  · exact List.mem_cons_self

/-- A conflict takes the trail back to what it was before the line. -/
theorem conflict (ha : Assigned L A h u s s₁) (hf : Forward L past A s)
    (hs : L.steps[past.length]? = some (.add h)) (hsort : SortedLemma L h s [u] dropped view)
    (hsat : ¬ view.satisfied = true) (hr : Refuted L.body (grow L.body A h) s₁ s₂)
    (hco : Coherent L.bound L.excuse L.body (grow L.body A h) s₂) :
    Overturned L past A h s s₂ := by
  have hb := hr.backtracked
  have hforced : s₁.trail.forced = s.trail.entries.length := by
    rw [ha.forced, hf.restored.forced, Trail.length_entries]
  have hent : s₂.trail.entries = s.trail.entries := by
    rw [hb.entries, hforced, ha.entries, List.take_left]
  have hsize : s₂.trail.assigned = s.trail.assigned := by
    rw [← Trail.length_entries, hent, Trail.length_entries]
  have hback : s₁.trail.forced = s₂.trail.assigned := by
    rw [hforced, hsize, Trail.length_entries]
  have hcar : Carried L.body (.add h) A s.trail.entries (grow L.body A h) s₂.trail.entries := by
    have hadd : Carried L.body (.add h) A s.trail.entries (grow L.body A h)
        (s.trail.entries ++ []) :=
      .add (List.ne_nil_of_mem (nonempty hf hs hsort)) hsort.proper (Or.inl rfl) (by simp)
    rw [hent]
    rwa [List.append_nil] at hadd
  have hsteps : s₂.steps = s.steps := hb.framed.steps.trans ha.framed.steps
  refine ⟨hf.record hs (hsort.became hf hs hsat (by simp)) hco hcar ?_ (hb.forced.trans hback)
    (hb.processed.trans hback) ?_ ?_ (hb.framed.origins.trans ha.framed.origins)
    (fun d => (hr.has d).trans (by rw [ha.arena])), ?_, hent, hsteps, ha.conflicting hf hr⟩
  · intro c hc _ es he hset
    exact hr.settled_of_isPrefix hc (hent ▸ he) (ha.arena ▸ hset)
  · exact fun m hm => hb.unmarked m (hco.trail.mem_of_marked hm) hm
  · rw [hsteps]
    exact hf.setIfInBounds_steps hs
  · refine hr.audited ?_ (ha.framed.justified.trans hf.justified) ?_ (ha.reason_ne_none hf)
    · rw [ha.arena]
      exact hf.unneeded
    · intro c hc
      rcases ha.involved hc with hc | rfl
      · exact (hf.restored.chronicle.met hc).cons
      · exact met_cons.mpr (Or.inr rfl)

theorem drained (ha : Assigned L A h u s s₁) (hf : Forward L past A s)
    (hs : L.steps[past.length]? = some (.add h)) (hsort : SortedLemma L h s [u] dropped view)
    (hsat : ¬ view.satisfied = true) (hd : Drained (grow L.body A h) s₁ s₂)
    (hco : Coherent L.bound L.excuse L.body (grow L.body A h) s₂) :
    Forward L (⟨.add h, A, s.trail.entries⟩ :: past) (grow L.body A h)
      { s₂ with trail := { s₂.trail with forced := s₂.trail.processed } } := by
  have hg := hd.grew
  have hmem := nonempty hf hs hsort
  obtain ⟨new, hent, hnew⟩ := hg.entries
  rw [ha.entries, List.append_assoc, List.singleton_append] at hent
  have hfal : ∀ l, l ∈ s.trail.falsified ∨ l = -u → l ∈ s₂.trail.falsified := by
    intro l hl
    rw [Trail.falsified_of_append hent, List.map_cons, List.mem_append, List.mem_cons]
    exact hl.imp_right Or.inl
  have hcar : Carried L.body (.add h) A s.trail.entries (grow L.body A h) s₂.trail.entries := by
    rw [hent]
    refine .add (List.ne_nil_of_mem hmem) hsort.proper (Or.inr ⟨u, new, rfl⟩) ?_
    intro e he
    rcases List.mem_cons.mp he with rfl | he
    · exact ⟨h, rfl, Or.inl rfl⟩
    · obtain ⟨c, hc, hr⟩ := hnew e he
      rcases hc with hc | ⟨rfl, -⟩
      · exact ⟨c, hr, Or.inr hc⟩
      · exact ⟨c, hr, Or.inl rfl⟩
  have hhas : ∀ d, s₂.arena.Has d ↔ s.arena.Has d := fun d =>
    (hg.has d).trans (by rw [ha.arena])
  have hsteps : s₂.steps = s.steps := hg.framed.steps.trans ha.framed.steps
  have hset := hsteps.trans (hf.setIfInBounds_steps hs)
  refine hf.next hs (hf.record hs (hsort.became hf hs hsat (by simp))
    (hco.bounds s₂.trail.processed s₂.trail.processed) hcar ?_ hd.processed hd.processed
    (fun m hm => ha.unmarked m (hg.marked m hm)) hset (hg.framed.origins.trans ha.framed.origins)
    hhas) hd.settled (hg.anchored (ha.anchored hf)) ?_ hhas ?_
    (hg.framed.justified.trans ha.framed.justified) hset
    (fun k hk => by cases hk; exact List.ne_nil_of_mem hmem)
  · intro c hc _ es he hset
    refine hg.settled_of_isPrefix hc ?_ (ha.arena ▸ hset)
    rw [ha.entries]
    exact he.trans (List.prefix_append _ _)
  · intro k hk
    rcases List.mem_cons.mp hk with rfl | hk
    · exact Or.inr ⟨u, hmem, hfal _ (Or.inr rfl)⟩
    · rcases hf.upheld_falsified k hk with hA | ⟨l, hl, ht⟩
      · exact Or.inl (subset_grow hA)
      · exact Or.inr ⟨l, hl, hfal _ (Or.inl ht)⟩
  · intro d hd
    rw [← ha.arena] at hd ⊢
    exact hg.inCore d hd

end Assigned

/-- What came of a line: the pass goes on, or it met a conflict. -/
def Replayed (L : Ledger) (past : List Frame) (A : Set Handle) (s s' : State) :
    Option Refutation → Prop
  | none => ∃ step A', Forward L (⟨step, A, s.trail.entries⟩ :: past) A' s'
  | some result => result = .step past.length ∧
      ∃ h, L.steps[past.length]? = some (.add h) ∧ Overturned L past A h s s'

theorem ends_replayUnit (hf : Forward L past A s) (hs : L.steps[past.length]? = some (.add h))
    (hsort : SortedLemma L h s [u] dropped view) (hsat : ¬ view.satisfied = true)
    (hco : Coherent L.bound L.excuse L.body (grow L.body A h) s')
    (heq : s' = { s with watches := s'.watches }) :
    Ends L.excuse R (replayUnit coreFirst past.length h) s' fun r s'' =>
      Replayed L past A s s'' r := by
  have hh : s'.arena.Has h := by
    rw [heq]
    exact hf.restored.has_lemma hs
  have hlit : s'.arena.literals h = u :: dropped := by
    rw [heq]
    exact hsort.literals
  simp only [replayUnit, literalOf, ends_bind, ends_ask,
    hh.literal (i := 0) (l := u) (by simp [hlit]), yields_ok]
  refine (ends_assign_unit hf hs hsort hsat hco heq).mono ?_
  rintro - s₁ ha
  have hsize := ha.assigned_eq
  have hfo : s₁.trail.forced ≤ s₁.trail.assigned := by
    rw [ha.forced, hf.restored.forced]
    omega
  have hpr : s₁.trail.processed ≤ s₁.trail.assigned := by
    rw [ha.processed, hf.restored.processed]
    omega
  refine (ends_saturate ha.coherent (ha.anchored hf) hfo hpr ha.poised).mono ?_
  rintro r s₂ ⟨hco₂, hr⟩
  cases r with
  | conflict => exact ⟨rfl, h, hs, (ha.conflict hf hs hsort hsat hr hco₂).noted _⟩
  | drained => exact ⟨_, _, ha.drained hf hs hsort hsat hr hco₂⟩

/-- Only the trail and the record of the lines matter to what comes of a line. -/
theorem Replayed.congr {s₁ : State} {r : Option Refutation} (hr : Replayed L past A s₁ s' r)
    (ht : s₁.trail = s.trail) (hst : s₁.steps = s.steps) : Replayed L past A s s' r := by
  cases r with
  | none =>
    obtain ⟨step, A', hf⟩ := hr
    exact ⟨step, A', ht ▸ hf⟩
  | some result =>
    obtain ⟨he, h, hs, ho⟩ := hr
    exact ⟨he, h, hs, ht ▸ ho.restored, ht ▸ ho.audited, ht ▸ ho.entries, ho.steps.trans hst,
      ho.conflict⟩

theorem ends_replayLemma (hb : ∀ s', Stuck L past s s' → R (.conflictNotFound past.length) s')
    (hf : Forward L past A s) (hs : L.steps[past.length]? = some (.add h)) :
    Ends L.excuse R (replayLemma coreFirst past.length h) s fun r s' =>
      Replayed L past A s s' r := by
  simp only [replayLemma, ends_bind]
  refine (ends_sortLemma hf hs).mono ?_
  rintro view s₁ ⟨hf₁, heq₁, kept, dropped, hsort⟩
  have ht₁ : s₁.trail = s.trail := by rw [heq₁]
  have hst₁ : s₁.steps = s.steps := by rw [heq₁]
  have hh : s₁.arena.Has h := hf₁.restored.has_lemma hs
  simp only [ends_ite, ends_bind]
  split
  · rename_i hsat
    obtain ⟨l, hl, ht⟩ := hsort.satisfied.mp hsat
    refine (ends_leaveOut hf₁ hs ⟨l, ?_, ht⟩).mono fun _ s' hs' =>
      Replayed.congr (r := none) hs' ht₁ hst₁
    rw [← hf₁.restored.coherent.stored.mem_iff hh, hsort.literals]
    exact List.mem_append_left _ hl
  · rename_i hsat
    have hA : h ∉ A := fun hA => hf₁.not_involved hs (Or.inl hA)
    refine (ends_attachLong hf₁.restored.coherent hh hA).mono ?_
    rintro - s₂ ⟨hco, heq⟩
    rcases kept with _ | ⟨u, _ | ⟨y, more⟩⟩
    · rw [hsort.size]
      refine ends_replayEmpty (fun s' hst => hb s' ⟨?_, hst.steps.trans hst₁, hst.unfounded⟩) hf₁ hs
        hsort heq
      rw [← ht₁]
      exact hst.false_lemma
    · rw [hsort.size]
      exact (ends_replayUnit hf₁ hs hsort hsat hco heq).mono fun _ _ hr => hr.congr ht₁ hst₁
    · rw [hsort.size]
      exact Replayed.congr (r := none) ⟨_, _, hf₁.widen hs hsort hsat (by simp) hco heq⟩ ht₁ hst₁

end Addition

theorem ends_replayStep (hb : ∀ s', Stuck L past s s' → R (.conflictNotFound past.length) s')
    (hf : Forward L past A s) (hs : L.steps[past.length]? = some step) :
    Ends L.excuse R (replayStep coreFirst past.length step) s fun r s' =>
      Replayed L past A s s' r := by
  have hlt := Forward.length_lt hs
  have hread := L.transcript.read past.length _ _ (List.getElem?_eq_getElem hlt) hs
  cases step with
  | add h => exact ends_replayLemma hb hf hs
  | delete h =>
    simp only [replayStep, ends_bind, ends_pure]
    exact (ends_replayDelete hf hs).mono fun _ s' hs' => hs'
  | satisfied h => cases hl : L.lines[past.length] <;> simp [hl, ReadAs] at hread
  | ignored =>
    exact ⟨_, _, hf.stay hs .ignored hf.restored.coherent .ignored rfl rfl rfl rfl
      (hf.setIfInBounds_steps hs) hf.settled hf.anchored hf.upheld_falsified (by simp)⟩

/-- A pass that comes to the end of the lines has read no empty lemma. -/
theorem Forward.no_empty (hf : Forward L past A s) (hend : L.steps.length ≤ past.length) :
    .add [] ∉ L.lines := by
  intro hm
  obtain ⟨i, hi, he⟩ := List.getElem_of_mem hm
  have hi' : i < L.steps.length := by
    rw [L.transcript.length]
    exact hi
  have hread := L.transcript.read i _ _ (List.getElem?_eq_getElem hi) (List.getElem?_eq_getElem hi')
  cases hs : L.steps[i] with
  | add h =>
    rw [he, hs] at hread
    refine hf.nonempty i (by omega) h (by rw [List.getElem?_eq_getElem hi', hs]) hread
  | delete h => simp [he, hs, ReadAs] at hread
  | satisfied h => simp [he, hs, ReadAs] at hread
  | ignored => simp [he, hs, ReadAs] at hread

theorem ends_replayFrom {rest : List Step} (hb : L.Blames R) (hf : Forward L past A s)
    (hrest : L.steps.drop past.length = rest) :
    Ends L.excuse R (replayFrom coreFirst past.length rest) s fun r s' =>
      ∃ past A, past ≠ [] ∧ r = .step (past.length - 1) ∧ Restored L past A s' ∧
        Audited L past s' := by
  induction rest generalizing past A s with
  | nil => exact hb.noConflict s (hf.no_empty (List.drop_eq_nil_iff.mp hrest))
  | cons step rest ih =>
    have hs : L.steps[past.length]? = some step := by
      rw [← List.head?_drop, hrest]
      rfl
    simp only [replayFrom, ends_bind]
    have hblame : ∀ s', Stuck L past s s' → R (.conflictNotFound past.length) s' := by
      intro s' hst
      obtain ⟨c, hu⟩ := hst.unfounded
      exact hb.notFound _ c s' hu
    refine (ends_replayStep hblame hf hs).mono ?_
    intro r s' hr
    cases r with
    | none =>
      obtain ⟨step', A', hf'⟩ := hr
      refine ih hf' ?_
      rw [List.length_cons, ← List.drop_drop, hrest]
      rfl
    | some result =>
      obtain ⟨rfl, h, -, ho⟩ := hr
      exact ⟨_, _, by simp, by simp, ho.restored, ho.audited⟩

section Start

variable {f : Formula} {lines : Derivation}

/-- The ledger of a state in which everything is read. -/
def Loaded.ledger (hs : Loaded n F f lines s) : Ledger :=
  ⟨n, F, s.arena.literals, s.origins.toList, f, lines, s.steps.toList, hs.transcript⟩

theorem Loaded.records (hs : Loaded n F f lines s) : hs.ledger.Records s := by
  refine ⟨rfl, hs.has, Array.length_toList.symm, fun i orig step ho hs' => ?_⟩
  have ho : s.steps.toList[i]? = some orig := ho
  rw [Array.getElem?_toList, hs', Option.some_inj] at ho
  exact ho ▸ .same step

/-- The attached clauses and the reasons are of the formula. -/
theorem Loaded.involved (hs : Loaded n F f lines s)
    (hi : Involved (longOf s.arena s.origins.toList) s.trail.entries c) :
    c ∈ s.origins.toList := by
  rcases hi with hi | ⟨e, he, hr⟩
  · exact hi.1
  · obtain ⟨h, hh, hr', -⟩ := hs.forcing e he
    rw [hr] at hr'
    cases hr'
    exact hh

theorem Loaded.reason_ne_none (hs : Loaded n F f lines s) :
    ∀ e ∈ s.trail.entries, e.reason ≠ none := by
  intro e he
  obtain ⟨h, -, hr, -⟩ := hs.forcing e he
  simp [hr]

theorem Loaded.anchored (hs : Loaded n F f lines s) :
    Anchored s.arena.literals (longOf s.arena s.origins.toList) s.trail.entries := by
  intro e he c hr hlen
  exact ⟨hs.involved (Or.inr ⟨e, he, hr⟩), hlen⟩

theorem Loaded.poised (hs : Loaded n F f lines s) :
    Poised (longOf s.arena s.origins.toList) s := by
  intro c _ x y _ hx
  simp [hs.processed] at hx

/-- The formula alone is refuted. -/
theorem Loaded.conflict (hs : Loaded n F f lines s)
    (hco : Coherent n F s.arena.literals (longOf s.arena s.origins.toList) s')
    (hr : Refuted s.arena.literals (longOf s.arena s.origins.toList) s s') :
    Restored hs.ledger [] (longOf s.arena s.origins.toList) s' ∧ Audited hs.ledger [] s' ∧
      Conflicting (hs.ledger.origins.map hs.ledger.body) fun _ => False := by
  have hb := hr.backtracked
  have hent : s'.trail.entries = [] := by simp [hb.entries, hs.forced]
  have hsize : s'.trail.assigned = 0 := by
    rw [← Trail.length_entries, hent]
    rfl
  refine ⟨⟨hco, ?_, by simp, ?_, ?_, ?_, by simp, ?_⟩, ?_, ?_⟩
  · rw [hent]
    exact ⟨fun c => Iff.rfl, by simp⟩
  · rw [hb.forced, hs.forced, hsize]
  · rw [hb.processed, hs.forced, hsize]
  · exact fun m hm => hb.unmarked m (hco.trail.mem_of_marked hm) hm
  · exact hs.records.congr hb.framed.origins hb.framed.steps hr.has
  · refine Refuted.audited (L := hs.ledger) hr hs.unneeded hs.justified ?_ hs.reason_ne_none
    exact fun c hc => Or.inl (hs.involved hc)
  · obtain ⟨C, hC, -, hg⟩ := hr.conflict
    exact hg _ _ (lists_map fun d hd => hs.involved (hC.known d hd))
      fun e he hn => (hs.reason_ne_none e he hn).elim

/-- The formula alone is propagated without a conflict. -/
theorem Loaded.forward (hs : Loaded n F f lines s)
    (hco : Coherent n F s.arena.literals (longOf s.arena s.origins.toList) s')
    (hd : Drained (longOf s.arena s.origins.toList) s s') :
    Forward hs.ledger [] (longOf s.arena s.origins.toList)
      { s' with trail := { s'.trail with forced := s'.trail.processed } } := by
  have hg := hd.grew
  obtain ⟨new, hent, hnew⟩ := hg.entries
  obtain ⟨added, hfal⟩ := hg.falsified
  refine ⟨⟨hco.bounds s'.trail.processed s'.trail.processed, ⟨fun c => Iff.rfl, ?_⟩, by simp,
    hd.processed, hd.processed, fun m hm => hs.unmarked m (hg.marked m hm), by simp,
    hs.records.congr hg.framed.origins hg.framed.steps hg.has⟩, hd.settled,
    hg.anchored hs.anchored, ?_, ?_, ?_, ?_, by simp⟩
  · intro e he
    have he : e ∈ s.trail.entries ++ new := hent ▸ he
    rcases List.mem_append.mp he with he | he
    · obtain ⟨c, hc, hr, -⟩ := hs.forcing e he
      exact ⟨c, hc, hr⟩
    · obtain ⟨c, hc, hr⟩ := hnew e he
      exact ⟨c, hc.1, hr⟩
  · intro h hh
    have hh : h ∈ s.origins.toList := hh
    match hl : s.arena.literals h with
    | [] => exact (hs.nonempty h hh hl).elim
    | [l] =>
      refine Or.inr ⟨l, ?_, ?_⟩
      · show l ∈ s.arena.literals h
        simp [hl]
      · show -l ∈ s'.trail.entries.map Entry.literal
        rw [Trail.map_literal_entries, hfal]
        exact List.mem_append_left _ (hs.unit h hh l hl)
    | x :: y :: rest => exact Or.inl ⟨hh, by simp [hl]⟩
  · intro h hh
    have hh := (hg.has h).mp hh
    exact (hg.inCore h hh).trans (hs.unneeded h hh)
  · exact hg.framed.justified.trans hs.justified
  · exact congrArg (List.drop 0 ·.toList) hg.framed.steps

/-- How the first pass ends: with a conflict after some line, or before the first one. -/
theorem ends_replay (hs : Loaded n F f lines s) (hb : hs.ledger.Blames R) :
    Ends F R (replay coreFirst) s fun r s' => ∃ past A, Restored hs.ledger past A s' ∧
      Audited hs.ledger past s' ∧
      match r with
      | .formula => past = []
      | .step i => past.length = i + 1 := by
  simp only [replay, ends_bind]
  refine (ends_saturate hs.coherent hs.anchored (by simp [hs.forced]) (by simp [hs.processed])
    hs.poised).mono ?_
  rintro r s₁ ⟨hco, hr⟩
  cases r with
  | conflict =>
    obtain ⟨hres, haud, -⟩ := hs.conflict hco hr
    exact ⟨[], _, hres.noted _ _ _, haud.noted _ _, rfl⟩
  | drained =>
    simp only [ends_bind, ends_fixProcessed, ends_look]
    have hf := hs.forward hco hr
    refine (ends_replayFrom hb hf hf.rest.symm).mono ?_
    rintro r s' ⟨past, A, hne, rfl, hres, haud⟩
    refine ⟨past, A, hres, haud, ?_⟩
    have hpos := List.length_pos_of_ne_nil hne
    show past.length = past.length - 1 + 1
    omega

end Start

end UnsatCore.Engine
