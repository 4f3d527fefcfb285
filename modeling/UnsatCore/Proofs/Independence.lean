import UnsatCore.Proofs.Moments
import UnsatCore.Proofs.Sifting

/-! The lines after the one that meets the conflict do not matter: every derivation that begins with
the same lines gives the same result. -/
namespace UnsatCore

namespace Engine

open CheckM

variable {k : Bond} {s s' t t' : State} {f : Formula} {d more : Derivation} {i n : Nat}
  {settings : Settings} {line : Derivation.Line} {coreFirst : Bool} {a b : Arena} {h : Handle}
  {x c : Clause} {r : Refutation}

section Appending

/-- Nothing is read after the empty lemma. -/
theorem readLines_append_of_mem (hm : .add [] ∈ d) :
    readLines settings i (d ++ more) s = readLines settings i d s := by
  induction d generalizing i s with
  | nil => cases hm
  | cons line d ih =>
    refine bind_congr_ok rfl fun last t hrun => ?_
    cases last with
    | true => rfl
    | false =>
      refine ih ?_
      rcases List.mem_cons.mp hm with rfl | hm
      · exact absurd ((readLine_last hrun).mpr rfl) (by simp)
      · exact hm

theorem readLines_append (hm : .add [] ∉ d) :
    readLines settings i (d ++ more) s =
      (readLines settings i d >>= fun _ => readLines settings (i + d.length) more) s := by
  induction d generalizing i s with
  | nil => rfl
  | cons line d ih =>
    rw [readLines, bind_assoc]
    refine bind_congr_ok rfl fun last t hrun => ?_
    cases last with
    | true => exact absurd ((readLine_last hrun).mp rfl ▸ List.mem_cons_self) hm
    | false =>
      refine (ih (i := i + 1) fun hd => hm (List.mem_cons_of_mem line hd)).trans ?_
      rw [List.length_cons, Nat.add_right_comm, Nat.add_assoc]
      rfl

end Appending

section Beside

/-- Clauses and lines that are not in common may come. -/
def Bond.loosen (k : Bond) : Bond := { k with exact := False, whole := False }

theorem Twin.loosen (ht : Twin k s s') : Twin k.loosen s s' :=
  ⟨ht.trail, ht.watches, ht.arena, ht.origins, ht.known, ht.steps, ht.counters, False.elim,
    False.elim⟩

/-- The second run reads a line that does not matter. -/
theorem Twin.beside {counters : Counters} {index : ClauseIndex} {log : Log} (ht : Twin k s s')
    (hx : ¬ k.exact) (hw : ¬ k.whole) (ha : Arena.Twin k.bound k.size s.arena a)
    (hc : counters.within k.scope = s'.counters.within k.scope) (step : Step) :
    Twin k s { s' with
      arena := a, counters, index, log, steps := s'.steps.push step } :=
  ⟨ht.trail, ht.watches, ha, ht.origins, ht.known, ht.steps.push_right step,
    hc.trans ht.counters, fun h => (hx h).elim, fun h => (hw h).elim⟩

theorem ends_resolve_frame : Ends True (fun _ _ => True) (resolve settings i c x) s
    fun _ t => ∃ log index, t = { s with log, index } := by
  simp only [resolve, ends_ite, ends_pure, ends_bind, ends_look]
  split
  · exact ⟨s.log, s.index, rfl⟩
  · cases s.index.lookup? s.arena x with
    | some found =>
      simp only [resolveMatch, ends_ite, ends_bind, ends_emit, ends_modify, ends_pure]
      split
      · exact ⟨_, s.index, rfl⟩
      · exact ⟨s.log, _, rfl⟩
    | none =>
      simp only [resolveUnmatched, ends_ite, ends_bind, ends_emit, ends_pure, ends_reject]
      split
      · trivial
      · exact ⟨_, s.index, rfl⟩

theorem Twin.ends_readLine (ht : Twin k s s') (hx : ¬ k.exact) (hw : ¬ k.whole)
    (hv : k.scope = .work) :
    Ends True (fun _ _ => True) (Engine.readLine settings i line) s' fun _ t' => Twin k s t' := by
  simp only [Engine.readLine, ends_bind]
  refine ends_normalize (fun _ => trivial) fun hz log => ?_
  cases line with
  | delete c =>
    simp only [Engine.readDeletion, ends_bind, ends_count]
    refine ends_resolve_frame.mono ?_
    rintro step t ⟨log, index, rfl⟩
    rw [ends_when]
    simp only [ends_ite, ends_count, ends_pure, recordStep, ends_modify]
    split
    · exact ht.beside hx hw ht.arena (by rw [hv]; rfl) step
    · exact ht.beside hx hw ht.arena (by rw [hv]; rfl) step
  | add c =>
    simp only [Engine.readLemma, ends_bind, ends_count]
    refine ends_store_grown ht.arena.wf' (hasZero_distinct hz) (fun _ => trivial) fun h b hg => ?_
    rw [recordStep, ends_modify, ends_when]
    simp only [ends_ite, ends_emit, ends_pure]
    split
    · exact ht.beside hx hw (ht.arena.grown hg) (by rw [hv]; rfl) (.add h)
    · exact ht.beside hx hw (ht.arena.grown hg) (by rw [hv]; rfl) (.add h)

theorem Twin.ends_readLines (ht : Twin k s s') (hx : ¬ k.exact) (hw : ¬ k.whole)
    (hv : k.scope = .work) :
    Ends True (fun _ _ => True) (Engine.readLines settings i more) s' fun _ t' => Twin k s t' := by
  induction more generalizing i s' with
  | nil => exact ht
  | cons line more ih =>
    simp only [Engine.readLines, ends_bind]
    refine (ht.ends_readLine hx hw hv).mono fun last t' ht' => ?_
    simp only [ends_ite, ends_pure]
    split
    · exact ht'
    · exact ih ht'

end Beside

section Loading

theorem load_eq_ok_iff : load settings f d s = .ok (.ready, t) ↔ ∃ s₁ s₂,
    readFormula 0 f { s with log := s.log.push (.started f.length d.length) } = .ok (.ready, s₁) ∧
    readLines settings 0 d s₁ = .ok ((), s₂) ∧
    t = { s₂ with
      log := s₂.log.push (.derivationRead s₂.steps.size d.length s₂.counters) } := by
  constructor
  · intro h
    obtain ⟨⟨⟩, s₀, hemit, h⟩ := bind_eq_ok_iff.mp h
    cases hemit
    obtain ⟨result, s₁, hformula, h⟩ := bind_eq_ok_iff.mp h
    cases result with
    | trivial => cases h
    | ready =>
      obtain ⟨⟨⟩, s₃, hread, h⟩ := bind_eq_ok_iff.mp h
      cases h
      obtain ⟨⟨⟩, s₂, hlines, h⟩ := bind_eq_ok_iff.mp hread
      cases h
      exact ⟨s₁, s₂, hformula, hlines, rfl⟩
  · rintro ⟨s₁, s₂, hformula, hlines, rfl⟩
    refine (bind_of_ok rfl).trans ((bind_of_ok hformula).trans ?_)
    exact bind_of_ok (bind_of_ok hlines)

theorem run_eq_load (settings : Settings) (f : Formula) (d : Derivation) :
    run settings f d = load settings f d >>= fun r =>
      match r with
      | .trivial => concludeTrivial
      | .ready => pursue settings.coreFirst f (d.map Derivation.Line.clause).toArray := by
  simp only [run, load, bind_assoc]
  refine congrArg (emit _ >>= ·) (funext fun _ => congrArg (readFormula 0 f >>= ·) (funext ?_))
  rintro (_ | _)
  · rfl
  · simp only [refute, bind_assoc, pure_bind]
    rfl

theorem run_of_load (h : load settings f d s = .ok (.ready, t)) :
    run settings f d s =
      pursue settings.coreFirst f (d.map Derivation.Line.clause).toArray t := by
  rw [run_eq_load, bind_of_ok h]

/-- A derivation that can be read can be read up to any of its lines, to a twin state. -/
theorem exists_twin_of_load
    (hload : load settings f (d ++ more) (.initial (maxVar f (d ++ more))) = .ok (.ready, s')) :
    ∃ s k, load settings f d (.initial (maxVar f d)) = .ok (.ready, s) ∧ Twin k s s' ∧
      k.kept = (fun _ => true) ∧ k.scope = .work ∧ k.lines ≤ d.length ∧
      (k.whole ∨ k.lines = d.length) := by
  obtain ⟨s₁', s₂', hformula', hlines', rfl⟩ := load_eq_ok_iff.mp hload
  have hfit := fitting_excused f d
  have hsift : (d.numbered (fun _ => true) 0).map Prod.fst = d := by
    simp [Derivation.numbered, List.zipIdx_map_fst]
  have hstart : Twin (.start (maxVar f d) (fun _ => true) .work) (.initial (maxVar f d))
      (.initial (maxVar f (d ++ more))) :=
    twin_initial (Nat.le_refl _) (maxVar_le_of_subset fun _ => List.mem_append_left _) rfl rfl
  have hnoted : Twin (.start (maxVar f d) (fun _ => true) .work)
      { State.initial (maxVar f d) with
        log := (State.initial (maxVar f d)).log.push (.started f.length d.length) }
      { State.initial (maxVar f (d ++ more)) with
        log := (State.initial (maxVar f (d ++ more))).log.push
          (.started f.length (d ++ more).length) } := { hstart with }
  obtain ⟨_, s₁, hformula, rfl, size, ht₁⟩ := (hnoted.readFormula (E := fun _ _ => True)
    trivial (List.forall₂_same.mpr fun _ _ => rfl) (fun _ => trivial) fun c hc =>
    hfit.small c (List.mem_append_left _ hc)).of_ok_right hformula'
  have hs : Sifts ((Bond.start (maxVar f d) (fun _ => true) .work).resize size) settings settings d
      fun _ _ => True := by
    refine ⟨fun _ _ _ => trivial, fun hj _ _ => ⟨?_, fun _ _ => Or.inl rfl⟩,
      fun _ _ hk => absurd rfl hk⟩
    exact hfit.small _ (List.mem_append_right _ (List.mem_map_of_mem (List.mem_of_getElem? hj)))
  have hread := ht₁.readLines trivial trivial hs trivial List.drop_zero (Nat.zero_le _)
  rw [Bond.rank_eq_self rfl] at hread
  simp only [Bond.start, Bond.resize, hsift] at hread
  -- The other lines are read unless the empty lemma comes before them. If they are, their clauses
  -- are not in common, and the bond is loosened.
  by_cases hm : .add [] ∈ d
  · rw [readLines_append_of_mem hm] at hlines'
    obtain ⟨⟨⟩, s₂, hlines, size, lines, ht₂, hle, -⟩ := hread.of_ok_right hlines'
    exact ⟨_, _, load_eq_ok_iff.mpr ⟨s₁, s₂, hformula, hlines, rfl⟩, { ht₂ with }, rfl, rfl, hle,
      Or.inl trivial⟩
  · rw [readLines_append hm] at hlines'
    obtain ⟨⟨⟩, u', hlines', hmore⟩ := bind_eq_ok_iff.mp hlines'
    obtain ⟨⟨⟩, s₂, hlines, size, lines, ht₂, hle, hend⟩ := hread.of_ok_right hlines'
    have ht₃ := (ht₂.loosen.ends_readLines (k := Bond.loosen _) id id rfl).of_ok hmore
    exact ⟨_, _, load_eq_ok_iff.mpr ⟨s₁, s₂, hformula, hlines, rfl⟩, { ht₃ with }, rfl, rfl, hle,
      Or.inr (hend.resolve_right hm)⟩

end Loading

section Replaying

/-- The conflict is met before line `n`. -/
def Refutation.Before (n : Nat) : Refutation → Prop
  | formula => True
  | step i => i < n

theorem ends_replayStep_index {step : Step} :
    Ends True (fun _ _ => True) (replayStep coreFirst i step) s
      fun result _ => ∀ r, result = some r → r = .step i := by
  have hsome : ∀ r, some (Refutation.step i) = some r → r = .step i := by
    rintro _ ⟨⟩
    rfl
  cases step with
  | delete c =>
    simp only [replayStep, ends_bind]
    exact ends_of_forall fun _ _ => by simp
  | satisfied c => simp [replayStep]
  | ignored => simp [replayStep]
  | add c =>
    simp only [replayStep, replayLemma, ends_bind, ends_ite]
    refine ends_of_forall fun view t => ?_
    split
    · exact ends_of_forall fun _ _ => by simp
    refine ends_of_forall fun _ t => ?_
    split
    · simp only [replayEmpty, ends_bind]
      refine ends_of_forall fun result t => ?_
      cases result with
      | conflict => exact hsome
      | drained => trivial
    · simp only [replayUnit, ends_bind]
      refine ends_of_forall fun unit t => ends_of_forall fun _ t => ?_
      refine ends_of_forall fun result t => ?_
      cases result with
      | conflict => exact hsome
      | drained => rintro _ ⟨⟩
    · simp

theorem not_before_of_replayFrom {steps : List Step}
    (h : replayFrom coreFirst i steps s = .ok (r, t)) (hn : n ≤ i) : ¬ r.Before n := by
  induction steps generalizing i s with
  | nil => cases h
  | cons step steps ih =>
    obtain ⟨result, s', hstep, h⟩ := bind_eq_ok_iff.mp h
    cases result with
    | none => exact ih h (by omega)
    | some r' =>
      cases h
      obtain rfl := ends_replayStep_index.of_ok hstep _ rfl
      simp only [Refutation.Before]
      omega

/-- A conflict that is met within the lines in common is met in both runs. -/
theorem Twin.replay_before (coreFirst : Bool) (ht : Twin k s s') (hk : k.kept = fun _ => true)
    (hl : k.whole ∨ k.lines = n) (hr : r.Before n)
    (hrun : (∃ t, Engine.replay coreFirst s = .ok (r, t)) ∨
      ∃ t', Engine.replay coreFirst s' = .ok (r, t')) :
    Together k.Matches (Engine.replay coreFirst) (Engine.replay coreFirst) s s'
      fun r t r' t' => k.Met r r' ∧ Twin k t t' := by
  rcases ht.replay coreFirst with ⟨xs, xs', t, t', hend, hs, hs'⟩ | htogether
  -- A pass that comes to the end of the lines in common meets its conflict after them, if at all.
  · rw [hs, hs', Bond.rank_eq_self hk] at hrun
    rcases hl with hw | rfl
    · obtain ⟨rfl, rfl⟩ := hend hw
      rcases hrun with ⟨_, hrun⟩ | ⟨_, hrun⟩ <;> cases hrun
    · rcases hrun with ⟨_, hrun⟩ | ⟨_, hrun⟩
      · exact absurd hr (not_before_of_replayFrom hrun (Nat.le_refl _))
      · exact absurd hr (not_before_of_replayFrom hrun (Nat.le_refl _))
  · exact htogether

theorem Bond.Met.eq {r' : Refutation} (hm : k.Met r r') (hk : k.kept = fun _ => true) :
    r' = r := by
  match r, r', hm with
  | .formula, .formula, _ => rfl
  | .step _, .step j, ⟨_, _, rfl⟩ => rw [Bond.rank_eq_self hk]

end Replaying

end Engine

open Engine

variable {settings : Settings} {f : Formula} {d more : Derivation} {s s' : State}
  {r : Refutation}

/-- Lines after the conflict may be added or taken away. -/
theorem extract_append_of_before (hr : r.Before d.length)
    (hload : stateAt settings f (d ++ more) (.loaded .ready) = some s') :
    ∃ s, stateAt settings f d (.loaded .ready) = some s ∧
      ((∃ t, replay settings.coreFirst s = .ok (r, t)) ↔
        ∃ t', replay settings.coreFirst s' = .ok (r, t')) ∧
      ((∃ t, replay settings.coreFirst s = .ok (r, t)) →
        (extract settings f (d ++ more)).result.map (Core.within .work) =
          (extract settings f d).result.map (Core.within .work)) := by
  have hload' := after_eq_some_iff.mp hload
  obtain ⟨s, k, hs, ht, hk, hv, hle, hl⟩ := exists_twin_of_load hload'
  have hreplay := ht.replay_before settings.coreFirst hk hl hr
  refine ⟨s, after_eq_some_iff.mpr hs, ⟨fun hrun => ?_, fun hrun => ?_⟩, fun hrun => ?_⟩
  · obtain ⟨t, hok⟩ := hrun
    obtain ⟨r', t', hok', hmet, -⟩ := (hreplay (Or.inl ⟨t, hok⟩)).of_ok hok
    exact ⟨t', hmet.eq hk ▸ hok'⟩
  · obtain ⟨t', hok'⟩ := hrun
    obtain ⟨r', t, hok, hmet, -⟩ := (hreplay (Or.inr ⟨t', hok'⟩)).of_ok_right hok'
    exact ⟨t, hmet.eq hk ▸ hok⟩
  · have hgiven : k.Reports k.Matches (d.map Derivation.Line.clause).toArray
        ((d ++ more).map Derivation.Line.clause).toArray := by
      refine Bond.reports_matches fun j hj _ => ?_
      have hlt : j < d.length := Nat.lt_of_lt_of_le hj hle
      simp [Bond.rank_eq_self hk, List.getElem?_append_left, hlt]
    have htogether := (Twin.pursue (f := f) rfl hgiven (hreplay (Or.inl hrun))).mono
      fun _ _ _ _ hcore => hcore.within
    rw [Together, ← run_of_load hs, ← run_of_load hload', hv] at htogether
    exact (result_of_together id htogether fun _ _ hm =>
      hm.renumber fun j _ => Bond.rank_eq_self hk j).trans (mapError_renumber_id _)

/-- Two derivations that begin with the same lines, after which the conflict is met. -/
theorem extract_eq_of_append {more' : Derivation} (hr : r.Before d.length)
    (hs : stateAt settings f (d ++ more) (.loaded .ready) = some s)
    (hs' : stateAt settings f (d ++ more') (.loaded .ready) = some s')
    (hrun : ∃ t, replay settings.coreFirst s = .ok (r, t)) :
    (extract settings f (d ++ more')).result.map (Core.within .work) =
      (extract settings f (d ++ more)).result.map (Core.within .work) := by
  obtain ⟨u, hu, hiff, heq⟩ := extract_append_of_before hr hs
  obtain ⟨u', hu', -, heq'⟩ := extract_append_of_before hr hs'
  obtain rfl : u' = u := Option.some.inj (hu'.symm.trans hu)
  exact (heq' (hiff.mpr hrun)).trans (heq (hiff.mpr hrun)).symm

theorem Engine.Loaded.lt_of_replay {n i : Nat} {F : Prop} {lines : Derivation} {coreFirst : Bool}
    {t : State} (hl : Loaded n F f lines s)
    (hrun : replay coreFirst s = .ok (.step i, t)) : i < lines.length := by
  obtain ⟨sf, hsf, hcarry⟩ := hl.forth_of_replay hrun
  obtain ⟨past, A, rfl, hf, -⟩ := hl.forward_of_forth hsf
  obtain ⟨step, hstep, -⟩ := carry_eq_some_iff.mp hcarry
  rw [hf.getElem?_steps] at hstep
  exact Forward.length_lt hstep

/-- Nothing after the empty lemma is read. -/
theorem extract_take {n : Nat} (hn : d[n]? = some (.add [])) :
    (extract settings f d).result = (extract settings f (d.take (n + 1))).result := by
  -- A run over all lines never comes to those after `n`, so there is nothing to pass over.
  have hs : Sifts (.start (maxVar f (d.sift fun j => decide (j < n + 1)))
      (fun j => decide (j < n + 1)) .all) settings settings d fun j _ => j < n + 1 := by
    refine ⟨fun {j line s t} hj hlt hrun => ?_,
      fun hj _ hk => ⟨small_of_kept hj hk, fun _ _ => Or.inl rfl⟩,
      fun _ hlt hk => absurd (decide_eq_true hlt) hk⟩
    rcases Nat.lt_succ_iff_lt_or_eq.mp hlt with hlt | rfl
    · omega
    · rw [hn] at hj
      cases hj
      exact absurd ((readLine_last hrun).mpr rfl) (by simp)
  have hrank : ∀ j, decide (j < n + 1) = true →
      Nat.count (fun i => decide (i < n + 1) = true) j = j := by
    intro j hj
    refine Nat.count_iff_forall.mpr fun i hi => decide_eq_true ?_
    have := of_decide_eq_true hj
    omega
  have hall : ∀ x : Except Failure Core, x.map (Core.within .all) = x := by
    rintro (e | core) <;> rfl
  have hresult := result_of_together id
    (together_run hs (fun _ _ => Nat.succ_pos n) rfl) fun _ _ hm => hm.renumber hrank
  rwa [mapError_renumber_id, hall, hall, Derivation.sift_lt] at hresult

/-- The lines after the conflict do not matter to the result, the lines of the derivations before
them being the same; and those after the empty lemma matter to nothing, as they are not read. -/
theorem extract_independent (settings : Settings) (f : Formula) :
    (∀ {P Q : Derivation} {n : Nat} {s t : State},
      stateAt settings f P (.loaded .ready) = some s →
      (stateAt settings f Q (.loaded .ready)).isSome = true →
      replay settings.coreFirst s = .ok (.step n, t) → P.take (n + 1) = Q.take (n + 1) →
      (extract settings f Q).result.map (Core.within .work) =
        (extract settings f P).result.map (Core.within .work)) ∧
    (∀ {P Q : Derivation} {s t : State},
      stateAt settings f P (.loaded .ready) = some s →
      (stateAt settings f Q (.loaded .ready)).isSome = true →
      replay settings.coreFirst s = .ok (.formula, t) →
      (extract settings f Q).result.map (Core.within .work) =
        (extract settings f P).result.map (Core.within .work)) ∧
    ∀ pre more more' : Derivation,
      (extract settings f (pre ++ .add [] :: more)).result =
        (extract settings f (pre ++ .add [] :: more')).result := by
  refine ⟨fun {P Q n s t} hs hQ hrun htake => ?_, fun {P Q s t} hs hQ hrun => ?_,
    fun pre more more' => ?_⟩
  · obtain ⟨s', hs'⟩ := Option.isSome_iff_exists.mp hQ
    obtain ⟨lines, hread⟩ := read_of_stateAt hs
    have hlt : n < P.length :=
      Nat.lt_of_lt_of_le (hread.loaded.lt_of_replay hrun) hread.head.length_le
    have hbefore : (Refutation.step n).Before (P.take (n + 1)).length := by
      rw [List.length_take_of_le hlt]
      exact Nat.lt_succ_self n
    rw [← List.take_append_drop (n + 1) P] at hs ⊢
    rw [← List.take_append_drop (n + 1) Q, ← htake] at hs' ⊢
    exact extract_eq_of_append hbefore hs hs' ⟨t, hrun⟩
  · obtain ⟨s', hs'⟩ := Option.isSome_iff_exists.mp hQ
    exact extract_eq_of_append (d := []) (r := .formula) trivial hs hs' ⟨t, hrun⟩
  · have hread : ∀ more, (extract settings f (pre ++ .add [] :: more)).result =
        (extract settings f (pre ++ [.add []])).result := by
      intro more
      rw [extract_take (n := pre.length) (by simp), List.take_append,
        List.take_of_length_le (Nat.le_succ _), Nat.add_sub_cancel_left, List.take_one,
        List.head?_cons, Option.toList_some]
    exact (hread more).trans (hread more').symm

theorem exists_replay_of_any {coreFirst : Bool}
    (h : (stateAt settings f d (.loaded .ready)).any (fun s =>
      (replay coreFirst s).toOption.map Prod.fst = some r) = true) :
    ∃ s t, stateAt settings f d (.loaded .ready) = some s ∧ replay coreFirst s = .ok (r, t) := by
  simp only [Option.any_eq_true, decide_eq_true_eq, Option.map_eq_some_iff, Prod.exists,
    exists_and_right, exists_eq_right] at h
  obtain ⟨s, hs, t, hrun⟩ := h
  refine ⟨s, t, hs, ?_⟩
  cases hr : replay coreFirst s with
  | ok x =>
    rw [hr] at hrun
    exact congrArg Except.ok (Option.some.inj hrun)
  | error e =>
    rw [hr] at hrun
    cases hrun

/-- Another end of the derivation does not matter after a unit that meets the conflict, and no line
does if the formula alone has it. -/
theorem extract_independent_unit :
    (∃ s t, stateAt {} (Signings.clauses 2) [.add [⟨1⟩], .add []] (.loaded .ready) = some s ∧
      replay true s = .ok (.step 0, t) ∧
      (extract {} (Signings.clauses 2) [.add [⟨1⟩], .delete [⟨1⟩, ⟨2⟩], .add [⟨4⟩]]).result.map
          (Core.within .work) =
        (extract {} (Signings.clauses 2) [.add [⟨1⟩], .add []]).result.map (Core.within .work)) ∧
    ∃ s t, stateAt {} [[⟨1⟩], [⟨-1⟩, ⟨2⟩], [⟨-1⟩, ⟨-2⟩]] [] (.loaded .ready) = some s ∧
      replay true s = .ok (.formula, t) ∧
      (extract {} [[⟨1⟩], [⟨-1⟩, ⟨2⟩], [⟨-1⟩, ⟨-2⟩]] [.delete [⟨-1⟩, ⟨2⟩], .add [⟨4⟩]]).result.map
          (Core.within .work) =
        (extract {} [[⟨1⟩], [⟨-1⟩, ⟨2⟩], [⟨-1⟩, ⟨-2⟩]] []).result.map (Core.within .work) := by
  constructor
  · obtain ⟨s, t, hs, hrun⟩ : ∃ s t, stateAt {} (Signings.clauses 2) [.add [⟨1⟩], .add []]
        (.loaded .ready) = some s ∧ replay true s = .ok (.step 0, t) :=
      exists_replay_of_any (by decide +kernel)
    exact ⟨s, t, hs, hrun, (extract_independent {} _).1 hs (by decide +kernel) hrun rfl⟩
  · obtain ⟨s, t, hs, hrun⟩ : ∃ s t, stateAt {} [[⟨1⟩], [⟨-1⟩, ⟨2⟩], [⟨-1⟩, ⟨-2⟩]] []
        (.loaded .ready) = some s ∧ replay true s = .ok (.formula, t) :=
      exists_replay_of_any (by decide +kernel)
    exact ⟨s, t, hs, hrun, (extract_independent {} _).2.1 hs (by decide +kernel) hrun⟩

end UnsatCore
