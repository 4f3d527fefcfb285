import UnsatCore.Proofs.Independence
import UnsatCore.Proofs.Tally

/-! How the numbers balance that an accepted run reports. A clause enters the core only where it is
counted as needed, so no more clauses of the formula and lemmas are in the core at the end than were
counted. -/
namespace UnsatCore

open Engine Engine.CheckM

variable {settings : Settings} {f : Formula} {d lines : Derivation} {s s' s₀ s₁ t : State}
  {n i j last : Nat} {coreFirst : Bool} {F : Prop} {body : Handle → Clause} {A C : Set Handle}
  {c : Handle} {L : Ledger} {past : List Frame} {fr : Frame} {lemmas : Array Clause} {core : Core}

section Resolutions

/-- No more clauses are in the core than were counted as needed. -/
def Engine.Counted (s : State) : Prop :=
  ∃ ks : List Handle, (∀ k, s.arena.Has k → s.arena.inCore k = true → k ∈ ks) ∧
    ks.length ≤ s.counters.resolutions

namespace Engine

theorem counted_of_unneeded (h : ∀ k, s.arena.Has k → s.arena.inCore k = false) : Counted s :=
  ⟨[], fun k hk hc => by simp [h k hk] at hc, Nat.zero_le _⟩

theorem Counted.congr (h : Counted s) (hhas : ∀ k, s'.arena.Has k ↔ s.arena.Has k)
    (hcore : ∀ k, s.arena.Has k → s'.arena.inCore k = s.arena.inCore k)
    (hcount : s'.counters.resolutions = s.counters.resolutions) : Counted s' := by
  obtain ⟨ks, hks, hle⟩ := h
  refine ⟨ks, fun k hk hc => ?_, hcount ▸ hle⟩
  have hk := (hhas k).mp hk
  rw [hcore k hk] at hc
  exact hks k hk hc

/-- What enters the core is counted. -/
theorem Counted.entered (h : Counted s) (he : Entered C s s') : Counted s' := by
  obtain ⟨ks, hks, hle⟩ := h
  obtain ⟨new, -, hnew, hcount⟩ := he.counters
  refine ⟨ks ++ new, fun k hk hc => ?_, ?_⟩
  · have hk := (he.enlarged.has k).mp hk
    rcases (he.enlarged.inCore k hk).mp hc with hc | hm
    · exact List.mem_append_left _ (hks k hk hc)
    · exact List.mem_append_right _ ((hnew k).mpr hm)
  · rw [hcount, List.length_append]
    exact Nat.add_le_add_right hle _

theorem aside_resolutions : Aside fun s => s.counters.resolutions where
  arena _ _ := rfl
  watches _ _ := rfl
  trail _ _ := rfl
  log _ _ := rfl
  propagated _ := rfl

/-- Unit propagation brings clauses into the core only where it explains a conflict. -/
theorem Coherent.counted_saturate {r : Saturation} (hs : Coherent n F body A s)
    (ha : Anchored body A s.trail.entries) (hf : s.trail.forced ≤ s.trail.assigned)
    (hp : s.trail.processed ≤ s.trail.assigned) (hpo : Poised A s) (hc : Counted s)
    (h : saturate coreFirst s = .ok (r, s')) : Counted s' := by
  rw [← Search.explained_saturate] at h
  obtain ⟨found, s₁, hsearch, h⟩ := bind_eq_ok_iff.mp h
  have hfinds : Finds F (fun _ _ => True) _ (Search.saturate coreFirst) s _ :=
    finds_saturate hs hf hp hpo
  have hgrew : Grew A s s₁ → Counted s₁ := fun hg =>
    hc.congr hg.has hg.inCore (aside_resolutions.search coreFirst hsearch)
  cases found with
  | ok r =>
    cases h
    obtain ⟨hne, -, hsat⟩ := Ends.of_ok hfinds hsearch
    cases r with
    | conflict => exact (hne rfl).elim
    | drained => exact hgrew hsat.grew
  | error c =>
    obtain ⟨⟨⟩, s₂, hexplain, h⟩ := bind_eq_ok_iff.mp h
    cases h
    have hb := hfinds.of_stop hsearch
    obtain ⟨-, -, hent⟩ := (ends_explain (G := True) (R := fun _ _ => True) hb.coherent
      (hb.grew.anchored ha) (hb.grew.forced_le hf) hb.attached hb.falsified).of_ok hexplain
    exact (hgrew hb.grew).entered hent

/-- The check of a lemma brings clauses into the core only where it explains a conflict. -/
theorem Testable.counted_followsByUnits {b : Bool} (ht : Testable L A c s) (hc : Counted s)
    (h : followsByUnits coreFirst c s = .ok (b, s')) : Counted s' := by
  obtain ⟨ls, s₁, hbody, h⟩ := bind_eq_ok_iff.mp h
  rw [bodyOf, ask_of_ok (ht.has.body (Nat.zero_le _)), List.drop_zero] at hbody
  cases hbody
  obtain ⟨r, s₂, hassume, h⟩ := bind_eq_ok_iff.mp h
  obtain ⟨hco, has, hfo, hpr, hl⟩ := ht.of_assume hassume
  have hc₂ : Counted s₂ := by
    rw [has.onTrail]
    exact hc
  cases r with
  | consistent =>
    obtain ⟨result, s₃, hsat, h⟩ := bind_eq_ok_iff.mp h
    cases h
    exact hco.counted_saturate (has.anchored ht.anchored) hfo hpr
      (has.poised ht.processed ht.settled) hc₂ hsat
  | refuted l =>
    simp only at h
    rw [← bind_assoc] at h
    obtain ⟨⟨⟩, s₃, htrace, h⟩ := bind_eq_ok_iff.mp h
    cases h
    obtain ⟨C, -, hentered⟩ := (hco.ends_traceMarked (R := fun _ _ => True)
      (has.anchored ht.anchored) hfo (hl l rfl)).of_ok htrace
    exact hc₂.entered hentered

end Engine

/-- A line that is undone brings clauses into the core only where it explains a conflict. -/
theorem Engine.Restored.counted_undoLine (hr : Restored L (fr :: past) A s) (hc : Counted s)
    (h : undoLine coreFirst lemmas past.length s = .ok ((), s')) : Counted s' := by
  rw [hr.undoLine_eq] at h
  cases hstep : fr.step with
  | add c =>
    rw [hstep] at h
    obtain ⟨t, hwithdraw, h⟩ := undoLemma_eq_ok h
    obtain ⟨htest, harena⟩ := hr.testable hstep hwithdraw
    have hct : Counted t := hc.congr (fun k => by rw [harena]) (fun k _ => by rw [harena])
      (aside_resolutions.withdraw c hwithdraw)
    rcases h with ⟨-, rfl⟩ | ⟨-, -, t', hfollows, rfl⟩
    · exact hct
    · have htest' := htest.noted (t.log.push (.checking (t.arena.literals c) past.length))
      have hc' := htest'.counted_followsByUnits hct hfollows
      exact hc'
  | delete c =>
    rw [hstep] at h
    have hcore := hr.inCore_undoDelete hstep h
    exact hc.congr (fun k => (hcore k).1) (fun k => (hcore k).2) (aside_resolutions.undoDelete c h)
  | satisfied c =>
    rw [hstep] at h
    cases h
    exact hc
  | ignored =>
    rw [hstep] at h
    cases h
    exact hc

theorem counted_of_back (h : stateAt settings f d (.back last j) = some s) : Counted s := by
  induction j generalizing s with
  | zero =>
    obtain ⟨lines, s₀, past, A, sf, c, s₁, hread, -, rfl, -, hf, hc, hcarry, -, hs⟩ :=
      exists_carry_of_back h
    obtain ⟨s₂, s₃, hassert, hsat, heq⟩ := hf.asserted_of_carry hc hcarry
    obtain ⟨u, t, hft, ha⟩ := hf.assigned hc hassert
    have hp := hf.primed hc hassert
    have hc₂ : Counted s₂ := by
      refine counted_of_unneeded fun k hk => ?_
      rw [ha.arena] at hk ⊢
      exact hft.unneeded k hk
    have hc₃ := hp.coherent.counted_saturate hp.anchored hp.forced hp.processed hp.poised hc₂ hsat
    rw [hs, heq]
    exact hc₃
  | succ j ih =>
    obtain ⟨L, fr, past, A, s, rfl, hr, hs, hrun⟩ := undoLine_of_back h
    exact hr.counted_undoLine (ih hs) hrun

end Resolutions

section Core

theorem length_coreAmong {a : Arena} {hs : List Handle} (h : hs.length = f.length) :
    (coreAmong a f hs).length = (hs.filter a.inCore).length := by
  have hsnd : (f.zip hs).map Prod.snd = hs := List.map_snd_zip (Nat.le_of_eq h)
  rw [coreAmong, List.length_map, ← List.countP_eq_length_filter, ← List.countP_eq_length_filter]
  conv_rhs => rw [← hsnd, List.countP_map]
  rfl

/-- The clauses of the formula and the lemmas in the core are different clauses. -/
theorem Engine.Ledger.Records.core_le (hr : L.Records s) (ho : s.justified.Nodup)
    (hj : ∀ j ∈ s.justified, ∃ c, s.steps[j]? = some (.add c) ∧ s.arena.inCore c = true)
    (hc : Counted s) : (s.origins.toList.filter s.arena.inCore).length + s.justified.length ≤
      s.counters.resolutions := by
  obtain ⟨ks, hks, hle⟩ := hc
  have : Nonempty Handle := ⟨⟨0⟩⟩
  choose! g hg using hj
  have hadd : ∀ j ∈ s.justified, L.steps[j]? = some (.add (g j)) := fun j hj =>
    hr.addition (Or.inl (hg j hj).1)
  have hmem : ∀ j ∈ s.justified, g j ∈ added L.steps := fun j hj =>
    mem_added.mpr (List.mem_of_getElem? (hadd j hj))
  have hfresh : (s.origins.toList ++ added L.steps).Nodup := hr.origins ▸ L.transcript.fresh
  obtain ⟨horigins, -, hdisjoint⟩ := List.nodup_append'.mp hfresh
  have hnd : (s.origins.toList.filter s.arena.inCore ++ s.justified.map g).Nodup := by
    refine List.nodup_append'.mpr ⟨horigins.filter _, ho.map_on fun i hi j hj he => ?_, ?_⟩
    · exact Ledger.line_unique (hadd i hi) (he ▸ hadd j hj)
    · intro c hc hc'
      obtain ⟨j, hj, rfl⟩ := List.mem_map.mp hc'
      exact hdisjoint (List.mem_of_mem_filter hc) (hmem j hj)
  have hsub : s.origins.toList.filter s.arena.inCore ++ s.justified.map g ⊆ ks := by
    intro c hc
    rcases List.mem_append.mp hc with hc | hc
    · obtain ⟨hm, hcore⟩ := List.mem_filter.mp hc
      rw [hr.origins] at hm
      exact hks c ((hr.has c).mpr (List.mem_append_left _ hm)) hcore
    · obtain ⟨j, hj, rfl⟩ := List.mem_map.mp hc
      exact hks _ ((hr.has _).mpr (List.mem_append_right _ (hmem j hj))) (hg j hj).2
  have hlen := hnd.length_le_of_subset hsub
  rw [List.length_append, List.length_map] at hlen
  exact hlen.trans hle

end Core

section Account

/-- The numbers that a run reports after it met its conflict in `r`. -/
structure Balanced (d : Derivation) (r : Refutation) (core : Core) (s : State) : Prop where
  lemmas : core.counters.lemmas = d.untilEmpty.countP fun line => !line.isDeletion
  deletions : core.counters.deletions = d.untilEmpty.countP Derivation.Line.isDeletion
  size : core.counters.lemmas + core.counters.deletions = s.steps.size
  ignored : core.counters.ignoredDeletions = s.steps.toList.count .ignored
  ignored_le : core.counters.ignoredDeletions ≤ core.counters.deletions
  formula : r = .formula → core.counters.satisfiedLemmas = 0 ∧ core.counters.checkedLemmas = 0 ∧
    core.counters.skippedLemmas = 0
  step : ∀ n, r = .step n → core.counters.satisfiedLemmas + core.counters.checkedLemmas +
    core.counters.skippedLemmas = (d.take (n + 1)).countP fun line => !line.isDeletion
  coreSize : core.counters.coreSize = core.clauses.length
  resolutions : core.counters.coreSize + core.counters.checkedLemmas ≤ core.counters.resolutions

/-- What can be said about the numbers before the clauses are selected. -/
structure Engine.Accounted (L : Ledger) (s : State) : Prop where
  restored : ∃ A, Restored L [] A s
  tallied : s.minutes.Tallied
  checked : s.counters.checkedLemmas = s.justified.length
  nodup : s.justified.Nodup
  inCore : ∀ j ∈ s.justified, ∃ c, s.steps[j]? = some (.add c) ∧ s.arena.inCore c = true
  counted : Counted s

theorem Engine.Accounted.noted (h : Accounted L s) (log : Log) : Accounted L { s with log } := by
  obtain ⟨A, hr⟩ := h.restored
  exact ⟨⟨A, hr.noted _ _ _⟩, h.tallied, h.checked, h.nodup, h.inCore, h.counted⟩

/-- Where the formula alone is refuted, no lemma was left out, checked or passed over. -/
theorem Engine.ReadTo.accounted_formula (hread : ReadTo n F f d lines s₀)
    (hload : stateAt settings f d (.loaded .ready) = some s₀)
    (hsat : saturate coreFirst s₀ = .ok (.conflict, s)) :
    Accounted hread.loaded.ledger s ∧ s.counters.satisfiedLemmas = 0 ∧
      s.counters.checkedLemmas = 0 ∧ s.counters.skippedLemmas = 0 := by
  have hl := hread.loaded
  have hmin := keeps_saturate coreFirst hsat
  obtain ⟨ht, hchecked, hskipped⟩ := tallied_of_load hload
  rw [← hmin] at ht hchecked hskipped
  obtain ⟨hco, hr⟩ := hl.saturated hsat
  obtain ⟨hrest, -, -⟩ := hl.conflict hco hr
  have hjust : s.justified = [] := (congrArg Minutes.justified hmin).trans hl.justified
  have hcount : Counted s₀ := counted_of_unneeded hl.unneeded
  have hsatisfied : s.steps.toList.countP Step.isSatisfied = 0 := by
    rw [List.countP_eq_zero, show s.steps = s₀.steps from congrArg Minutes.steps hmin]
    intro step hm
    cases step with
    | satisfied c => exact (hl.ledger.not_satisfied c hm).elim
    | add | delete | ignored => simp [Step.isSatisfied]
  refine ⟨⟨⟨_, hrest⟩, ht, hchecked.trans (by rw [hjust]; rfl), by simp [hjust], by simp [hjust],
    ?_⟩, ht.satisfied.trans hsatisfied, hchecked, hskipped⟩
  exact hl.coherent.counted_saturate hl.anchored (by simp [hl.forced]) (by simp [hl.processed])
    hl.poised hcount hsat

/-- Where the way back is over, each lemma that was checked is in the core. -/
theorem Engine.ReadTo.accounted_back (hread : ReadTo (maxVar f d) True f d lines s₀)
    (hload : stateAt settings f d (.loaded .ready) = some s₀)
    (h : stateAt settings f d (.back last (last + 1)) = some s) :
    Accounted hread.loaded.ledger s := by
  have hreviewed := reviewed_of_back h
  have hback := h
  rw [stateAt_back hload] at hback
  obtain ⟨past, A, hlen, hr⟩ :=
    hread.loaded.returned_of_back (gives_of_isPrefix hread.loaded hread.head) hback
  obtain rfl : past = [] := List.eq_nil_of_length_eq_zero (by omega)
  refine ⟨⟨A, hr.restored⟩, hreviewed.tallied, hreviewed.justified,
    hr.audited.ordered.imp Nat.ne_of_lt, fun j hj => ?_, counted_of_back h⟩
  obtain ⟨hlt, c, hc⟩ := (mem_justified_iff h).mp hj
  exact ⟨c, hc.inCore h hlt⟩

theorem Engine.Accounted.balanced {r : Refutation} (hread : ReadTo n F f d lines s₀)
    (ha : Accounted hread.loaded.ledger s)
    (hformula : r = .formula → s.counters.satisfiedLemmas = 0 ∧ s.counters.checkedLemmas = 0 ∧
      s.counters.skippedLemmas = 0)
    (hstep : ∀ n, r = .step n → n < s.steps.size ∧ s.minutes.Reviewed n (n + 1))
    (hconclude : conclude f s = .ok (core, s')) : Balanced d r core s' := by
  obtain ⟨⟨A, hr⟩, ht, hchecked, hnodup, hcore, hcounted⟩ := ha
  obtain ⟨clauses, hselect, rfl, hs⟩ := conclude_eq_ok hconclude
  have hrec : Recorded f lines s := hread.loaded.recorded hr.records hr.coherent.stored
  have hhas : ∀ k ∈ s.origins.toList, s.arena.Has k := fun k hk =>
    (hrec.has k).mpr (List.mem_append_left _ hk)
  have hclauses : clauses.length = (s.origins.toList.filter s.arena.inCore).length := by
    rw [selectCore_eq hhas, Except.ok.injEq] at hselect
    rw [← hselect, length_coreAmong (Array.length_toList.trans hrec.origins_size)]
  have huntil : d.untilEmpty = lines :=
    Derivation.untilEmpty_eq hread.head hread.reaches hread.complete
  have hlines (p : Bool → Bool) : (s.steps.toList.countP fun step => p step.isDeletion) =
      d.untilEmpty.countP fun line => p line.isDeletion := by
    have hall := hrec.countP_take p s.steps.size
    rwa [List.take_of_length_le (by simp), List.take_of_length_le (by simp [hrec.steps_size]),
      ← huntil] at hall
  rw [hs]
  refine ⟨ht.lemmas.trans (hlines not), ht.deletions.trans (hlines id), ht.size_eq, ht.ignored,
    ht.ignored_le, hformula, fun n hn => ?_, rfl, ?_⟩
  · obtain ⟨hlt, hreviewed⟩ := hstep n hn
    have htake : lines.take (n + 1) = d.take (n + 1) := by
      obtain ⟨more, rfl⟩ := hread.head
      rw [List.take_append_of_le_length (hrec.steps_size ▸ hlt)]
    exact hreviewed.lemmas.trans (htake ▸ hrec.countP_take not (n + 1))
  · have hle := hr.records.core_le hnodup hcore hcounted
    rwa [← hclauses, ← hchecked] at hle

end Account

/-- Whatever is accepted, and not for the formula alone, the numbers that are reported balance. -/
theorem extract_balances (h : (extract settings f d).result = .ok core)
    (ht : core.trivial = false) : ∃ s₀ r s₁ s,
      stateAt settings f d (.loaded .ready) = some s₀ ∧
      replay settings.coreFirst s₀ = .ok (r, s₁) ∧
      run settings f d (.initial (maxVar f d)) = .ok (core, s) ∧ Balanced d r core s := by
  obtain ⟨s, hrun⟩ := extract_eq_ok_iff.mp h
  obtain ⟨result, s₀, hload, hpursue⟩ := bind_eq_ok_iff.mp (run_eq_load settings f d ▸ hrun)
  cases result with
  | trivial =>
    cases hpursue
    cases ht
  | ready =>
    obtain ⟨r, s₁, hreplay, hend⟩ := bind_eq_ok_iff.mp hpursue
    have hload : stateAt settings f d (.loaded .ready) = some s₀ := after_eq_some_iff.mpr hload
    obtain ⟨lines, hread⟩ := read_of_stateAt hload
    refine ⟨s₀, r, s₁, s, hload, hreplay, hrun, ?_⟩
    rcases hread.loaded.replay_cases hreplay with ⟨rfl, t, hsat, rfl⟩ | ⟨n, sf, rfl, hsf, hcarry⟩
    · obtain ⟨ha, hzero⟩ := hread.accounted_formula hload hsat
      have ha := ha.noted (t.log.push .formulaRefuted)
      exact ha.balanced hread (fun _ => hzero) nofun hend
    · obtain ⟨⟨⟩, s₂, hjust, hconclude⟩ := bind_eq_ok_iff.mp hend
      have hback : stateAt settings f d (.back n (n + 1)) = some s₂ :=
        (stateAt_back hload n _).trans (back_of_justify hsf hcarry hjust)
      have hlt : n < s₂.steps.size := by
        obtain ⟨s', hs', -, hsteps, -⟩ := exists_earlier hback (Nat.zero_le _)
        obtain ⟨-, c, hc, -⟩ := start_of_back hs'
        rw [hsteps]
        exact (Array.getElem?_eq_some_iff.mp hc).1
      refine (hread.accounted_back hload hback).balanced hread nofun ?_ hconclude
      rintro _ ⟨⟩
      exact ⟨hlt, reviewed_of_back hback⟩

/-- A lemma and a deletion come before the lemma that meets the conflict. -/
theorem extract_balances_roundabout : ∃ core s₀ r s₁ s,
    (extract {} (Signings.clauses 2) roundabout).result = .ok core ∧ core.trivial = false ∧
    stateAt {} (Signings.clauses 2) roundabout (.loaded .ready) = some s₀ ∧
    replay true s₀ = .ok (r, s₁) ∧
    run {} (Signings.clauses 2) roundabout (.initial (maxVar (Signings.clauses 2) roundabout)) =
      .ok (core, s) ∧ Balanced roundabout r core s := by
  obtain ⟨core, h, ht⟩ := exists_ok_of_trivial (b := false)
    (o := extract {} (Signings.clauses 2) roundabout) (by decide +kernel)
  obtain ⟨s₀, r, s₁, s, hb⟩ := extract_balances h ht
  exact ⟨core, s₀, r, s₁, s, h, ht, hb⟩

end UnsatCore
