import UnsatCore.Proofs.Moments

/-! Before the first conflict no clause is in the core, so a pass over the clauses of the core finds
nothing to visit. The detours through it then change nothing: a pass that pauses after each literal
and one that does not go through the same states. -/
namespace UnsatCore

namespace Engine

open CheckM

variable {n i k p core rest next : Nat} {F : Prop} {body : Handle → Clause} {A : Set Handle}
  {s s' : State} {l : Literal} {w : Watcher} {q : Nat × Nat} {L : Ledger} {past : List Frame}
  {step : Step} {h : Handle}

/-- Nothing is in the core yet. -/
def Unneeded (s : State) : Prop := ∀ h, s.arena.Has h → s.arena.inCore h = false

theorem Unneeded.grew (hu : Unneeded s) (hg : Grew A s s') : Unneeded s' := by
  intro c hc
  have hc := (hg.has c).mp hc
  rw [hg.inCore c hc, hu c hc]

theorem Unneeded.core_eq_false (hu : Unneeded s) (h : Coherent n F body A s)
    (hw : (s.watches.watchers l)[i]? = some w) : w.core = false := by
  obtain ⟨hc, hcore, -⟩ := (h.watched.mem_iff l w).mp (List.mem_of_getElem? hw)
  rw [hcore, hu w.clause (h.attached w.clause hc).1]

/-- Where the clauses of the core wait does not matter. -/
theorem Unneeded.advanced {fr fr' : Frontier} (hu : Unneeded s) (h : Coherent n F body A s)
    (hadv : Advanced A fr s) (hfr : fr false = fr' false) : Advanced A fr' s := by
  intro c hc x y hp hx
  rcases hadv c hc x y hp hx with hy | hdue
  · exact Or.inl hy
  · refine Or.inr ?_
    rw [hu c (h.attached c hc).1] at hdue ⊢
    simpa only [Due, hfr] using hdue

section CorePass

theorem sweepFrom_core (hu : Unneeded s) (h : Coherent n F body A s) (hl : l.var.index ≤ n)
    (hk : k + i = (s.watches.watchers l).length) :
    sweepFrom .core l k i s = .ok (.finished, s) := by
  induction k generalizing i with
  | zero => rfl
  | succ k ih =>
    have hlt : i < (s.watches.watchers l).length := by omega
    have hw := List.getElem?_eq_getElem hlt
    rw [sweepFrom, bind_of_ok (ask_of_ok (h.watched.fits.watcher hl hw)), if_neg]
    · exact ih (by omega)
    · simp [Pass.visits, hu.core_eq_false h hw]

theorem sweep_core (hu : Unneeded s) (h : Coherent n F body A s) (hl : l.var.index ≤ n) :
    sweep .core l 0 s = .ok (.finished, s) := by
  rw [sweep, bind_of_ok (ask_of_ok (h.watched.fits.length hl))]
  exact sweepFrom_core hu h hl (by omega)

/-- The first cursor runs up to the top of the trail, and the state stays as it is. -/
theorem rounds_core (k rest next : Nat) (hu : Unneeded s) (h : Coherent n F body A s)
    (hp : core + i = s.trail.assigned) :
    rounds (i + 1 + k) ⟨.core, core, rest, next⟩ s =
      rounds k ⟨.rest, core + i, rest, next⟩ s := by
  induction i generalizing core with
  | zero =>
    have hround : round ⟨.core, core, rest, next⟩ s =
        .ok (.onward ⟨.rest, core, rest, next⟩, s) :=
      round_of_le _ (Nat.le_of_eq hp.symm)
    rw [show 0 + 1 + k = k + 1 by omega, rounds, bind_of_ok hround]
    rfl
  | succ i ih =>
    have hlt : core < s.trail.assigned := by omega
    obtain ⟨l, hl⟩ : ∃ l, s.trail.falsified[core]? = some l :=
      ⟨_, List.getElem?_eq_getElem (by rwa [Trail.length_falsified])⟩
    have hsmall := h.trail.small l (List.mem_of_getElem? hl)
    have hround : round ⟨.core, core, rest, next⟩ s =
        .ok (.onward ⟨.core, core + 1, rest, next⟩, s) := by
      refine (round_of_lt ⟨.core, core, rest, next⟩ hlt).trans ?_
      refine (bind_of_ok (ask_of_ok (Trail.literalAt_eq_ok hl))).trans ?_
      exact bind_of_ok (sweep_core hu h hsmall)
    rw [show i + 1 + 1 + k = (i + 1 + k) + 1 by omega, rounds, bind_of_ok hround]
    simp only
    rw [ih (by omega), show core + 1 + i = core + (i + 1) by omega]

end CorePass

section Resuming

/-- A pass without pauses goes on where the one with pauses stopped. -/
def resume (l : Literal) : Swept → CheckM Swept
  | .finished => pure .finished
  | .paused next => sweep .all l next
  | .conflict => pure .conflict

theorem sweepFrom_resume (hu : Unneeded s) (h : Coherent n F body A s)
    (ha : Anchored body A s.trail.entries) (hf : s.trail.forced ≤ s.trail.assigned)
    (hadv : Advanced A (Pass.rest.frontier p i q) s) (hwait : Waiting s p q)
    (hp : s.trail.falsified[p]? = some l) (hk : k + i = (s.watches.watchers l).length) :
    sweepFrom .all l k i s = (sweepFrom .rest l k i >>= resume l) s := by
  induction k generalizing s i with
  | zero => rfl
  | succ k ih =>
    have hlt : i < (s.watches.watchers l).length := by omega
    have hw := List.getElem?_eq_getElem hlt
    have hask := h.ask_watcher (List.mem_of_getElem? hp) hw
    have hrest : Pass.rest.visits (s.watches.watchers l)[i] = true := by
      simp [Pass.visits, hu.core_eq_false h hw]
    have hall : Pass.all.visits (s.watches.watchers l)[i] = true := rfl
    simp only [sweepFrom, bind_assoc]
    rw [bind_of_ok hask, bind_of_ok hask, if_pos hall, if_pos hrest, bind_assoc]
    refine bind_congr_ok rfl fun v s₁ hrun => ?_
    obtain ⟨h₁, hv⟩ := (ends_visit (R := fun _ _ => True) h ha hf hadv hwait hp hw).of_ok hrun
    cases v with
    | kept =>
      obtain ⟨rfl, hadv₁⟩ := hv
      exact ih hu h ha hf hadv₁ hwait hp (by omega)
    | moved =>
      obtain ⟨hg, hadv₁, -, hlen⟩ := hv
      exact ih (hu.grew hg) h₁ (hg.anchored ha) (hg.forced_le hf) hadv₁ (hwait.grew hg)
        (hg.getElem? hp) (by omega)
    | derived =>
      obtain ⟨hg, -, -, hws⟩ := hv
      have hsize := h₁.ask_length (List.mem_of_getElem? (hg.getElem? hp))
      have hlen : (s₁.watches.watchers l).length - (i + 1) = k := by
        rw [hws]
        omega
      have hsweep : sweep .all l (i + 1) s₁ = sweepFrom .all l k (i + 1) s₁ := by
        rw [sweep, bind_of_ok hsize, hlen]
      exact hsweep.symm
    | conflict => rfl

theorem sweep_resume (hu : Unneeded s) (h : Coherent n F body A s)
    (ha : Anchored body A s.trail.entries) (hf : s.trail.forced ≤ s.trail.assigned)
    (hadv : Advanced A (Pass.rest.frontier p i q) s) (hwait : Waiting s p q)
    (hp : s.trail.falsified[p]? = some l) :
    sweep .all l i s = (sweep .rest l i >>= resume l) s := by
  have hlen := h.ask_length (List.mem_of_getElem? hp)
  rw [sweep, sweep, bind_assoc, bind_of_ok hlen, bind_of_ok hlen]
  rcases Nat.le_total i (s.watches.watchers l).length with hi | hi
  · exact sweepFrom_resume hu h ha hf hadv hwait hp (by omega)
  · rw [Nat.sub_eq_zero_of_le hi]
    rfl

end Resuming

section Lockstep

/-- The pass with pauses has its first cursor at the top of the trail, and both passes have rounds
enough to come to an end: `k` the one without pauses, `k'` the other one. -/
structure Paced (n : Nat) (F : Prop) (body : Handle → Clause) (A : Set Handle)
    (core rest next k k' : Nat) (s : State) : Prop where
  unneeded : Unneeded s
  coherent : Coherent n F body A s
  anchored : Anchored body A s.trail.entries
  forced_le : s.trail.forced ≤ s.trail.assigned
  advanced : Advanced A (Scan.frontier ⟨.rest, core, rest, next⟩) s
  fits : Scan.Fits ⟨.rest, core, rest, next⟩ s
  enough : n + 1 - rest < k
  enough_paused : Scan.roundsLeft ⟨.rest, core, rest, next⟩ (n + 1) s ≤ k'

variable {k' next' : Nat} {s₁ : State}

/-- What a round of the pass with pauses comes to. -/
theorem Paced.rounded {r : Swept} (h : Paced n F body A core rest next (k + 1) (k' + 1) s)
    (hlt : rest < s.trail.assigned) (hl : s.trail.falsified[rest]? = some l)
    (hrun : sweep .rest l next s = .ok (r, s₁)) : Coherent n F body A s₁ ∧
      Rounded n body A ⟨.rest, core, rest, next⟩ s s₁ (roundAfter ⟨.rest, core, rest, next⟩ r) := by
  have hround : sweepRound ⟨.rest, core, rest, next⟩ s =
      .ok (roundAfter ⟨.rest, core, rest, next⟩ r, s₁) :=
    (sweepRound_eq hl).trans (bind_of_ok hrun)
  exact (ends_sweepRound (R := fun _ _ => True) h.coherent h.anchored h.forced_le h.advanced h.fits
    hlt).of_ok hround

theorem Paced.finished (h : Paced n F body A core rest next (k + 1) (k' + 1) s)
    (hlt : rest < s.trail.assigned) (hl : s.trail.falsified[rest]? = some l)
    (hrun : sweep .rest l next s = .ok (.finished, s₁)) :
    Paced n F body A core (rest + 1) 0 k k' s₁ := by
  obtain ⟨h₁, hg, hadv₁, hfit₁, hleft⟩ := h.rounded hlt hl hrun
  have hn := h.coherent.assigned_le
  have hk := h.enough
  have hk' := h.enough_paused
  simp only [Scan.advance, Scan.roundsLeft] at hleft hk'
  exact ⟨h.unneeded.grew hg, h₁, hg.anchored h.anchored, hg.forced_le h.forced_le, hadv₁, hfit₁,
    by omega, by simp only [Scan.roundsLeft]; omega⟩

/-- A pause costs the first cursor one round for each new literal and one more. -/
theorem Paced.paused (h : Paced n F body A core rest next (k + 1) (k' + 1) s)
    (hlt : rest < s.trail.assigned) (hl : s.trail.falsified[rest]? = some l)
    (hrun : sweep .rest l next s = .ok (.paused next', s₁)) :
    Grew A s s₁ ∧ core + (s₁.trail.assigned - core) = s₁.trail.assigned ∧
      ∃ j, k' = s₁.trail.assigned - core + 1 + j ∧
        Paced n F body A s₁.trail.assigned rest next' (k + 1) j s₁ := by
  obtain ⟨h₁, hg, hadv₁, -, hleft⟩ := h.rounded hlt hl hrun
  have hu₁ := h.unneeded.grew hg
  have hle := hg.assigned_le
  have hn := h₁.assigned_le
  have hcore : core = s.trail.assigned := h.fits.1
  have hk' := h.enough_paused
  simp only [Scan.roundsLeft, Scan.detour] at hleft hk'
  refine ⟨hg, by omega, k' - (s₁.trail.assigned - core + 1), by omega, ?_⟩
  exact ⟨hu₁, h₁, hg.anchored h.anchored, hg.forced_le h.forced_le, hu₁.advanced h₁ hadv₁ rfl,
    ⟨rfl, Nat.le_trans (Nat.le_of_lt hlt) hle⟩, h.enough, by simp only [Scan.roundsLeft]; omega⟩

/-- The pass with pauses, whose first cursor is at the top of the trail, does what the pass without
them does. -/
theorem rounds_rest (h : Paced n F body A core rest next k k' s) :
    rounds k ⟨.all, p, rest, next⟩ s = rounds k' ⟨.rest, core, rest, next⟩ s := by
  -- The induction is on the rounds of the pass with pauses. Where it pauses, the other pass is
  -- still at the same list.
  induction k' using Nat.strongRecOn generalizing s core rest next k with
  | ind k' ih =>
    obtain ⟨k, rfl⟩ : ∃ j, k = j + 1 := ⟨k - 1, by have := h.enough; omega⟩
    obtain ⟨k', rfl⟩ : ∃ j, k' = j + 1 :=
      ⟨k' - 1, by have := h.enough_paused; simp only [Scan.roundsLeft] at this; omega⟩
    rcases Nat.lt_or_ge rest s.trail.assigned with hlt | hge
    · obtain ⟨l, hl⟩ : ∃ l, s.trail.falsified[rest]? = some l :=
        ⟨_, List.getElem?_eq_getElem (by rwa [Trail.length_falsified])⟩
      refine (rounds_succ_of_lt ⟨.all, p, rest, next⟩ hlt hl).trans ?_
      refine Eq.trans ?_ (rounds_succ_of_lt ⟨.rest, core, rest, next⟩ hlt hl).symm
      have hsweep : sweep .all l next s = (sweep .rest l next >>= resume l) s :=
        sweep_resume h.unneeded h.coherent h.anchored h.forced_le h.advanced h.fits.waiting hl
      refine (bind_congr_ok hsweep fun _ _ _ => rfl).trans ?_
      rw [bind_assoc]
      refine bind_congr_ok rfl fun r s₁ hrun => ?_
      cases r with
      | finished => exact ih k' (Nat.lt_succ_self k') (h.finished hlt hl hrun)
      | paused next' =>
        obtain ⟨hg, hlast, j, rfl, hpaced⟩ := h.paused hlt hl hrun
        have hdetour := rounds_core j rest next' hpaced.unneeded hpaced.coherent hlast
        rw [hlast] at hdetour
        have hagree := ih j (by omega) hpaced
        refine Eq.trans ?_ (hagree.trans hdetour.symm)
        exact (rounds_succ_of_lt ⟨.all, p, rest, next'⟩ (Nat.lt_of_lt_of_le hlt hg.assigned_le)
          (hg.getElem? hl)).symm
      | conflict => rfl
    · have hall := round_of_le ⟨.all, p, rest, next⟩ hge
      have hrest := round_of_le ⟨.rest, core, rest, next⟩ hge
      refine (bind_of_ok hall).trans (Eq.trans ?_ (bind_of_ok hrest).symm)
      rfl

theorem saturate_coreFirst (hu : Unneeded s) (h : Coherent n F body A s)
    (ha : Anchored body A s.trail.entries) (hf : s.trail.forced ≤ s.trail.assigned)
    (hp : s.trail.processed ≤ s.trail.assigned) (hpo : Poised A s) :
    saturate true s = saturate false s := by
  have hn := h.assigned_le
  have hlast : s.trail.processed + (s.trail.assigned - s.trail.processed) = s.trail.assigned := by
    omega
  obtain ⟨k, hk⟩ : ∃ k, 2 * s.trail.status.size =
      s.trail.assigned - s.trail.processed + 1 + k := by
    rw [h.trail.statusSize]
    exact ⟨2 * (2 * n + 3) - (s.trail.assigned - s.trail.processed + 1), by omega⟩
  have hcore := rounds_core k s.trail.processed 0 hu h hlast
  rw [← hk, hlast] at hcore
  have hpaced : Paced n F body A s.trail.assigned s.trail.processed 0
      (2 * s.trail.status.size) k s := by
    refine ⟨hu, h, ha, hf, hu.advanced h (hpo.advanced h true) rfl, ⟨rfl, hp⟩, ?_, ?_⟩
    · rw [h.trail.statusSize]
      omega
    · rw [h.trail.statusSize] at hk
      simp only [Scan.roundsLeft]
      omega
  exact hcore.trans (rounds_rest hpaced).symm

end Lockstep

section Pass

theorem replayLemma_coreFirst (hf : Forward L past A s)
    (hs : L.steps[past.length]? = some (.add h)) :
    replayLemma true past.length h s = replayLemma false past.length h s := by
  refine bind_congr_ok rfl fun view s₁ hsorted => ?_
  obtain ⟨hf₁, -, kept, dropped, hsort⟩ :=
    (ends_sortLemma (R := fun _ _ => True) hf hs).of_ok hsorted
  have hco₁ := hf₁.restored.coherent
  have hh : s₁.arena.Has h := hf₁.restored.has_lemma hs
  have hA : h ∉ A := fun hA => hf₁.not_involved hs (Or.inl hA)
  by_cases hsat : view.satisfied = true
  · rw [if_pos hsat, if_pos hsat]
  rw [if_neg hsat, if_neg hsat]
  refine bind_congr_ok rfl fun _ s₂ hattach => ?_
  obtain ⟨hco, heq⟩ := (ends_attachLong (R := fun _ _ => True) hco₁ hh hA).of_ok hattach
  match kept, hsort with
  | [], hsort =>
    rw [hsort.size]
    have hw : s₂.trail.Wf L.bound := hco.trail
    have hp : s₂.trail.processed = s₂.trail.assigned := by
      rw [heq]
      exact hf₁.restored.processed
    exact bind_congr_ok ((saturate_idle true hw hp).trans (saturate_idle false hw hp).symm)
      fun _ _ _ => rfl
  | [u], hsort =>
    rw [hsort.size]
    have hlit : s₂.arena.literal h 0 = .ok u := by
      rw [heq]
      exact hh.literal (by simp [hsort.literals])
    have hfirst := ask_of_ok (f := (·.arena.literal h 0)) hlit
    refine (bind_of_ok hfirst).trans (Eq.trans ?_ (bind_of_ok hfirst).symm)
    refine bind_congr_ok rfl fun _ s₃ hassign => ?_
    have hasg := (ends_assign_unit (R := fun _ _ => True) hf₁ hs hsort hsat hco heq).of_ok hassign
    have hsize := hasg.assigned_eq
    have hsat₃ : saturate true s₃ = saturate false s₃ := by
      refine saturate_coreFirst ?_ hasg.coherent (hasg.anchored hf₁) ?_ ?_ hasg.poised
      · rw [Unneeded, hasg.arena]
        exact hf₁.unneeded
      · rw [hasg.forced, hf₁.restored.forced]
        omega
      · rw [hasg.processed, hf₁.restored.processed]
        omega
    exact bind_congr_ok hsat₃ fun _ _ _ => rfl
  | x :: y :: more, hsort =>
    rw [hsort.size]
    rfl

theorem replayStep_coreFirst (hf : Forward L past A s)
    (hs : L.steps[past.length]? = some step) :
    replayStep true past.length step s = replayStep false past.length step s := by
  cases step with
  | add h => exact replayLemma_coreFirst hf hs
  | delete h => rfl
  | satisfied h => rfl
  | ignored => rfl

theorem replayFrom_coreFirst {steps : List Step} (hf : Forward L past A s)
    (hsteps : L.steps.drop past.length = steps) :
    replayFrom true past.length steps s = replayFrom false past.length steps s := by
  induction steps generalizing past A s with
  | nil => rfl
  | cons step steps ih =>
    have hs : L.steps[past.length]? = some step := by
      rw [← List.head?_drop, hsteps]
      rfl
    refine bind_congr_ok (replayStep_coreFirst hf hs) fun r s' hrun => ?_
    cases r with
    | some refutation => rfl
    | none =>
      obtain ⟨step', A', hf'⟩ :=
        (ends_replayStep (R := fun _ _ => True) (fun _ _ => trivial) hf hs).of_ok hrun
      refine ih hf' ?_
      rw [List.length_cons, ← List.drop_drop, hsteps]
      rfl

/-- The first pass over an input that was read does not depend on which clauses come first. -/
theorem Loaded.replay_coreFirst {f : Formula} {lines : Derivation} (hl : Loaded n F f lines s) :
    replay true s = replay false s := by
  have hf : s.trail.forced ≤ s.trail.assigned := by simp [hl.forced]
  have hp : s.trail.processed ≤ s.trail.assigned := by simp [hl.processed]
  refine bind_congr_ok (saturate_coreFirst hl.unneeded hl.coherent hl.anchored hf hp hl.poised) ?_
  intro r s₁ hrun
  cases r with
  | conflict => rfl
  | drained =>
    obtain ⟨hco, hd⟩ :=
      (ends_saturate (R := fun _ _ => True) hl.coherent hl.anchored hf hp hl.poised).of_ok hrun
    have hforward := hl.forward hco hd
    exact replayFrom_coreFirst hforward hforward.rest.symm

end Pass

end Engine

open Engine Engine.CheckM

variable {settings : Settings} {f : Formula} {d : Derivation} {s : State}

theorem readLines_coreFirst (settings : Settings) (b : Bool) (i : Nat) (d : Derivation) :
    readLines { settings with coreFirst := b } i d = readLines settings i d := by
  induction d generalizing i with
  | nil => rfl
  | cons line d ih =>
    rw [readLines, readLines, ih]
    rfl

theorem load_coreFirst (settings : Settings) (b : Bool) (f : Formula) (d : Derivation) :
    load { settings with coreFirst := b } f d = load settings f d := by
  simp only [load, readDerivation, readLines_coreFirst]

/-- Whether the clauses of the core come first changes neither what is read nor the first pass over
it: the result and the whole state at its end, or the rejection and the state it leaves, or the
fault, are the same. -/
theorem replay_coreFirst_irrelevant
    (hload : stateAt settings f d (.loaded .ready) = some s) (b : Bool) :
    stateAt { settings with coreFirst := b } f d (.loaded .ready) = some s ∧
      replay b s = replay settings.coreFirst s := by
  constructor
  · rw [← hload, stateAt, stateAt, load_coreFirst]
  · obtain ⟨lines, hread⟩ := read_of_stateAt hload
    have heq := hread.loaded.replay_coreFirst
    cases b <;> cases settings.coreFirst <;> simp [heq]

/-- A literal is derived before the conflict is met, with a detour and without. -/
theorem replay_coreFirst_irrelevant_unit : ∃ s,
    stateAt {} [[⟨1⟩], [⟨-1⟩, ⟨3⟩, ⟨4⟩], [⟨3⟩, ⟨-4⟩, ⟨5⟩], [⟨3⟩, ⟨-5⟩, ⟨-4⟩], [⟨-3⟩, ⟨6⟩],
      [⟨-3⟩, ⟨-6⟩]] [.add [⟨3⟩], .add []] (.loaded .ready) = some s ∧
    replay false s = replay true s ∧ (replay true s).toOption.map Prod.fst = some (.step 0) := by
  have h : (stateAt {} [[⟨1⟩], [⟨-1⟩, ⟨3⟩, ⟨4⟩], [⟨3⟩, ⟨-4⟩, ⟨5⟩], [⟨3⟩, ⟨-5⟩, ⟨-4⟩], [⟨-3⟩, ⟨6⟩],
      [⟨-3⟩, ⟨-6⟩]] [.add [⟨3⟩], .add []] (.loaded .ready)).any (fun s =>
        (replay true s).toOption.map Prod.fst = some (.step 0)) = true := by
    decide +kernel
  simp only [Option.any_eq_true, decide_eq_true_eq] at h
  obtain ⟨s, hs, hres⟩ := h
  exact ⟨s, hs, (replay_coreFirst_irrelevant hs false).2, hres⟩

end UnsatCore
