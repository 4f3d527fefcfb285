import UnsatCore.Proofs.Framing
import UnsatCore.Proofs.Propagation
import UnsatCore.Proofs.Reference

/-! Which lemmas are checked. On the way back a lemma is checked if something that was met before
depends on it, and a lemma that is passed over is needed by nothing that comes later. -/
namespace UnsatCore

open Engine Engine.CheckM

variable {α β : Type} {settings : Settings} {f : Formula} {d lines : Derivation}
  {s s' s₀ s₁ s₂ t : State} {n i j k last : Nat} {coreFirst : Bool} {c : Handle} {L : Ledger}
  {past : List Frame} {fr : Frame} {A : Set Handle} {given : Clause} {lemmas : Array Clause}

section Minutes

/-- What is written down about the lines, and the numbers of those that were read, held back, left
out, checked or passed over. -/
structure Minutes where
  steps : Array Step
  justified : List Nat
  lemmas : Nat
  deletions : Nat
  ignored : Nat
  satisfied : Nat
  checked : Nat
  skipped : Nat

def Engine.State.minutes (s : State) : Minutes where
  steps := s.steps
  justified := s.justified
  lemmas := s.counters.lemmas
  deletions := s.counters.deletions
  ignored := s.counters.ignoredDeletions
  satisfied := s.counters.satisfiedLemmas
  checked := s.counters.checkedLemmas
  skipped := s.counters.skippedLemmas

namespace Engine

theorem aside_minutes : Aside State.minutes where
  arena _ _ := rfl
  watches _ _ := rfl
  trail _ _ := rfl
  log _ _ := rfl
  propagated _ := rfl

theorem keeps_saturate (coreFirst : Bool) : Keeps State.minutes (saturate coreFirst) :=
  aside_minutes.saturate (fun _ => rfl) coreFirst

theorem keeps_followsByUnits (coreFirst : Bool) (c : Handle) :
    Keeps State.minutes (followsByUnits coreFirst c) :=
  aside_minutes.followsByUnits (fun _ => rfl) coreFirst c

theorem keeps_assertLemma (c : Handle) : Keeps State.minutes (assertLemma c) := by
  refine .bind (aside_minutes.sortUnfalsified c) fun _ => .ite (.pure _) ?_
  refine .bind (.bind (.ask _) fun _ => .ite (.attach c) (.pure _)) fun _ => .ite ?_ (.pure _)
  exact .bind (.ask _) fun _ => .bind (.onTrail _) fun _ => .pure _

end Engine

end Minutes

section Conflict

theorem Engine.Assigned.saturated {u : Literal} {r : Saturation} (ha : Assigned L A c u s s₁)
    (hf : Forward L past A s) (h : saturate coreFirst s₁ = .ok (r, s₂)) :
    Saturated L.body (grow L.body A c) s₁ s₂ r := by
  have hsize := ha.assigned_eq
  have hfo : s₁.trail.forced ≤ s₁.trail.assigned := by
    rw [ha.forced, hf.restored.forced]
    omega
  have hpr : s₁.trail.processed ≤ s₁.trail.assigned := by
    rw [ha.processed, hf.restored.processed]
    omega
  exact ((ends_saturate (R := fun _ _ => True) ha.coherent (ha.anchored hf) hfo hpr
    ha.poised).of_ok h).2

/-- The lemma that met the conflict is needed for it: without the lemma there is none. -/
theorem Engine.Forward.inCore_of_refuted {u : Literal} (hf : Forward L past A s)
    (hs : L.steps[past.length]? = some (.add c)) (ha : Assigned L A c u s s₁)
    (hr : Refuted L.body (grow L.body A c) s₁ s₂) : s₂.arena.inCore c = true := by
  obtain ⟨C, hC, hcore, hg⟩ := hr.conflict
  have hh : s₁.arena.Has c := by
    rw [ha.arena]
    exact hf.restored.has_lemma hs
  refine (hcore c hh).mpr (Or.inr (by_contra fun hc => hf.not_conflicting ?_))
  refine hg _ _ (lists_map fun e he => ?_) fun e he hn => (ha.reason_ne_none hf e he hn).elim
  rcases ha.involved (hC.known e he) with hi | rfl
  · exact hf.alive_of_involved hi
  · exact (hc he).elim

/-- The first pass ends where a lemma made its last literal true and unit propagation met a
conflict. -/
theorem Engine.Forward.asserted_of_carry {r : Refutation} (hf : Forward L past A s)
    (hs : L.steps[past.length]? = some (.add c))
    (h : carry coreFirst past.length (some r) s = some s') : ∃ s₁ s₂,
      assertLemma c s = .ok (true, s₁) ∧ saturate coreFirst s₁ = .ok (.conflict, s₂) ∧
      s' = { s₂ with log := s'.log } := by
  obtain ⟨step, hstep, h⟩ := carry_eq_some_iff.mp h
  rw [hf.getElem?_steps, hs] at hstep
  cases hstep
  obtain ⟨view, s₁, hsorted, h⟩ := bind_eq_ok_iff.mp h
  rw [assertLemma, bind_of_ok hsorted]
  by_cases hsat : view.satisfied = true
  · rw [if_pos hsat] at h
    obtain ⟨_, _, -, h⟩ := bind_eq_ok_iff.mp h
    cases h
  rw [if_neg hsat] at h ⊢
  obtain ⟨⟨⟩, s₂, hattach, h⟩ := bind_eq_ok_iff.mp h
  obtain ⟨hf₁, ⟨kept, dropped, hsort⟩, -, heq⟩ := hf.placed hs hsorted hattach
  rw [bind_of_ok hattach]
  match hsize : view.size with
  | 0 =>
    rw [hsize] at h
    obtain rfl := List.length_eq_zero_iff.mp (hsort.size.symm.trans hsize)
    exact ((ends_replayEmpty (R := fun _ _ => True) (Q := fun _ _ => False)
      (fun _ _ => trivial) hf₁ hs hsort heq).of_ok h).elim
  | 1 =>
    rw [hsize] at h
    obtain ⟨unit, s₃, hunit, h⟩ := bind_eq_ok_iff.mp h
    obtain ⟨⟨⟩, s₄, hassign, h⟩ := bind_eq_ok_iff.mp h
    obtain ⟨result, s₅, hsaturate, h⟩ := bind_eq_ok_iff.mp h
    cases result with
    | drained =>
      obtain ⟨_, _, -, h⟩ := bind_eq_ok_iff.mp h
      cases h
    | conflict =>
      cases h
      refine ⟨s₄, s₅, ?_, hsaturate, rfl⟩
      rw [if_pos rfl, bind_of_ok hunit, bind_of_ok hassign]
      rfl
  | n + 2 =>
    rw [hsize] at h
    cases h

/-- A line that ends the first pass puts its lemma into the core, and writes nothing down. -/
theorem Engine.Forward.inCore_of_carry {r : Refutation} (hf : Forward L past A s)
    (hs : L.steps[past.length]? = some (.add c))
    (h : carry coreFirst past.length (some r) s = some s') :
    s'.arena.inCore c = true ∧ s'.minutes = s.minutes := by
  obtain ⟨s₁, s₂, hassert, hsat, heq⟩ := hf.asserted_of_carry hs h
  obtain ⟨u, s₀, hf₀, ha⟩ := hf.assigned hs hassert
  have hcore := hf₀.inCore_of_refuted hs ha (ha.saturated hf₀ hsat)
  have hmin := (keeps_saturate coreFirst hsat).trans (keeps_assertLemma c hassert)
  rw [heq]
  exact ⟨hcore, hmin⟩

end Conflict

section Judgement

/-- The lemma of line `i` is taken back and found in the core, and its check succeeds. -/
def Engine.PassesCheck (coreFirst : Bool) (i : Nat) (given : Clause) (c : Handle) (s : State) :
    Prop :=
  s.steps[i]? = some (.add c) ∧ ∃ t s', withdraw c s = .ok ((), t) ∧
    t.arena.isCore c = .ok true ∧ check coreFirst i given c t = .ok ((), s')

/-- What becomes of a line that is undone: its lemma is checked, or passed over, or it has none. -/
inductive Engine.Judged (coreFirst : Bool) (i : Nat) (given : Clause) (s s' : State) : Prop
  | checked {c : Handle} : PassesCheck coreFirst i given c s → s.arena.inCore c = true →
      s'.minutes = { s.minutes with
        justified := i :: s.justified, checked := s.counters.checkedLemmas + 1 } →
      Judged coreFirst i given s s'
  | skipped {c : Handle} {t : State} : s.steps[i]? = some (.add c) →
      withdraw c s = .ok ((), t) → t.arena.isCore c = .ok false →
      s'.minutes = { s.minutes with skipped := s.counters.skippedLemmas + 1 } →
      Judged coreFirst i given s s'
  | idle : (∀ c, s.steps[i]? ≠ some (.add c)) → s'.minutes = s.minutes →
      Judged coreFirst i given s s'

/-- Clauses stay in the core. -/
def Engine.CoreGrows (s s' : State) : Prop :=
  ∀ c, s.arena.Has c → s.arena.inCore c = true → s'.arena.Has c ∧ s'.arena.inCore c = true

/-- When a deletion is undone the core stays as it is. -/
theorem Engine.Restored.inCore_undoDelete (hr : Restored L (fr :: past) A s)
    (hstep : fr.step = .delete c) (h : undoDelete c s = .ok ((), s')) (e : Handle) :
    (s'.arena.Has e ↔ s.arena.Has e) ∧
      (s.arena.Has e → s'.arena.inCore e = s.arena.inCore e) := by
  obtain ⟨hcar, -, -, -, hpast⟩ := hr.chronicle
  obtain ⟨rfl, hent, hA, hq, hno⟩ := (hstep ▸ hcar).of_delete
  have hco := hr.coherent
  have hh : s.arena.Has c := (hr.records.has c).mpr (mem_added_of_take (hpast.known (Or.inl hA)))
  rw [← hent, Trail.map_literal_entries] at hno
  have hnr := hco.not_reason fun l hl =>
    hno l ((hco.stored.mem_iff hh).mp (List.mem_of_mem_head? hl))
  obtain ⟨view, s₁, hsort, h⟩ := bind_eq_ok_iff.mp h
  obtain ⟨kept, dropped, hco₁, -, hk, hic, -⟩ :=
    (ends_sortUnfalsified (R := fun _ _ => True) hco hh (by simp) hnr).of_ok hsort
  have hh₁ := (hk.has c).mpr hh
  have hlen : 2 ≤ (s₁.arena.literals c).length := by
    obtain ⟨⟨⟩, _, hrequire, -⟩ := bind_eq_ok_iff.mp h
    obtain ⟨b, _, hask, hrequire⟩ := bind_eq_ok_iff.mp hrequire
    rw [watchable, ask_of_ok hh₁.isWatchable] at hask
    cases hask
    by_contra hshort
    simp [hshort, fault] at hrequire
  obtain ⟨-, heq⟩ := (ends_attach (R := fun _ _ => True) hco₁ hh₁ hlen (by simp)).of_ok h
  rw [heq]
  refine ⟨hk.has e, fun he => ?_⟩
  by_cases hec : e = c
  · exact hec ▸ hic
  · exact hk.inCore e he hec

/-- A lemma that is undone is withdrawn and, if it is in the core, checked. -/
theorem Engine.undoLemma_eq_ok (h : undoLemma coreFirst i given c s = .ok ((), s')) :
    ∃ t, withdraw c s = .ok ((), t) ∧
      (t.arena.isCore c = .ok false ∧ s' = { t with counters := t.counters.countSkipped } ∨
      t.arena.isCore c = .ok true ∧ check coreFirst i given c t = .ok ((), s') ∧
        ∃ t', followsByUnits coreFirst c
            { t with log := t.log.push (.checking (t.arena.literals c) i) } = .ok (true, t') ∧
          s' = { t' with
            justified := i :: t'.justified, counters := t'.counters.countChecked }) := by
  obtain ⟨⟨⟩, t, hwithdraw, h⟩ := bind_eq_ok_iff.mp h
  refine ⟨t, hwithdraw, ?_⟩
  obtain ⟨core, t₁, hask, h⟩ := bind_eq_ok_iff.mp h
  obtain ⟨hcore, rfl⟩ := ask_eq_ok_iff.mp hask
  rw [hcore]
  cases core with
  | false =>
    cases h
    exact Or.inl ⟨rfl, rfl⟩
  | true =>
    refine Or.inr ⟨rfl, h, ?_⟩
    obtain ⟨ls, t₂, ⟨⟩, h⟩ := bind_eq_ok_iff.mp h
    obtain ⟨⟨⟩, t₃, ⟨⟩, h⟩ := bind_eq_ok_iff.mp h
    obtain ⟨b, t', hfollows, h⟩ := bind_eq_ok_iff.mp h
    cases b with
    | false => cases h
    | true =>
      cases h
      exact ⟨t', hfollows, rfl⟩

/-- Where the clause `c` can be assumed to be false and its check can start. -/
structure Engine.Testable (L : Ledger) (A : Set Handle) (c : Handle) (s : State) : Prop where
  coherent : Coherent L.bound L.excuse L.body A s
  anchored : Anchored L.body A s.trail.entries
  forced : s.trail.forced = s.trail.assigned
  processed : s.trail.processed = s.trail.assigned
  settled : ∀ d ∈ A, Settled s.trail.falsified (s.arena.literals d)
  reasons : ∀ e ∈ s.trail.entries, e.reason ≠ none
  has : s.arena.Has c
  proper : ∀ l ∈ L.body c, l.Proper

theorem Engine.Testable.noted (h : Testable L A c s) (log : Log) :
    Testable L A c { s with log } :=
  ⟨h.coherent.congr rfl rfl rfl, h.anchored, h.forced, h.processed, h.settled, h.reasons, h.has,
    h.proper⟩

/-- The literals of the clause were made false, up to the first one that is true. -/
theorem Engine.Testable.of_assume {r : Assumption} (h : Testable L A c s)
    (hrun : assume (s.arena.literals c) s = .ok (r, s')) :
    Coherent L.bound L.excuse L.body A s' ∧ Assumed (L.body c) s s' ∧
      s'.trail.forced ≤ s'.trail.assigned ∧ s'.trail.processed ≤ s'.trail.assigned ∧
      ∀ l, r = .refuted l → -l ∈ s'.trail.falsified := by
  have hmem : ∀ l ∈ s.arena.literals c, l ∈ L.body c := fun l hl =>
    (h.coherent.stored.mem_iff h.has).mp hl
  obtain ⟨hco, has, -, hr⟩ := (ends_assume (k := L.body c) (R := fun _ _ => True) h.coherent
    (fun l hl => h.proper l (hmem l hl))
    (fun l hl => h.coherent.stored.small_literal h.has hl) hmem).of_ok hrun
  have hle := has.assigned_le
  have hforced := h.forced
  have hprocessed := h.processed
  have hfixed := has.forced
  have hdone := has.processed
  refine ⟨hco, has, by omega, by omega, ?_⟩
  rintro l rfl
  exact hr.2

/-- What a true literal rests on enters the core. -/
theorem Engine.Coherent.ends_traceMarked {R : Rejection → State → Prop}
    (h : Coherent n F body A s) (ha : Anchored body A s.trail.entries)
    (hf : s.trail.forced ≤ s.trail.assigned) (hl : l ∈ s.trail.falsified) :
    Ends F R (do onTrail (·.mark l); traceReasons) s fun _ s' =>
      ∃ C, (∀ d ∈ C, s.arena.Has d) ∧ Entered C s s' := by
  obtain ⟨t, hmark, hw, hent, -, hforced, -⟩ := h.trail.mark hl
  have hsize : t.assigned = s.trail.assigned := by
    rw [← Trail.length_entries, hent, Trail.length_entries]
  have ht : Coherent n F body A { s with trail := t } := h.withTrail hw (hent ▸ h.grounded)
  simp only [ends_bind, ends_onTrail, hmark, yields_ok]
  refine (ends_traceReasons ht (hent ▸ ha) (by rw [hforced, hsize]; exact hf)).mono ?_
  rintro - s' ⟨-, -, hentered⟩
  refine ⟨_, ?_, hentered.enlarged, hentered.clauses, hentered.counters⟩
  rintro d ⟨e, he, hr, -⟩
  exact ht.grounded.has he hr

/-- A lemma that is withdrawn can be checked against what was there before it. -/
theorem Engine.Restored.testable (hr : Restored L (fr :: past) A s) (hstep : fr.step = .add c)
    (h : withdraw c s = .ok ((), s')) :
    Testable L fr.attached c s' ∧ s'.arena = s.arena := by
  obtain ⟨hcar, hanch, -, -, -⟩ := hr.chronicle
  obtain ⟨new, rfl, -, -, hpr, -⟩ := (hstep ▸ hcar).of_add
  obtain ⟨hr₁, hent, harena, -⟩ := (ends_withdraw (R := fun _ _ => True) hr hstep).of_ok h
  refine ⟨⟨hr₁.coherent, hent ▸ hanch, hr₁.forced, hr₁.processed, fun d hd => ?_,
    hr₁.chronicle.reason_ne_none, hr₁.has_lemma (hr.chronicle.addition hstep), hpr⟩, harena⟩
  rw [harena, ← Trail.map_literal_entries, hent]
  exact hr.boundaries fr List.mem_cons_self d (subset_grow hd) hd

theorem Engine.Restored.judged_undoLemma (hr : Restored L (fr :: past) A s)
    (hstep : fr.step = .add c) (h : undoLemma coreFirst past.length given c s = .ok ((), s')) :
    Judged coreFirst past.length given s s' ∧ CoreGrows s s' := by
  have hs := hr.getElem?_steps.trans (congrArg some hstep)
  obtain ⟨t, hwithdraw, h⟩ := undoLemma_eq_ok h
  obtain ⟨htest, harena⟩ := hr.testable hstep hwithdraw
  have hmin := aside_minutes.withdraw c hwithdraw
  rcases h with ⟨hcore, rfl⟩ | ⟨hcore, hcheck, t', hfollows, rfl⟩
  · refine ⟨.skipped hs hwithdraw hcore ?_, fun e he hc => ?_⟩
    · simpa [State.minutes, Counters.countSkipped] using hmin
    · rw [← harena] at he hc
      exact ⟨he, hc⟩
  · have htest' := htest.noted (t.log.push (.checking (t.arena.literals c) past.length))
    have hd := ((ends_followsByUnits (R := fun _ _ => True) htest'.coherent htest'.anchored
      htest'.forced htest'.processed htest'.settled htest'.reasons htest'.has
      htest'.proper).of_ok hfollows).2
    rw [if_pos rfl] at hd
    obtain ⟨C, -, hcores, -⟩ := hd.follows
    have hkeeps := (keeps_followsByUnits coreFirst c hfollows).trans hmin
    refine ⟨.checked ⟨hs, t, _, hwithdraw, hcore, hcheck⟩ ?_ ?_, fun e he hc => ?_⟩
    · rw [← harena]
      exact Except.ok.inj (htest.has.isCore.symm.trans hcore)
    · simp only [State.minutes, Minutes.mk.injEq] at hkeeps ⊢
      simp [Counters.countChecked, hkeeps]
    · rw [← harena] at he hc
      exact ⟨(hd.has e).mpr he, (hcores e he).mpr (Or.inl hc)⟩

theorem Engine.Restored.undoLine_eq (hr : Restored L (fr :: past) A s) :
    undoLine coreFirst lemmas past.length s =
      undoStep coreFirst past.length (lemmas.getD past.length []) fr.step s :=
  bind_of_ok (ask_of_ok (by simp [hr.getElem?_steps, Fault.require]))

/-- Each line that is undone is judged. -/
theorem Engine.Restored.judged (hr : Restored L (fr :: past) A s)
    (h : undoLine coreFirst lemmas past.length s = .ok ((), s')) :
    Judged coreFirst past.length (lemmas.getD past.length []) s s' ∧ CoreGrows s s' := by
  rw [hr.undoLine_eq] at h
  have hs := hr.getElem?_steps
  have hidle : (∀ c, fr.step ≠ .add c) → ∀ c, s.steps[past.length]? ≠ some (.add c) := by
    intro hno c hc
    rw [hs, Option.some_inj] at hc
    exact hno c hc
  cases hstep : fr.step with
  | add c =>
    rw [hstep] at h
    exact hr.judged_undoLemma hstep h
  | delete c =>
    rw [hstep] at h
    exact ⟨.idle (hidle (by simp [hstep])) (aside_minutes.undoDelete c h),
      fun e he hc => ⟨(hr.inCore_undoDelete hstep h e).1.mpr he,
        ((hr.inCore_undoDelete hstep h e).2 he).trans hc⟩⟩
  | satisfied c =>
    rw [hstep] at h
    cases h
    exact ⟨.idle (hidle (by simp [hstep])) rfl, fun _ he hc => ⟨he, hc⟩⟩
  | ignored =>
    rw [hstep] at h
    cases h
    exact ⟨.idle (hidle (by simp [hstep])) rfl, fun _ he hc => ⟨he, hc⟩⟩

theorem Engine.Judged.steps (h : Judged coreFirst i given s s') : s'.steps = s.steps := by
  cases h with
  | checked _ _ hm => exact congrArg Minutes.steps hm
  | skipped _ _ _ hm => exact congrArg Minutes.steps hm
  | idle _ hm => exact congrArg Minutes.steps hm

theorem Engine.Judged.checkedLemmas_le (h : Judged coreFirst i given s s') :
    s.counters.checkedLemmas ≤ s'.counters.checkedLemmas := by
  have hle : ∀ {m : Minutes}, s'.minutes = m → s.counters.checkedLemmas ≤ m.checked →
      s.counters.checkedLemmas ≤ s'.counters.checkedLemmas := by
    rintro _ rfl hle
    exact hle
  cases h with
  | checked _ _ hm => exact hle hm (Nat.le_succ _)
  | skipped _ _ _ hm => exact hle hm (Nat.le_refl _)
  | idle _ hm => exact hle hm (Nat.le_refl _)

/-- A lemma that is not in the core when it is taken back does not get to pass. -/
theorem Engine.PassesCheck.isCore_ne {c' : Handle} (hp : PassesCheck coreFirst i given c' s)
    (hs : s.steps[i]? = some (.add c)) (hw : withdraw c s = .ok ((), t)) :
    t.arena.isCore c ≠ .ok false := by
  obtain ⟨hs', t', s', hw', hcore, -⟩ := hp
  rw [hs, Option.some_inj, Step.add.injEq] at hs'
  subst hs'
  rw [hw, Except.ok.injEq, Prod.mk.injEq] at hw'
  simp [hw'.2, hcore]

theorem Engine.Judged.of_passes (h : Judged coreFirst i given s s')
    (hp : PassesCheck coreFirst i given c s) : s.arena.inCore c = true ∧
      s'.counters.checkedLemmas = s.counters.checkedLemmas + 1 := by
  cases h with
  | @checked c' hp' hcore hm =>
    have hs := hp'.1
    rw [hp.1, Option.some_inj, Step.add.injEq] at hs
    exact ⟨hs ▸ hcore, congrArg Minutes.checked hm⟩
  | skipped hs hw hcore _ => exact (hp.isCore_ne hs hw hcore).elim
  | idle hno _ => exact (hno c hp.1).elim

/-- Passing the check is written down, and nothing else is. -/
theorem Engine.Judged.mem_justified_iff (h : Judged coreFirst i given s s') :
    k ∈ s'.justified ↔ k ∈ s.justified ∨ k = i ∧ ∃ c, PassesCheck coreFirst i given c s := by
  have hnone : s'.justified = s.justified → (¬ ∃ c, PassesCheck coreFirst i given c s) →
      (k ∈ s'.justified ↔ k ∈ s.justified ∨ k = i ∧ ∃ c, PassesCheck coreFirst i given c s) :=
    fun he hno => by simp [he, hno]
  cases h with
  | checked hp _ hm =>
    rw [show s'.justified = i :: s.justified from congrArg Minutes.justified hm, List.mem_cons,
      or_comm]
    exact or_congr_right (iff_self_and.mpr fun _ => ⟨_, hp⟩)
  | skipped hs hw hcore hm =>
    exact hnone (congrArg Minutes.justified hm) fun ⟨c, hp⟩ => hp.isCore_ne hs hw hcore
  | idle hno hm =>
    exact hnone (congrArg Minutes.justified hm) fun ⟨c, hs, _⟩ => hno c hs

end Judgement

section Ledger

/-- A lemma is that of one line only. -/
theorem Engine.Ledger.line_unique (hi : L.steps[i]? = some (.add c))
    (hj : L.steps[j]? = some (.add c)) : i = j := by
  rcases Nat.lt_trichotomy i j with hlt | he | hlt
  · exact (L.not_known hj (L.known_of_step hi hlt)).elim
  · exact he
  · exact (L.not_known hi (L.known_of_step hj hlt)).elim

/-- The clause of a line that was added, or left out later. -/
def Engine.State.lemmaAt (s : State) (i : Nat) (c : Handle) : Prop :=
  s.steps[i]? = some (.add c) ∨ s.steps[i]? = some (.satisfied c)

theorem Engine.Ledger.Records.addition (hr : L.Records s) (h : s.lemmaAt i c) :
    L.steps[i]? = some (.add c) := by
  have hlt : i < s.steps.size := by
    rcases h with h | h <;> exact (Array.getElem?_eq_some_iff.mp h).1
  obtain ⟨orig, hget⟩ : ∃ orig, L.steps[i]? = some orig :=
    ⟨_, List.getElem?_eq_getElem (hr.size ▸ hlt)⟩
  rcases h with h | h
  · cases hr.revised i _ _ hget h with
    | same => exact hget
  · cases hr.revised i _ _ hget h with
    | leftOut => exact hget
    | same =>
      have hlt' : i < L.lines.length := by
        rw [← L.transcript.length, ← hr.size]
        exact hlt
      have hread := L.transcript.read i _ _ (List.getElem?_eq_getElem hlt') hget
      cases hl : L.lines[i] <;> simp [hl, ReadAs] at hread

end Ledger

section Review

/-- Back from line `last`, the lemma `c` of a line is checked, and the check succeeds. -/
def Checked (settings : Settings) (f : Formula) (d : Derivation) (last line : Nat) (c : Handle) :
    Prop :=
  line ≤ last ∧ ∃ s, stateAt settings f d (.back last (last - line)) = some s ∧
    PassesCheck settings.coreFirst line ((d.map Derivation.Line.clause).toArray.getD line []) c s

/-- Back from line `last`, the lemma `c` of a line is counted as passed over. -/
def Skipped (settings : Settings) (f : Formula) (d : Derivation) (last line : Nat) (c : Handle) :
    Prop :=
  line ≤ last ∧ ∃ s s', stateAt settings f d (.back last (last - line)) = some s ∧
    stateAt settings f d (.back last (last - line + 1)) = some s' ∧
    s.steps[line]? = some (.add c) ∧
    s'.counters.skippedLemmas = s.counters.skippedLemmas + 1

/-- The way back starts where a line of the first pass met the conflict. -/
theorem exists_carry_of_back (h : stateAt settings f d (.back last 0) = some s) :
    ∃ lines s₀ past A sf c s₁, ∃ hread : ReadTo (maxVar f d) True f d lines s₀,
      stateAt settings f d (.loaded .ready) = some s₀ ∧ past.length = last ∧
      forth settings.coreFirst s₀ past.length = some sf ∧
      Forward hread.loaded.ledger past A sf ∧
      hread.loaded.ledger.steps[past.length]? = some (.add c) ∧
      carry settings.coreFirst past.length (some (.step past.length)) sf = some s₁ ∧
      Overturned hread.loaded.ledger past A c sf s₁ ∧
      s = { s₁ with log := s.log, trail := s.trail } := by
  obtain ⟨s₀, hload, hs⟩ := Option.bind_eq_some_iff.mp h
  obtain ⟨lines, hread⟩ := read_of_load hload
  obtain ⟨s₁, h₁, -⟩ := Option.bind_eq_some_iff.mp hs
  obtain ⟨sf, hsf, hcarry⟩ := Option.bind_eq_some_iff.mp h₁
  obtain ⟨past, A, rfl, hf, -⟩ := hread.loaded.forward_of_forth hsf
  obtain ⟨-, c, hc, ho⟩ := hf.replayed hcarry
  rw [back_zero _ hsf hcarry] at hs
  cases hs
  exact ⟨lines, s₀, past, A, sf, c, s₁, hread, hload, rfl, hsf, hf, hc, hcarry, ho, rfl⟩

/-- The conflict is met without a check, and its lemma is needed. -/
theorem start_of_back (h : stateAt settings f d (.back last 0) = some s) :
    s.justified = [] ∧ ∃ c, s.steps[last]? = some (.add c) ∧ s.arena.Has c ∧
      s.arena.inCore c = true := by
  obtain ⟨lines, s₀, past, A, sf, c, s₁, hread, -, rfl, -, hf, hc, hcarry, ho, hs⟩ :=
    exists_carry_of_back h
  obtain ⟨hcore, hmin⟩ := hf.inCore_of_carry hc hcarry
  rw [hs]
  exact ⟨(congrArg Minutes.justified hmin).trans hf.justified, c, ho.restored.getElem?_steps,
    ho.restored.has_lemma hc, hcore⟩

/-- One more line is undone. -/
theorem undoLine_of_back (h : stateAt settings f d (.back last (j + 1)) = some s') :
    ∃ L fr past A s, last = past.length + j ∧ Restored L (fr :: past) A s ∧
      stateAt settings f d (.back last j) = some s ∧
      undoLine settings.coreFirst (d.map Derivation.Line.clause).toArray past.length s =
        .ok ((), s') := by
  obtain ⟨s₀, hload, hs⟩ := Option.bind_eq_some_iff.mp h
  obtain ⟨lines, hread⟩ := read_of_load hload
  simp only [back, Option.ite_none_right_eq_some, Option.bind_eq_some_iff,
    after_eq_some_iff] at hs
  obtain ⟨hj, s, hs, hrun⟩ := hs
  obtain ⟨past, A, hlen, hr⟩ :=
    hread.loaded.returned_of_back (gives_of_isPrefix hread.loaded hread.head) hs
  obtain ⟨fr, past, rfl⟩ := List.exists_cons_of_length_pos (l := past) (by omega)
  rw [List.length_cons] at hlen
  obtain rfl : last = past.length + j := by omega
  rw [Nat.add_sub_cancel] at hrun
  exact ⟨_, fr, past, A, s, rfl, hr.restored, (stateAt_back hload _ _).trans hs, hrun⟩

theorem judged_of_stateAt (h : stateAt settings f d (.back last (j + 1)) = some s') :
    j ≤ last ∧ ∃ s, stateAt settings f d (.back last j) = some s ∧
      Judged settings.coreFirst (last - j)
        ((d.map Derivation.Line.clause).toArray.getD (last - j) []) s s' ∧ CoreGrows s s' := by
  obtain ⟨L, fr, past, A, s, rfl, hr, hs, hrun⟩ := undoLine_of_back h
  rw [Nat.add_sub_cancel]
  exact ⟨Nat.le_add_left _ _, s, hs, hr.judged hrun⟩

/-- What came before a moment on the way back. -/
theorem exists_earlier (h : stateAt settings f d (.back last k) = some s') (hjk : j ≤ k) :
    ∃ s, stateAt settings f d (.back last j) = some s ∧ CoreGrows s s' ∧ s'.steps = s.steps ∧
      s.counters.checkedLemmas ≤ s'.counters.checkedLemmas := by
  induction k, hjk using Nat.le_induction generalizing s' with
  | base => exact ⟨s', h, fun _ hh hc => ⟨hh, hc⟩, rfl, Nat.le_refl _⟩
  | succ k hjk ih =>
    obtain ⟨-, t, ht, hjudged, hgrows⟩ := judged_of_stateAt h
    obtain ⟨s, hs, hgrows', hsteps, hle⟩ := ih ht
    refine ⟨s, hs, fun c hh hc => ?_, hjudged.steps.trans hsteps,
      hle.trans hjudged.checkedLemmas_le⟩
    obtain ⟨hh, hc⟩ := hgrows' c hh hc
    exact hgrows c hh hc

/-- The lines that are written down as justified are those whose lemma was checked. -/
theorem mem_justified_iff (h : stateAt settings f d (.back last j) = some s) :
    i ∈ s.justified ↔ last < i + j ∧ ∃ c, Checked settings f d last i c := by
  induction j generalizing s with
  | zero =>
    rw [(start_of_back h).1]
    refine iff_of_false (by simp) fun ⟨hlt, c, hle, _⟩ => ?_
    omega
  | succ j ih =>
    obtain ⟨hj, t, ht, hjudged, -⟩ := judged_of_stateAt h
    have hback : last - (last - j) = j := by omega
    rw [hjudged.mem_justified_iff, ih ht]
    constructor
    · rintro (⟨hlt, hc⟩ | ⟨rfl, c, hc⟩)
      · exact ⟨by omega, hc⟩
      · exact ⟨by omega, c, Nat.sub_le _ _, t, by rw [hback]; exact ht, hc⟩
    · rintro ⟨hlt, c, hle, t', ht', hc⟩
      by_cases hi : i = last - j
      · subst hi
        rw [hback, ht, Option.some_inj] at ht'
        exact Or.inr ⟨rfl, c, ht' ▸ hc⟩
      · exact Or.inl ⟨by omega, c, hle, t', ht', hc⟩

/-- The lemma of a line that is in the core when the line is undone is one that was checked. -/
theorem mem_justified_of_inCore (h : stateAt settings f d (.back last j) = some s)
    (hi : s.lemmaAt i c) (hcore : s.arena.inCore c = true) (hlt : last < i + j) :
    i ∈ s.justified := by
  obtain ⟨s₀, hload, hs⟩ := Option.bind_eq_some_iff.mp h
  obtain ⟨lines, hread⟩ := read_of_load hload
  obtain ⟨past, A, hlen, hr⟩ :=
    hread.loaded.returned_of_back (gives_of_isPrefix hread.loaded hread.head) hs
  have hadd := hr.restored.records.addition hi
  rcases hr.audited.source c (hr.restored.has_lemma hadd) hcore with hm | ⟨k, hk, hadd'⟩
  · have hknown := (hr.restored.chronicle.known_of_met hm).mono (j := i) (by omega)
    exact (Ledger.not_known hadd hknown).elim
  · exact Ledger.line_unique hadd hadd' ▸ hk

theorem isCore_eq (h : stateAt settings f d (.back last j) = some s) (hi : s.lemmaAt i c) :
    s.arena.Has c ∧ s.arena.isCore c = .ok (s.arena.inCore c) := by
  obtain ⟨s₀, hload, hs⟩ := Option.bind_eq_some_iff.mp h
  obtain ⟨lines, hread⟩ := read_of_load hload
  obtain ⟨past, A, -, hr⟩ :=
    hread.loaded.returned_of_back (gives_of_isPrefix hread.loaded hread.head) hs
  have hh := hr.restored.has_lemma (hr.restored.records.addition hi)
  exact ⟨hh, hh.isCore⟩

theorem Checked.inCore (hc : Checked settings f d last i c)
    (h : stateAt settings f d (.back last k) = some s) (hlt : last < i + k) :
    s.steps[i]? = some (.add c) ∧ s.arena.inCore c = true := by
  obtain ⟨hle, t, ht, hp⟩ := hc
  obtain ⟨u, hu, hgrows, hsteps, -⟩ := exists_earlier (j := last - i + 1) h (by omega)
  obtain ⟨-, t', ht', hjudged, hgrows'⟩ := judged_of_stateAt hu
  rw [ht, Option.some_inj] at ht'
  subst ht'
  rw [show last - (last - i) = i by omega] at hjudged
  obtain ⟨hh, -⟩ := isCore_eq ht (Or.inl hp.1)
  obtain ⟨hh, hcore⟩ := hgrows' c hh (hjudged.of_passes hp).1
  exact ⟨by rw [hsteps, hjudged.steps, hp.1], (hgrows c hh hcore).2⟩

theorem Skipped.not_checked {c' : Handle} (h : Skipped settings f d last i c) :
    ¬ Checked settings f d last i c' := by
  obtain ⟨hle, s, s', hs, hs', hadd, hcount⟩ := h
  rintro ⟨-, t, ht, hp⟩
  rw [hs, Option.some_inj] at ht
  subst ht
  obtain ⟨-, t, ht, hjudged, -⟩ := judged_of_stateAt hs'
  rw [hs, Option.some_inj] at ht
  subst ht
  rw [show last - (last - i) = i by omega] at hjudged
  cases hjudged with
  | checked _ _ hm =>
    have hsame : s'.counters.skippedLemmas = s.counters.skippedLemmas :=
      congrArg Minutes.skipped hm
    omega
  | skipped hadd' hw hcore _ => exact hp.isCore_ne hadd' hw hcore
  | idle hno _ => exact hno c hadd

/-- No lemma is in the core before the conflict is met. -/
theorem isCore_eq_false_of_forth (h : stateAt settings f d (.forth k) = some s)
    (h' : stateAt settings f d (.back last j) = some s') (hi : s'.lemmaAt i c) :
    s.arena.isCore c = .ok false := by
  obtain ⟨s₀, hload, hs⟩ := Option.bind_eq_some_iff.mp h
  obtain ⟨s₀', hload', hs'⟩ := Option.bind_eq_some_iff.mp h'
  rw [hload, Option.some_inj] at hload'
  subst hload'
  obtain ⟨lines, hread⟩ := read_of_load hload
  obtain ⟨past, A, -, hf, -⟩ := hread.loaded.forward_of_forth hs
  obtain ⟨past', A', -, hr⟩ :=
    hread.loaded.returned_of_back (gives_of_isPrefix hread.loaded hread.head) hs'
  have hh := hf.restored.has_lemma (hr.restored.records.addition hi)
  rw [hh.isCore, hf.unneeded c hh]

/-- The lemmas that are in the core once all lines are undone are those that were checked. -/
theorem isCore_iff_checked (h : stateAt settings f d (.back n (n + 1)) = some s)
    (hi : s.lemmaAt i c) : s.arena.isCore c = .ok true ↔
      s.steps[i]? = some (.add c) ∧ Checked settings f d n i c := by
  rw [(isCore_eq h hi).2, Except.ok.injEq]
  constructor
  · intro hcore
    have hj := mem_justified_of_inCore h hi hcore (by omega)
    obtain ⟨hlt, c', hc'⟩ := (mem_justified_iff h).mp hj
    have hs := (hc'.inCore h hlt).1
    rcases hi with hi | hi
    · rw [hi, Option.some_inj, Step.add.injEq] at hs
      exact ⟨hi, hs ▸ hc'⟩
    · rw [hi] at hs
      cases hs
  · rintro ⟨-, hc⟩
    exact (hc.inCore h (by omega)).2

/-- A lemma that was passed over is not needed by any check that comes later. -/
theorem Skipped.isCore_eq_false (hskip : Skipped settings f d last i c)
    (h : stateAt settings f d (.back last k) = some s) (hlt : last < i + k) :
    s.arena.isCore c = .ok false := by
  obtain ⟨-, u, -, hu, -, hadd, -⟩ := id hskip
  obtain ⟨u', hu', -, hsteps, -⟩ := exists_earlier (j := last - i) h (by omega)
  rw [hu, Option.some_inj] at hu'
  subst hu'
  have hi : s.lemmaAt i c := Or.inl (by rw [hsteps, hadd])
  rw [(isCore_eq h hi).2, Except.ok.injEq, Bool.eq_false_iff]
  intro hcore
  obtain ⟨-, c', hc'⟩ := (mem_justified_iff h).mp (mem_justified_of_inCore h hi hcore hlt)
  exact hskip.not_checked hc'

/-- The core only grows on the way back, so a lemma that is not in it at the end never was. -/
theorem isCore_eq_false_of_back (hend : stateAt settings f d (.back last (last + 1)) = some s₂)
    (hi : s₂.lemmaAt i c) (hout : s₂.arena.isCore c ≠ .ok true)
    (h : stateAt settings f d (.back last k) = some s) : s.arena.isCore c = .ok false := by
  have hk : k ≤ last + 1 := by
    cases k with
    | zero => exact Nat.zero_le _
    | succ k => exact Nat.succ_le_succ (judged_of_stateAt h).1
  obtain ⟨s', hs', hgrows, hsteps, -⟩ := exists_earlier hend hk
  rw [h, Option.some_inj] at hs'
  subst hs'
  have hi' : s.lemmaAt i c := by
    unfold State.lemmaAt
    rwa [← hsteps]
  obtain ⟨hh, he⟩ := isCore_eq h hi'
  rw [he, Except.ok.injEq, Bool.eq_false_iff]
  intro hcore
  obtain ⟨-, hcore₂⟩ := hgrows c hh hcore
  exact hout (by rw [(isCore_eq hend hi).2, hcore₂])

/-- The lemma that met the conflict is the first one to be checked. -/
theorem exists_checked_last (hend : stateAt settings f d (.back last (last + 1)) = some s₂) :
    ∃ c, s₂.steps[last]? = some (.add c) ∧ s₂.arena.isCore c = .ok true ∧
      Checked settings f d last last c := by
  obtain ⟨s, hs, hgrows, hsteps, -⟩ := exists_earlier hend (Nat.zero_le _)
  obtain ⟨-, c, hadd, hh, hcore⟩ := start_of_back hs
  have hi : s₂.steps[last]? = some (.add c) := by rw [hsteps, hadd]
  have hcore₂ : s₂.arena.isCore c = .ok true := by
    rw [(isCore_eq hend (Or.inl hi)).2, (hgrows c hh hcore).2]
  exact ⟨c, hi, hcore₂, ((isCore_iff_checked hend (Or.inl hi)).mp hcore₂).2⟩

theorem Checked.checkedLemmas_pos (hc : Checked settings f d last last c)
    (hend : stateAt settings f d (.back last (last + 1)) = some s₂) :
    1 ≤ s₂.counters.checkedLemmas := by
  obtain ⟨u, hu, -, -, hle⟩ := exists_earlier (j := 1) hend (by omega)
  obtain ⟨-, s', hs', hjudged, -⟩ := judged_of_stateAt (j := 0) hu
  obtain ⟨-, t, ht, hp⟩ := hc
  rw [Nat.sub_self, hs', Option.some_inj] at ht
  subst ht
  have hcount := (hjudged.of_passes hp).2
  omega

/-- Where a run of the second pass ends, the lemmas in the core are those that were checked. None is
needed after it was passed over, left out or never reached. The one that met the conflict is
needed, so at least one is checked. -/
theorem justify_core_iff_checked (hload : stateAt settings f d (.loaded .ready) = some s₀)
    (hreplay : replay settings.coreFirst s₀ = .ok (.step n, s₁))
    (hjust : justify settings.coreFirst (d.map Derivation.Line.clause).toArray n s₁ =
      .ok ((), s₂)) :
    (∀ i c, s₂.lemmaAt i c → (s₂.arena.isCore c = .ok true ↔
      s₂.steps[i]? = some (.add c) ∧ Checked settings f d n i c)) ∧
    (∀ i c, Skipped settings f d n i c → ∀ k s, n < i + k →
      stateAt settings f d (.back n k) = some s → s.arena.isCore c = .ok false) ∧
    (∀ i c, s₂.lemmaAt i c → s₂.steps[i]? = some (.satisfied c) ∨ n < i →
      (∀ k s, stateAt settings f d (.forth k) = some s → s.arena.isCore c = .ok false) ∧
      ∀ k s, stateAt settings f d (.back n k) = some s → s.arena.isCore c = .ok false) ∧
    (∃ c, s₂.steps[n]? = some (.add c) ∧ s₂.arena.isCore c = .ok true ∧
      Checked settings f d n n c) ∧
    1 ≤ s₂.counters.checkedLemmas := by
  obtain ⟨lines, hread⟩ := read_of_stateAt hload
  obtain ⟨sf, hsf, hcarry⟩ := hread.loaded.forth_of_replay hreplay
  have hend : stateAt settings f d (.back n (n + 1)) = some s₂ := by
    rw [stateAt_back hload]
    exact back_of_justify hsf hcarry hjust
  obtain ⟨c, hadd, hcore, hc⟩ := exists_checked_last hend
  refine ⟨fun i c hi => isCore_iff_checked hend hi,
    fun i c hskip k s hlt hs => hskip.isCore_eq_false hs hlt, fun i c hi hout => ?_,
    ⟨c, hadd, hcore, hc⟩, hc.checkedLemmas_pos hend⟩
  -- A lemma that was checked is still recorded as added, and its line is not after the last one.
  have hno : s₂.arena.isCore c ≠ .ok true := by
    intro hcore
    obtain ⟨hadd, hle, -⟩ := (isCore_iff_checked hend hi).mp hcore
    rcases hout with hout | hout
    · rw [hadd] at hout
      cases hout
    · omega
  exact ⟨fun k s hs => isCore_eq_false_of_forth hs hend hi,
    fun k s hs => isCore_eq_false_of_back hend hi hno hs⟩

/-- The first lemma has no part in the conflict that the second one meets. -/
theorem justify_core_iff_checked_idle : ∃ s₀ s₁ s₂ c,
    stateAt {} (Signings.clauses 2) [.add [⟨1⟩, ⟨3⟩], .add [⟨1⟩]] (.loaded .ready) = some s₀ ∧
    replay true s₀ = .ok (.step 1, s₁) ∧
    justify true #[[⟨1⟩, ⟨3⟩], [⟨1⟩]] 1 s₁ = .ok ((), s₂) ∧
    s₂.steps[0]? = some (.add c) ∧ s₂.arena.isCore c = .ok false ∧
    ¬ Checked {} (Signings.clauses 2) [.add [⟨1⟩, ⟨3⟩], .add [⟨1⟩]] 1 0 c ∧
    1 ≤ s₂.counters.checkedLemmas := by
  -- The four clauses of the formula take up the first sixteen words.
  have h : ((stateAt {} (Signings.clauses 2) [.add [⟨1⟩, ⟨3⟩], .add [⟨1⟩]]
      (.loaded .ready)).bind fun s => (after (replay true) (.step 1) s).bind
        (after (justify true #[[⟨1⟩, ⟨3⟩], [⟨1⟩]] 1) ())).any (fun s =>
          s.steps[0]? = some (.add ⟨16⟩) && (s.arena.isCore ⟨16⟩).toOption = some false) =
        true := by
    decide +kernel
  simp only [Option.any_eq_true, Option.bind_eq_some_iff, after_eq_some_iff, Bool.and_eq_true,
    decide_eq_true_eq] at h
  obtain ⟨s₂, ⟨s₀, hload, s₁, hreplay, hjust⟩, hadd, hstep⟩ := h
  have hcore := eq_ok_of_toOption hstep
  obtain ⟨hiff, -, -, -, hcount⟩ := justify_core_iff_checked hload hreplay hjust
  refine ⟨s₀, s₁, s₂, _, hload, hreplay, hjust, hadd, hcore, fun hc => ?_, hcount⟩
  have htrue := (hiff 0 _ (Or.inl hadd)).mpr ⟨hadd, hc⟩
  rw [hcore] at htrue
  cases htrue

end Review

end UnsatCore
