import UnsatCore.Proofs.Checking
import UnsatCore.Proofs.Loading

/-! The counts of lines. A line is counted when it is read and again when it is held back, left out,
checked or passed over, so the counts say how often each of this is written down. -/
namespace UnsatCore

open Engine Engine.CheckM

variable {settings : Settings} {f : Formula} {d lines : Derivation} {s s' s₀ : State}
  {i j n last : Nat} {coreFirst : Bool} {steps : List Step} {step old new : Step} {c given : Clause}

/-- The lines up to the first empty lemma, with it. Those after it are not read. -/
def Derivation.untilEmpty : Derivation → Derivation
  | [] => []
  | line :: rest => if line = .add [] then [line] else line :: untilEmpty rest

theorem Derivation.untilEmpty_eq (hhead : lines <+: d)
    (hreach : ∀ i < lines.length, d.Reaches i) (hend : lines = d ∨ .add [] ∈ lines) :
    d.untilEmpty = lines := by
  induction d generalizing lines with
  | nil => exact (List.prefix_nil.mp hhead).symm
  | cons line d ih =>
    rcases List.prefix_cons_iff.mp hhead with rfl | ⟨rest, rfl, hrest⟩
    · simp at hend
    by_cases hempty : line = .add []
    · have hnil : rest = [] := by
        by_contra hne
        have hpos := List.length_pos_of_ne_nil hne
        exact hreach 1 (by simpa using hpos) 0 Nat.one_pos (by simp [hempty])
      rw [untilEmpty, if_pos hempty, hnil]
    · rw [untilEmpty, if_neg hempty, ih hrest]
      · intro i hi j hj
        simpa using hreach (i + 1) (by simpa using hi) (j + 1) (by omega)
      · rcases hend with he | hm
        · exact Or.inl (List.cons.inj he).2
        · exact Or.inr ((List.mem_cons.mp hm).resolve_left (Ne.symm hempty))

section Steps

namespace Engine.Step

def isDeletion : Step → Bool
  | delete _ | ignored => true
  | add _ | satisfied _ => false

def isAdded : Step → Bool
  | add _ => true
  | delete _ | satisfied _ | ignored => false

def isSatisfied : Step → Bool
  | satisfied _ => true
  | add _ | delete _ | ignored => false

end Engine.Step

/-- A lemma was added or left out. -/
theorem countP_lemmas (steps : List Step) : (steps.countP fun step => !step.isDeletion) =
    steps.countP Step.isAdded + steps.countP Step.isSatisfied := by
  induction steps with
  | nil => rfl
  | cons step steps ih =>
    simp only [List.countP_cons, ih]
    cases step <;> simp [Step.isDeletion, Step.isAdded, Step.isSatisfied] <;> omega

theorem count_ignored_le (steps : List Step) :
    steps.count .ignored ≤ steps.countP Step.isDeletion := by
  apply List.countP_mono_left
  intro step _ h
  rw [beq_iff_eq.mp h]
  rfl

theorem countP_set {p : Step → Bool} (h : steps[i]? = some old) :
    (steps.set i new).countP p + (if p old then 1 else 0) =
      steps.countP p + (if p new then 1 else 0) := by
  induction steps generalizing i with
  | nil => cases h
  | cons step steps ih =>
    cases i with
    | zero =>
      cases h
      simp only [List.set_cons_zero, List.countP_cons]
      omega
    | succ i =>
      have hrest := ih h
      simp only [List.set_cons_succ, List.countP_cons]
      omega

end Steps

namespace Minutes

variable {m : Minutes}

/-- The counts agree with what is written down about the lines. -/
structure Tallied (m : Minutes) : Prop where
  lemmas : m.lemmas = m.steps.toList.countP fun step => !step.isDeletion
  deletions : m.deletions = m.steps.toList.countP Step.isDeletion
  ignored : m.ignored = m.steps.toList.count .ignored
  satisfied : m.satisfied = m.steps.toList.countP Step.isSatisfied

/-- No lemma was checked or passed over. -/
def Unjudged (m : Minutes) : Prop := m.checked = 0 ∧ m.skipped = 0

/-- One more line was read. -/
def note (m : Minutes) (step : Step) : Minutes :=
  { m with
    steps := m.steps.push step
    lemmas := m.lemmas + if !step.isDeletion then 1 else 0
    deletions := m.deletions + if step.isDeletion then 1 else 0
    ignored := m.ignored + if step == .ignored then 1 else 0
    satisfied := m.satisfied + if step.isSatisfied then 1 else 0 }

/-- A line became something else than what it was read as. -/
def revise (m : Minutes) (i : Nat) (step : Step) : Minutes :=
  { m with
    steps := m.steps.setIfInBounds i step
    ignored := m.ignored + if step == .ignored then 1 else 0
    satisfied := m.satisfied + if step.isSatisfied then 1 else 0 }

theorem Tallied.note (h : m.Tallied) (step : Step) : (m.note step).Tallied := by
  obtain ⟨hlemmas, hdeletions, hignored, hsatisfied⟩ := h
  constructor <;>
    simp only [Minutes.note, Array.toList_push, List.countP_append, List.count_append,
      List.countP_singleton, List.count_singleton, hlemmas, hdeletions, hignored, hsatisfied]

theorem Tallied.revise (h : m.Tallied) (hi : m.steps[i]? = some old) (hrev : Revises old new)
    (hne : new ≠ old) : (m.revise i new).Tallied := by
  obtain ⟨hlemmas, hdeletions, hignored, hsatisfied⟩ := h
  rw [← Array.getElem?_toList] at hi
  have hset (p : Step → Bool) : (m.steps.toList.set i new).countP p + _ = _ := countP_set hi
  have hlemmas' := hset fun step => !step.isDeletion
  have hdeletions' := hset Step.isDeletion
  have hignored' := hset (· == .ignored)
  have hsatisfied' := hset Step.isSatisfied
  cases hrev with
  | same => exact (hne rfl).elim
  | leftOut c =>
    constructor <;>
      simp [Minutes.revise, List.count, Step.isDeletion, Step.isSatisfied] at * <;> omega
  | held c =>
    constructor <;>
      simp [Minutes.revise, List.count, Step.isDeletion, Step.isSatisfied] at * <;> omega

/-- Every line is a lemma or a deletion. -/
theorem Tallied.size_eq (h : m.Tallied) : m.lemmas + m.deletions = m.steps.size := by
  have hsplit := List.length_eq_countP_add_countP (l := m.steps.toList) Step.isDeletion
  simp only [Bool.not_eq_true, Bool.decide_eq_false] at hsplit
  rw [h.lemmas, h.deletions, ← Array.length_toList, hsplit, Nat.add_comm]

theorem Tallied.ignored_le (h : m.Tallied) : m.ignored ≤ m.deletions := by
  rw [h.ignored, h.deletions]
  exact count_ignored_le m.steps.toList

end Minutes

section Intake

namespace Engine

/-- A deletion is carried out or ignored. -/
theorem minutes_of_resolve (h : resolve settings i given c s = .ok (step, s')) :
    s'.minutes = s.minutes ∧ step.isDeletion = true := by
  unfold resolve at h
  split at h
  · cases h
    exact ⟨rfl, rfl⟩
  obtain ⟨found, s₁, hlook, h⟩ := bind_eq_ok_iff.mp h
  rw [← Keeps.look (f := State.minutes) _ hlook]
  rcases found with _ | ⟨k, e⟩
  · simp only [resolveUnmatched] at h
    split at h
    · cases h
    · cases h
      exact ⟨rfl, rfl⟩
  · simp only [resolveMatch] at h
    split at h
    · cases h
      exact ⟨rfl, rfl⟩
    · cases h
      exact ⟨rfl, rfl⟩

theorem minutes_of_readDeletion (h : readDeletion settings i given c s = .ok ((), s')) :
    ∃ step, s'.minutes = s.minutes.note step := by
  obtain ⟨⟨⟩, s₁, hcount, h⟩ := bind_eq_ok_iff.mp h
  cases hcount
  obtain ⟨step, s₂, hresolve, h⟩ := bind_eq_ok_iff.mp h
  obtain ⟨hmin, hstep⟩ := minutes_of_resolve hresolve
  refine ⟨step, ?_⟩
  simp only [State.minutes, Minutes.mk.injEq, Counters.countDeletion] at hmin
  by_cases hi : step = .ignored
  · rw [if_pos hi] at h
    cases h
    simp [State.minutes, Minutes.note, hi, Step.isDeletion, Step.isSatisfied, hmin,
      Counters.countIgnored]
  · rw [if_neg hi] at h
    cases h
    have hs : step.isSatisfied = false := by
      cases step <;> simp_all [Step.isDeletion, Step.isSatisfied]
    simp [State.minutes, Minutes.note, hi, hstep, hs, hmin]

theorem minutes_of_readLemma (h : readLemma c s = .ok ((), s')) :
    ∃ step, s'.minutes = s.minutes.note step := by
  obtain ⟨⟨⟩, s₁, hcount, h⟩ := bind_eq_ok_iff.mp h
  cases hcount
  obtain ⟨e, s₂, hstore, h⟩ := bind_eq_ok_iff.mp h
  have hmin := Keeps.store (f := State.minutes) c (fun _ _ _ => rfl) hstore
  simp only [State.minutes, Minutes.mk.injEq, Counters.countLemma] at hmin
  cases h
  refine ⟨.add e, ?_⟩
  simp [State.minutes, Minutes.note, Step.isDeletion, Step.isSatisfied, hmin]

theorem minutes_of_readLine {b : Bool} {line : Derivation.Line}
    (h : readLine settings i line s = .ok (b, s')) :
    ∃ step, s'.minutes = s.minutes.note step := by
  obtain ⟨x, s₁, hnormalize, h⟩ := bind_eq_ok_iff.mp h
  rw [← Keeps.normalize (f := State.minutes) _ _ _ (fun _ _ => rfl) hnormalize]
  cases line with
  | delete given =>
    obtain ⟨⟨⟩, s₂, hread, h⟩ := bind_eq_ok_iff.mp h
    cases h
    exact minutes_of_readDeletion hread
  | add given =>
    obtain ⟨⟨⟩, s₂, hread, h⟩ := bind_eq_ok_iff.mp h
    obtain ⟨step, hstep⟩ := minutes_of_readLemma hread
    refine ⟨step, hstep ▸ ?_⟩
    split at h
    · cases h
      rfl
    · cases h
      rfl

/-- Every line that is read is counted. -/
theorem tallied_of_readLines (h : readLines settings i d s = .ok ((), s'))
    (ht : s.minutes.Tallied) (hu : s.minutes.Unjudged) :
    s'.minutes.Tallied ∧ s'.minutes.Unjudged := by
  induction d generalizing i s with
  | nil =>
    cases h
    exact ⟨ht, hu⟩
  | cons line d ih =>
    obtain ⟨last, s₁, hline, h⟩ := bind_eq_ok_iff.mp h
    obtain ⟨step, hstep⟩ := minutes_of_readLine hline
    have ht₁ : s₁.minutes.Tallied := hstep ▸ ht.note step
    have hu₁ : s₁.minutes.Unjudged := hstep ▸ hu
    cases last with
    | true =>
      cases h
      exact ⟨ht₁, hu₁⟩
    | false => exact ih h ht₁ hu₁

end Engine

theorem tallied_of_load (h : stateAt settings f d (.loaded .ready) = some s) :
    s.minutes.Tallied ∧ s.minutes.Unjudged := by
  obtain ⟨s₁, s₂, hformula, hlines, rfl⟩ := load_eq_ok_iff.mp (after_eq_some_iff.mp h)
  have hR : Objects settings f d fun _ _ => True := fun _ _ _ _ => trivial
  have hl : Loaded _ _ f [] s₁ := (ends_readFormula [] (fitting_excused f d) hR
    ((loaded_initial _ _).noted _ _) rfl).of_ok hformula
  have hcount : s₁.counters = {} := keeps_readFormula _ _ hformula
  have hsteps : s₁.steps.toList = [] := List.length_eq_zero_iff.mp hl.transcript.length
  have ht : s₁.minutes.Tallied := by
    constructor <;> simp [State.minutes, hcount, hsteps]
  have hu : s₁.minutes.Unjudged := by
    constructor <;> simp [State.minutes, hcount]
  have h₂ := tallied_of_readLines hlines ht hu
  exact h₂

end Intake

section Forth

namespace Engine

/-- A line that is carried out stays what it was read as, or is revised and counted again. -/
theorem minutes_of_replayStep {r : Option Refutation}
    (h : replayStep coreFirst i step s = .ok (r, s')) : s'.minutes = s.minutes ∨
      ∃ new, Revises step new ∧ new ≠ step ∧ s'.minutes = s.minutes.revise i new := by
  cases step with
  | satisfied c =>
    cases h
    exact Or.inl rfl
  | ignored =>
    cases h
    exact Or.inl rfl
  | delete c =>
    obtain ⟨⟨⟩, s₁, hrun, h⟩ := bind_eq_ok_iff.mp h
    cases h
    obtain ⟨held, s₂, hask, hrun⟩ := bind_eq_ok_iff.mp hrun
    rw [← Keeps.ask (f := State.minutes) _ hask]
    cases held with
    | true =>
      cases hrun
      exact Or.inr ⟨.ignored, .held c, by simp, rfl⟩
    | false => exact Or.inl (aside_minutes.detach c hrun)
  | add c =>
    obtain ⟨view, s₁, hsort, h⟩ := bind_eq_ok_iff.mp h
    rw [← aside_minutes.sortUnfalsified c hsort]
    by_cases hsat : view.satisfied = true
    · rw [if_pos hsat] at h
      cases h
      exact Or.inr ⟨.satisfied c, .leftOut c, by simp, rfl⟩
    · rw [if_neg hsat] at h
      refine Or.inl ((?_ : Keeps State.minutes _) h)
      refine .bind (.bind (.ask _) fun _ => .ite (.attach c) (.pure _)) fun _ => ?_
      split
      · refine .bind (keeps_saturate coreFirst) fun r => ?_
        cases r with
        | conflict => exact .pure _
        | drained => exact .reject _
      · refine .bind (.ask _) fun _ => .bind (.onTrail _) fun _ => ?_
        refine .bind (keeps_saturate coreFirst) fun r => ?_
        cases r with
        | conflict => exact .bind (.emit _) fun _ => .pure _
        | drained => exact .bind (.onTrail _) fun _ => .pure _
      · exact .pure _

theorem tallied_of_carry {r : Option Refutation} (h : carry coreFirst i r s = some s')
    (ht : s.minutes.Tallied) (hu : s.minutes.Unjudged) :
    s'.minutes.Tallied ∧ s'.minutes.Unjudged := by
  obtain ⟨step, hstep, hrun⟩ := carry_eq_some_iff.mp h
  rcases minutes_of_replayStep hrun with he | ⟨new, hrev, hne, he⟩
  · rw [he]
    exact ⟨ht, hu⟩
  · rw [he]
    exact ⟨ht.revise hstep hrev hne, hu⟩

theorem tallied_of_forth (h : forth coreFirst s₀ i = some s) (ht : s₀.minutes.Tallied)
    (hu : s₀.minutes.Unjudged) : s.minutes.Tallied ∧ s.minutes.Unjudged := by
  induction i generalizing s with
  | zero =>
    obtain ⟨s₁, hsat, rfl⟩ := forth_zero_eq_some_iff.mp h
    have hmin : s₁.minutes = s₀.minutes := keeps_saturate coreFirst hsat
    rw [← hmin] at ht hu
    exact ⟨ht, hu⟩
  | succ i ih =>
    obtain ⟨s₁, hforth, hcarry⟩ := Option.bind_eq_some_iff.mp h
    obtain ⟨ht₁, hu₁⟩ := ih hforth
    exact tallied_of_carry hcarry ht₁ hu₁

end Engine

end Forth

section Back

/-- The counts on the way back from line `last` after `j` lines: each lemma of these lines was
checked or passed over, and those that were checked are written down. -/
structure Minutes.Reviewed (last j : Nat) (m : Minutes) : Prop where
  tallied : m.Tallied
  judged : m.checked + m.skipped + (m.steps.toList.take (last + 1 - j)).countP Step.isAdded =
    (m.steps.toList.take (last + 1)).countP Step.isAdded
  justified : m.checked = m.justified.length
  later : ∀ step ∈ m.steps.toList.drop last, step.isSatisfied = false

theorem reviewed_of_back_zero (h : stateAt settings f d (.back last 0) = some s) :
    s.minutes.Reviewed last 0 := by
  obtain ⟨lines, s₀, past, A, sf, c, s₁, hread, hload, rfl, hsf, hf, hc, hcarry, -, hs⟩ :=
    exists_carry_of_back h
  obtain ⟨-, hmin⟩ := hf.inCore_of_carry hc hcarry
  obtain ⟨ht, hu⟩ := tallied_of_load hload
  obtain ⟨ht, hchecked, hskipped⟩ := tallied_of_forth hsf ht hu
  have hlater : ∀ step ∈ sf.steps.toList.drop past.length, step.isSatisfied = false := by
    intro step hm
    rw [hf.rest] at hm
    cases step with
    | satisfied c => exact (hread.loaded.ledger.not_satisfied c (List.mem_of_mem_drop hm)).elim
    | add | delete | ignored => rfl
  have hreviewed : sf.minutes.Reviewed past.length 0 := by
    refine ⟨ht, ?_, ?_, hlater⟩
    · rw [hchecked, hskipped, Nat.sub_zero, Nat.zero_add]
    · rw [hchecked, show sf.minutes.justified = [] from hf.justified, List.length_nil]
  rw [hs]
  exact hmin ▸ hreviewed

/-- Each line that is undone is reviewed. -/
theorem Engine.Judged.reviewed (h : Judged coreFirst (last - j) given s s') (hj : j ≤ last)
    (hr : s.minutes.Reviewed last j) : s'.minutes.Reviewed last (j + 1) := by
  have htake : (s.steps.toList.take (last + 1 - j)).countP Step.isAdded =
      (s.steps.toList.take (last + 1 - (j + 1))).countP Step.isAdded +
        (s.steps[last - j]?).toList.countP Step.isAdded := by
    rw [show last + 1 - j = last - j + 1 by omega, show last + 1 - (j + 1) = last - j by omega,
      List.take_add_one, List.countP_append, Array.getElem?_toList]
  obtain ⟨ht, hjudged, hjustified, hlater⟩ := hr
  rw [show s.minutes.steps = s.steps from rfl, htake] at hjudged
  cases h with
  | checked hp _ hm =>
    rw [hp.1] at hjudged
    rw [hm]
    refine ⟨⟨ht.lemmas, ht.deletions, ht.ignored, ht.satisfied⟩, ?_, ?_, hlater⟩
    · simp only [State.minutes, Option.toList_some, List.countP_singleton, Step.isAdded,
        if_true] at hjudged ⊢
      omega
    · rw [List.length_cons]
      exact congrArg (· + 1) hjustified
  | skipped hs _ _ hm =>
    rw [hs] at hjudged
    rw [hm]
    refine ⟨⟨ht.lemmas, ht.deletions, ht.ignored, ht.satisfied⟩, ?_, hjustified, hlater⟩
    simp only [State.minutes, Option.toList_some, List.countP_singleton, Step.isAdded,
      if_true] at hjudged ⊢
    omega
  | idle hno hm =>
    rw [hm]
    refine ⟨ht, ?_, hjustified, hlater⟩
    have hzero : (s.steps[last - j]?).toList.countP Step.isAdded = 0 := by
      rw [List.countP_eq_zero]
      intro step hstep
      rw [Option.mem_toList] at hstep
      cases step with
      | add c => exact (hno c hstep).elim
      | delete | satisfied | ignored => simp [Step.isAdded]
    rw [hzero] at hjudged
    exact hjudged

theorem reviewed_of_back (h : stateAt settings f d (.back last j) = some s) :
    s.minutes.Reviewed last j := by
  induction j generalizing s with
  | zero => exact reviewed_of_back_zero h
  | succ j ih =>
    obtain ⟨hj, t, ht, hjudged, -⟩ := judged_of_stateAt h
    exact hjudged.reviewed hj (ih ht)

/-- All lemmas up to line `last` are accounted for once its way back is over. -/
theorem Minutes.Reviewed.lemmas {m : Minutes} (h : m.Reviewed last (last + 1)) :
    m.satisfied + m.checked + m.skipped =
      (m.steps.toList.take (last + 1)).countP fun step => !step.isDeletion := by
  have hjudged := h.judged
  rw [Nat.sub_self, List.take_zero, List.countP_nil, Nat.add_zero] at hjudged
  have hlater : (m.steps.toList.drop (last + 1)).countP Step.isSatisfied = 0 := by
    rw [List.countP_eq_zero]
    intro step hstep
    have hmem : step ∈ m.steps.toList.drop last :=
      List.drop_subset_drop_left _ (Nat.le_succ last) hstep
    simp [h.later step hmem]
  have hsatisfied := h.tallied.satisfied
  rw [← List.take_append_drop (last + 1) m.steps.toList, List.countP_append, hlater] at hsatisfied
  rw [countP_lemmas]
  omega

end Back

section Record

/-- What became of a line is a deletion if the line is one. -/
theorem Engine.Recorded.map_isDeletion (h : Recorded f lines s) :
    s.steps.toList.map Step.isDeletion = lines.map Derivation.Line.isDeletion := by
  refine List.ext_getElem? fun i => ?_
  rw [List.getElem?_map, List.getElem?_map, Array.getElem?_toList]
  rcases Nat.lt_or_ge i lines.length with hi | hi
  · have hi' : i < s.steps.size := h.steps_size ▸ hi
    have hkeeps := h.steps i _ _ (List.getElem?_eq_getElem hi) (Array.getElem?_eq_getElem hi')
    rw [List.getElem?_eq_getElem hi, Array.getElem?_eq_getElem hi', Option.map_some,
      Option.map_some]
    generalize lines[i] = line at hkeeps
    generalize s.steps[i] = step at hkeeps
    cases line <;> cases step <;> first | rfl | exact hkeeps.elim
  · rw [List.getElem?_eq_none hi, Array.getElem?_eq_none (h.steps_size ▸ hi)]
    rfl

theorem Engine.Recorded.countP_take (h : Recorded f lines s) (p : Bool → Bool) (k : Nat) :
    (s.steps.toList.take k).countP (fun step => p step.isDeletion) =
      (lines.take k).countP fun line => p line.isDeletion := by
  have hmap := congrArg (fun l => (l.take k).countP p) h.map_isDeletion
  simp only [← List.map_take, List.countP_map] at hmap
  exact hmap

end Record

end UnsatCore
