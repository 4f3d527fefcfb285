import UnsatCore.Proofs.Saturation
import UnsatCore.Proofs.Transcript

/-! The course of the first pass, line by line, with what was attached and assigned before each
line: the second pass goes back along it. What enters the core on the way is accounted for, as a
clause of the formula, a lemma that is still to be checked, or one that was. -/
namespace UnsatCore.Engine

variable {A A' : Set Handle} {es es' : List Entry} {s s' : State} {c h : Handle} {i j k : Nat}
  {l : Literal} {f : Formula}

/-- The input as it was read. The clauses of the formula and the lemmas have handles of their own,
and `body` gives the literals of each. Variables go up to `bound`, and `excuse` excuses faults. -/
structure Ledger where
  bound : Nat
  excuse : Prop
  body : Handle → Clause
  origins : List Handle
  formula : Formula
  lines : Derivation
  steps : List Step
  transcript : Transcript body origins formula lines steps

namespace Ledger

variable {L : Ledger}

/-- The clauses that are live before line `i`. -/
def live (L : Ledger) (i : Nat) : Formula := Derivation.live L.formula (L.lines.take i)

/-- The clauses of the formula and the lemmas before line `i`. -/
def Known (L : Ledger) (i : Nat) (h : Handle) : Prop := h ∈ L.origins ++ added (L.steps.take i)

theorem Known.mono (hk : L.Known i h) (hij : i ≤ j) : L.Known j h := by
  have htake : L.steps.take i = (L.steps.take j).take i := by
    rw [List.take_take, Nat.min_eq_left hij]
  unfold Known at hk
  rw [htake] at hk
  exact mem_added_of_take hk

theorem known_of_step (hs : L.steps[i]? = some (.add h)) (hij : i < j) : L.Known j h := by
  refine List.mem_append_right _ (mem_added.mpr (List.mem_of_getElem? (i := i) ?_))
  rw [List.getElem?_take_of_lt hij, hs]

/-- A lemma is not known before its line. -/
theorem not_known (hs : L.steps[i]? = some (.add h)) : ¬ L.Known i h := by
  intro hk
  have hnd := L.transcript.fresh
  obtain ⟨hlt, hget⟩ := List.getElem?_eq_some_iff.mp hs
  rw [← List.take_append_drop i L.steps, List.drop_eq_getElem_cons hlt, hget, added_append,
    ← List.append_assoc] at hnd
  have hmem : h ∈ added (.add h :: L.steps.drop (i + 1)) := mem_added.mpr (by simp)
  exact (List.nodup_append.mp hnd).2.2 h hk h hmem rfl

/-- A lemma that was read. -/
theorem addition (hs : L.steps[i]? = some (.add h)) :
    ∃ c, L.lines[i]? = some (.add c) ∧ L.body h = c.distinct := by
  have hlt : i < L.lines.length := by
    rw [← L.transcript.length]
    exact (List.getElem?_eq_some_iff.mp hs).1
  have hr := L.transcript.read i _ _ (List.getElem?_eq_getElem hlt) hs
  cases hl : L.lines[i] with
  | add c =>
    rw [hl] at hr
    exact ⟨c, by rw [List.getElem?_eq_getElem hlt, hl], hr⟩
  | delete c => simp [hl, ReadAs] at hr

end Ledger

/-- The state before a line that was carried out, and what became of the line. -/
structure Frame where
  step : Step
  attached : Set Handle
  entries : List Entry

/-- What became of the lines, the oldest first. -/
def carriedOut (past : List Frame) : List Step := (past.map Frame.step).reverse

@[simp] theorem carriedOut_nil : carriedOut [] = [] := rfl

@[simp] theorem carriedOut_cons (fr : Frame) (past : List Frame) :
    carriedOut (fr :: past) = carriedOut past ++ [fr.step] := by
  simp [carriedOut]

@[simp] theorem length_carriedOut (past : List Frame) :
    (carriedOut past).length = past.length := by
  simp [carriedOut]

/-- The attached clauses with a lemma that can be watched. -/
def grow (body : Handle → Clause) (A : Set Handle) (h : Handle) : Set Handle :=
  A ∪ {c | c = h ∧ 2 ≤ (body c).length}

section Growth

variable {body : Handle → Clause}

theorem subset_grow (hc : c ∈ A) : c ∈ grow body A h := Or.inl hc

theorem grow_eq_insert (hl : 2 ≤ (body h).length) : grow body A h = insert h A := by
  ext c
  simp only [grow, Set.mem_union, Set.mem_ofPred_eq, Set.mem_insert_iff]
  constructor
  · rintro (hc | ⟨rfl, -⟩)
    · exact Or.inr hc
    · exact Or.inl rfl
  · rintro (rfl | hc)
    · exact Or.inr ⟨rfl, hl⟩
    · exact Or.inl hc

theorem grow_eq_self (hl : ¬ 2 ≤ (body h).length) : grow body A h = A := by
  ext c
  simp only [grow, Set.mem_union, Set.mem_ofPred_eq]
  constructor
  · rintro (hc | ⟨rfl, hc⟩)
    · exact hc
    · exact (hl hc).elim
  · exact Or.inl

end Growth

/-- What a line does to the attached clauses and to the trail. -/
inductive Carried (body : Handle → Clause) :
    Step → Set Handle → List Entry → Set Handle → List Entry → Prop
  | ignored {A : Set Handle} {es : List Entry} : Carried body .ignored A es A es
  | satisfied {A : Set Handle} {es : List Entry} {h : Handle} :
      Carried body (.satisfied h) A es A es
  /-- The clause had no true literal, and two that were not false. -/
  | delete {A : Set Handle} {es : List Entry} {h : Handle} : h ∈ A →
      Quiet (es.map Entry.literal) (body h) →
      (∀ l ∈ body h, -l ∉ es.map Entry.literal) → Carried body (.delete h) A es (A \ {h}) es
  /-- A lemma that forces a literal does so first, and then other clauses may force more. -/
  | add {A : Set Handle} {es new : List Entry} {h : Handle} : body h ≠ [] →
      (∀ l ∈ body h, l.Proper) →
      (new = [] ∨ ∃ u more, new = ⟨-u, some h⟩ :: more) →
      (∀ e ∈ new, ∃ c, e.reason = some c ∧ (c = h ∨ c ∈ A)) →
      Carried body (.add h) A es (grow body A h) (es ++ new)

/-- What a line was read as and what became of it where the literals of `fs` are false. -/
inductive Became (body : Handle → Clause) (fs : List Literal) : Step → Step → Prop
  | ignored : Became body fs .ignored .ignored
  | held {h : Handle} : (∃ l ∈ body h, -l ∈ fs) → Became body fs (.delete h) .ignored
  | deleted {h : Handle} : (∀ l ∈ body h, -l ∉ fs) → Became body fs (.delete h) (.delete h)
  | leftOut {h : Handle} : (∃ l ∈ body h, -l ∈ fs) → Became body fs (.add h) (.satisfied h)
  | added {h : Handle} : (∀ l ∈ body h, -l ∉ fs) → (∃ l ∈ body h, l ∉ fs) →
      Became body fs (.add h) (.add h)

/-- Each clause that stands is attached or has a literal that is true. -/
def Upheld (L : Ledger) (past : List Frame) (A : Set Handle) (es : List Entry) : Prop :=
  ∀ h ∈ standingAfter L.origins (carriedOut past),
    h ∈ A ∨ ∃ l ∈ L.body h, -l ∈ es.map Entry.literal

/-- A clause that is attached or a reason. -/
def Involved (A : Set Handle) (es : List Entry) (h : Handle) : Prop :=
  h ∈ A ∨ ∃ e ∈ es, e.reason = some h

/-- The lines that led to the attached clauses `A` and the trail `es`, the newest first. -/
def Chronicle (L : Ledger) : List Frame → Set Handle → List Entry → Prop
  | [], A, es => (∀ c, c ∈ A ↔ c ∈ L.origins ∧ 2 ≤ (L.body c).length) ∧
      ∀ e ∈ es, ∃ c ∈ L.origins, e.reason = some c
  | fr :: past, A, es => Carried L.body fr.step fr.attached fr.entries A es ∧
      Anchored L.body fr.attached fr.entries ∧ Upheld L past fr.attached fr.entries ∧
      (∃ orig, L.steps[past.length]? = some orig ∧
        Became L.body (fr.entries.map Entry.literal) orig fr.step) ∧
      Chronicle L past fr.attached fr.entries

section Lines

variable {body : Handle → Clause} {step : Step}

theorem Carried.of_add (hc : Carried body (.add h) A es A' es') :
    ∃ new, A' = grow body A h ∧ es' = es ++ new ∧ body h ≠ [] ∧ (∀ l ∈ body h, l.Proper) ∧
      (new = [] ∨ ∃ u more, new = ⟨-u, some h⟩ :: more) := by
  cases hc with
  | add hne hp hnew _ => exact ⟨_, rfl, rfl, hne, hp, hnew⟩

theorem Carried.of_delete (hc : Carried body (.delete h) A es A' es') :
    A' = A \ {h} ∧ es' = es ∧ h ∈ A ∧ Quiet (es.map Entry.literal) (body h) ∧
      ∀ l ∈ body h, -l ∉ es.map Entry.literal := by
  cases hc with
  | delete hA hq hno => exact ⟨rfl, rfl, hA, hq, hno⟩

theorem Carried.of_idle (hc : Carried body step A es A' es')
    (hs : step = .ignored ∨ ∃ h, step = .satisfied h) : A' = A ∧ es' = es := by
  cases hc with
  | ignored => exact ⟨rfl, rfl⟩
  | satisfied => exact ⟨rfl, rfl⟩
  | delete => simp at hs
  | add => simp at hs

theorem Carried.isPrefix (hc : Carried body step A es A' es') : es <+: es' := by
  cases hc with
  | ignored => exact List.prefix_refl _
  | satisfied => exact List.prefix_refl _
  | delete => exact List.prefix_refl _
  | add => exact List.prefix_append _ _

theorem Carried.involved (hc : Carried body step A es A' es') (hi : Involved A' es' c) :
    Involved A es c ∨ step = .add c := by
  cases hc with
  | ignored => exact Or.inl hi
  | satisfied => exact Or.inl hi
  | delete =>
    rcases hi with hi | hi
    · exact Or.inl (Or.inl hi.1)
    · exact Or.inl (Or.inr hi)
  | add _ _ _ hnew =>
    rcases hi with (hi | ⟨rfl, -⟩) | ⟨e, he, hr⟩
    · exact Or.inl (Or.inl hi)
    · exact Or.inr rfl
    · rcases List.mem_append.mp he with he | he
      · exact Or.inl (Or.inr ⟨e, he, hr⟩)
      · obtain ⟨c', hr', hc'⟩ := hnew e he
        rw [hr] at hr'
        cases hr'
        rcases hc' with rfl | hc'
        · exact Or.inr rfl
        · exact Or.inl (Or.inl hc')

theorem Became.revises {fs : List Literal} {orig : Step} (hb : Became body fs orig step) :
    Revises orig step := by
  cases hb with
  | ignored => exact .same _
  | held => exact .held _
  | deleted => exact .same _
  | leftOut => exact .leftOut _
  | added => exact .same _

theorem Became.of_add {fs : List Literal} {orig : Step} (hb : Became body fs orig (.add h)) :
    orig = .add h := by
  cases hb
  rfl

theorem Carried.attached (hc : Carried body step A es A' es') (hA : c ∈ A') :
    c ∈ A ∨ step = .add c := by
  cases hc with
  | ignored => exact Or.inl hA
  | satisfied => exact Or.inl hA
  | delete => exact Or.inl hA.1
  | add =>
    rcases hA with hA | ⟨rfl, -⟩
    · exact Or.inl hA
    · exact Or.inr rfl

end Lines

variable {L : Ledger} {past : List Frame} {fr : Frame}

/-- A clause of the formula, or a lemma that was not left out. -/
def Met (L : Ledger) (past : List Frame) (h : Handle) : Prop :=
  h ∈ L.origins ∨ ∃ fr ∈ past, fr.step = .add h

theorem met_cons : Met L (fr :: past) c ↔ Met L past c ∨ fr.step = .add c := by
  simp only [Met, List.mem_cons, exists_eq_or_imp]
  rw [or_assoc]
  exact or_congr_right or_comm

theorem Met.cons (hm : Met L past c) : Met L (fr :: past) c := met_cons.mpr (Or.inl hm)

namespace Chronicle

theorem met (hc : Chronicle L past A es) (hi : Involved A es c) : Met L past c := by
  induction past generalizing A es with
  | nil =>
    rcases hi with hA | ⟨e, he, hr⟩
    · exact Or.inl ((hc.1 c).mp hA).1
    · obtain ⟨c', hc', hr'⟩ := hc.2 e he
      rw [hr, Option.some_inj] at hr'
      exact Or.inl (hr' ▸ hc')
  | cons fr past ih =>
    obtain ⟨hca, -, -, -, hpast⟩ := hc
    rcases hca.involved hi with hi | he
    · exact (ih hpast hi).cons
    · exact Or.inr ⟨fr, by simp, he⟩

/-- A lemma that was not left out is the one of its line. -/
theorem addition (hc : Chronicle L (fr :: past) A es) (hs : fr.step = .add h) :
    L.steps[past.length]? = some (.add h) := by
  obtain ⟨-, -, -, ⟨orig, horig, hb⟩, -⟩ := hc
  rw [hs] at hb
  rw [horig, hb.of_add]

theorem known_of_met (hc : Chronicle L past A es) (hm : Met L past c) : L.Known past.length c := by
  induction past generalizing A es with
  | nil => exact List.mem_append_left _ (hm.resolve_right (by simp))
  | cons fr past ih =>
    rcases met_cons.mp hm with hm | he
    · exact (ih hc.2.2.2.2 hm).mono (Nat.le_succ _)
    · exact L.known_of_step (hc.addition he) (Nat.lt_succ_self _)

theorem known (hc : Chronicle L past A es) (hi : Involved A es c) : L.Known past.length c :=
  hc.known_of_met (hc.met hi)

theorem isPrefix (hc : Chronicle L past A es) (hf : fr ∈ past) : fr.entries <+: es := by
  induction past generalizing A es with
  | nil => cases hf
  | cons fr' past ih =>
    rcases List.mem_cons.mp hf with rfl | hf
    · exact hc.1.isPrefix
    · exact (ih hc.2.2.2.2 hf).trans hc.1.isPrefix

/-- The frames of a chronicle know no more than the latest one. -/
theorem known_frame (hc : Chronicle L past A es) (hf : fr ∈ past) (hi : c ∈ fr.attached) :
    L.Known past.length c := by
  induction past generalizing A es with
  | nil => cases hf
  | cons fr' past ih =>
    rcases List.mem_cons.mp hf with rfl | hf
    · exact (hc.2.2.2.2.known (Or.inl hi)).mono (Nat.le_succ _)
    · exact (ih hc.2.2.2.2 hf).mono (Nat.le_succ _)

/-- Every literal of the trail was forced by a clause. -/
theorem reason_ne_none (hc : Chronicle L past A es) : ∀ e ∈ es, e.reason ≠ none := by
  induction past generalizing A es with
  | nil =>
    intro e he
    obtain ⟨c, -, hr⟩ := hc.2 e he
    simp [hr]
  | cons fr past ih =>
    obtain ⟨hca, -, -, -, hpast⟩ := hc
    have hold := ih hpast
    generalize fr.entries = old at hca hold
    generalize fr.step = step at hca
    generalize fr.attached = B at hca
    cases hca with
    | ignored => exact hold
    | satisfied => exact hold
    | delete => exact hold
    | add _ _ _ hnew =>
      intro e he
      rcases List.mem_append.mp he with he | he
      · exact hold e he
      · obtain ⟨c, hr, -⟩ := hnew e he
        simp [hr]

end Chronicle

namespace Chronicle

theorem length_le (hc : Chronicle L past A es) : past.length ≤ L.lines.length := by
  cases past with
  | nil => exact Nat.zero_le _
  | cons fr past =>
    obtain ⟨-, -, -, ⟨orig, horig, -⟩, -⟩ := hc
    have hlt := (List.getElem?_eq_some_iff.mp horig).1
    rw [L.transcript.length] at hlt
    exact hlt

theorem known_of_alive (hc : Chronicle L past A es)
    (hm : h ∈ aliveAfter L.origins (carriedOut past)) : L.Known past.length h := by
  apply hc.known_of_met
  rcases List.mem_append.mp (mem_of_mem_aliveAfter hm) with hm | hm
  · exact Or.inl hm
  · have hadd : .add h ∈ past.map Frame.step := by simpa [carriedOut] using mem_added.mp hm
    obtain ⟨fr, hfr, he⟩ := List.mem_map.mp hadd
    exact Or.inr ⟨fr, hfr, he⟩

theorem nodup_alive (hc : Chronicle L past A es) :
    (aliveAfter L.origins (carriedOut past)).Nodup := by
  induction past generalizing A es with
  | nil => exact L.transcript.nodup 0
  | cons fr past ih =>
    have hold := ih hc.2.2.2.2
    rw [carriedOut_cons, aliveAfter_append_singleton]
    cases hs : fr.step with
    | add h =>
      exact List.nodup_cons.mpr
        ⟨fun hm => L.not_known (hc.addition hs) (hc.2.2.2.2.known_of_alive hm), hold⟩
    | delete h => exact hold.erase h
    | satisfied h => exact hold
    | ignored => exact hold

/-- What deletions could name before a line still stands there. -/
theorem standing_of_alive (hc : Chronicle L past A es)
    (hm : h ∈ aliveAfter L.origins (L.steps.take past.length)) :
    h ∈ standingAfter L.origins (carriedOut past) := by
  induction past generalizing A es h with
  | nil => exact hm
  | cons fr past ih =>
    obtain ⟨-, -, -, ⟨orig, horig, hb⟩, hpast⟩ := hc
    have ih : ∀ {k}, k ∈ aliveAfter L.origins (L.steps.take past.length) → _ := fun hk =>
      ih hpast hk
    rw [List.length_cons, List.take_add_one, horig, Option.toList_some,
      aliveAfter_append_singleton] at hm
    rw [carriedOut_cons, standingAfter_append_singleton]
    generalize fr.step = step at hb
    cases hb with
    | ignored => exact ih hm
    | held => exact ih (List.mem_of_mem_erase hm)
    | deleted =>
      have hne := ((L.transcript.nodup _).mem_erase_iff.mp hm).1
      exact List.mem_filter.mpr ⟨ih (List.mem_of_mem_erase hm), by simpa using hne⟩
    | leftOut => exact List.mem_cons.mpr ((List.mem_cons.mp hm).imp_right ih)
    | added => exact List.mem_cons.mpr ((List.mem_cons.mp hm).imp_right ih)

/-- What is live after the lines that were carried out stands. -/
theorem standing_of_carriedOut (hc : Chronicle L past A es)
    (hm : h ∈ aliveAfter L.origins (carriedOut past)) :
    h ∈ standingAfter L.origins (carriedOut past) := by
  induction past generalizing A es with
  | nil => exact hm
  | cons fr past ih =>
    have hpast := hc.2.2.2.2
    have ih := ih hpast
    have hnd := hpast.nodup_alive
    rw [carriedOut_cons, aliveAfter_append_singleton] at hm
    rw [carriedOut_cons, standingAfter_append_singleton]
    generalize fr.step = step at hm
    cases step with
    | add k => exact List.mem_cons.mpr ((List.mem_cons.mp hm).imp_right ih)
    | delete k =>
      obtain ⟨hne, hm⟩ := hnd.mem_erase_iff.mp hm
      exact List.mem_filter.mpr ⟨ih hm, by simpa using hne⟩
    | satisfied k => exact List.mem_cons_of_mem _ (ih hm)
    | ignored => exact ih hm

/-- Where all that stands is quiet, all that is live is. -/
theorem quiet_live {fs : List Literal} (hc : Chronicle L past A es)
    (hq : ∀ h ∈ standingAfter L.origins (carriedOut past), Quiet fs (L.body h)) :
    ∀ c ∈ L.live past.length, Quiet fs c := by
  intro c hcl
  obtain ⟨h, hh, hs⟩ := (L.transcript.covers past.length hc.length_le).exists_same hcl
  exact (hq h (hc.standing_of_alive hh)).same hs.symm

/-- The attached clauses are the live ones that can be watched. -/
theorem mem_attached_iff (hc : Chronicle L past A es) :
    c ∈ A ↔ c ∈ aliveAfter L.origins (carriedOut past) ∧ 2 ≤ (L.body c).length := by
  induction past generalizing A es with
  | nil => exact hc.1 c
  | cons fr past ih =>
    obtain ⟨hca, -, -, -, hpast⟩ := hc
    have ih := ih hpast
    have hnd := hpast.nodup_alive
    rw [carriedOut_cons, aliveAfter_append_singleton]
    generalize fr.entries = old at hca
    generalize fr.step = step at hca
    generalize fr.attached = B at hca ih
    cases hca with
    | ignored => exact ih
    | satisfied => exact ih
    | delete =>
      rw [Set.mem_sdiff, ih, Step.carryOut, hnd.mem_erase_iff, Set.mem_singleton_iff]
      tauto
    | add =>
      simp only [grow, Set.mem_union, Set.mem_ofPred_eq, Step.carryOut, List.mem_cons]
      tauto

/-- A clause that is attached or a reason was not deleted, for a reason has a true literal. -/
theorem alive_of_involved (hc : Chronicle L past A es)
    (hr : ∀ e ∈ es, ∀ d, e.reason = some d → -e.literal ∈ L.body d) (hi : Involved A es c) :
    c ∈ aliveAfter L.origins (carriedOut past) := by
  induction past generalizing A es with
  | nil => exact (hc.met hi).resolve_right (by simp)
  | cons fr past ih =>
    obtain ⟨hca, -, -, -, hpast⟩ := hc
    have hold : ∀ e ∈ fr.entries, ∀ d, e.reason = some d → -e.literal ∈ L.body d := fun e he =>
      hr e (hca.isPrefix.subset he)
    have ih := ih hpast hold
    have hnd := hpast.nodup_alive
    rw [carriedOut_cons, aliveAfter_append_singleton]
    generalize fr.entries = old at hca hold ih
    generalize fr.step = step at hca
    generalize fr.attached = B at hca ih
    cases hca with
    | ignored => exact ih hi
    | satisfied => exact ih hi
    | @delete _ _ k _ _ hno =>
      refine hnd.mem_erase_iff.mpr ⟨?_, ih (hi.imp_left And.left)⟩
      rintro rfl
      rcases hi with hA | ⟨e, he, hre⟩
      · exact hA.2 rfl
      · refine hno _ (hold e he c hre) ?_
        rw [Literal.neg_neg]
        exact List.mem_map_of_mem he
    | add hne hp hnew hby =>
      rcases Carried.involved (.add hne hp hnew hby) hi with hi | he
      · exact List.mem_cons_of_mem _ (ih hi)
      · cases he
        exact List.mem_cons_self

end Chronicle

/-- The state still has the input as it was read, but for what became of the lines. -/
structure Ledger.Records (L : Ledger) (s : State) : Prop where
  origins : s.origins.toList = L.origins
  has : ∀ h, s.arena.Has h ↔ h ∈ L.origins ++ added L.steps
  size : s.steps.size = L.steps.length
  revised : ∀ (i : Nat) (orig step : Step), L.steps[i]? = some orig → s.steps[i]? = some step →
    Revises orig step

theorem Ledger.Records.congr (hr : L.Records s) (ho : s'.origins = s.origins)
    (hs : s'.steps = s.steps) (hh : ∀ d, s'.arena.Has d ↔ s.arena.Has d) : L.Records s' :=
  ⟨by rw [ho]; exact hr.origins, fun h => (hh h).trans (hr.has h), by rw [hs]; exact hr.size,
    by rw [hs]; exact hr.revised⟩

/-- The state is the one that a chronicle leads to, and each attached clause is settled for the
trails that were there while it was attached. -/
structure Restored (L : Ledger) (past : List Frame) (A : Set Handle) (s : State) : Prop where
  coherent : Coherent L.bound L.excuse L.body A s
  chronicle : Chronicle L past A s.trail.entries
  boundaries : ∀ fr ∈ past, ∀ c ∈ A, c ∈ fr.attached →
    Settled (fr.entries.map Entry.literal) (s.arena.literals c)
  forced : s.trail.forced = s.trail.assigned
  processed : s.trail.processed = s.trail.assigned
  unmarked : ∀ m, ¬ s.trail.Marked m
  steps : s.steps.toList.take past.length = carriedOut past
  records : L.Records s

theorem Restored.noted (hr : Restored L past A s) (justified : List Nat) (counters : Counters)
    (log : Log) : Restored L past A { s with justified, counters, log } :=
  ⟨hr.coherent.congr rfl rfl rfl, hr.chronicle, hr.boundaries, hr.forced, hr.processed,
    hr.unmarked, hr.steps, hr.records.congr rfl rfl fun _ => Iff.rfl⟩

theorem Restored.has_lemma (hr : Restored L past A s) (hs : L.steps[i]? = some (.add h)) :
    s.arena.Has h :=
  (hr.records.has h).mpr (List.mem_append_right _ (mem_added.mpr (List.mem_of_getElem? hs)))

/-- Among settled clauses each one that stands is quiet. -/
theorem Upheld.quiet {n : Nat} {F : Prop} {fs : List Literal} (hu : Upheld L past A es)
    (hs : Coherent n F L.body A s) (hset : ∀ c ∈ A, Settled fs (s.arena.literals c))
    (hes : ∀ l ∈ es.map Entry.literal, l ∈ fs) :
    ∀ h ∈ standingAfter L.origins (carriedOut past), Quiet fs (L.body h) := by
  intro h hh
  rcases hu h hh with hA | ⟨l, hl, ht⟩
  · exact hs.quiet hA (hset h hA)
  · exact Or.inl ⟨l, hl, hes _ ht⟩

/-- The lemma of line `j` follows by unit propagation from clauses of the core before it. -/
def Certified (L : Ledger) (s : State) (j : Nat) : Prop :=
  ∃ h C, L.steps[j]? = some (.add h) ∧
    (∀ c ∈ C, s.arena.Has c ∧ s.arena.inCore c = true ∧ L.Known j c) ∧
    (∀ l ∈ L.body h, l.Proper) ∧ ∀ g, Lists L.body C g → (L.body h).FollowsFrom g

/-- The core where the lines of `past` are still to be checked and the later ones were. -/
structure Audited (L : Ledger) (past : List Frame) (s : State) : Prop where
  source : ∀ h, s.arena.Has h → s.arena.inCore h = true →
    Met L past h ∨ ∃ j ∈ s.justified, L.steps[j]? = some (.add h)
  proper : ∀ h, s.arena.Has h → s.arena.inCore h = true → ∀ l ∈ L.body h, l.Proper
  certified : ∀ j ∈ s.justified, past.length ≤ j ∧ Certified L s j
  ordered : s.justified.Pairwise (· < ·)
  conflict : ∃ C, (∀ c ∈ C, s.arena.Has c ∧ s.arena.inCore c = true) ∧
    ∀ g, Lists L.body C g → Conflicting g fun _ => False

theorem Audited.noted (ha : Audited L past s) (counters : Counters) (log : Log) :
    Audited L past { s with counters, log } :=
  ⟨ha.source, ha.proper, ha.certified, ha.ordered, ha.conflict⟩

theorem take_falsified_of_isPrefix {t : Trail} (he : es <+: t.entries) :
    t.falsified.take es.length = es.map Entry.literal := by
  rw [Trail.take_falsified, ← List.prefix_iff_eq_take.mp he]

theorem Grew.settled_of_isPrefix (hg : Grew A s s') (hc : c ∈ A) (he : es <+: s.trail.entries)
    (hs : Settled (es.map Entry.literal) (s.arena.literals c)) :
    Settled (es.map Entry.literal) (s'.arena.literals c) := by
  obtain ⟨new, hnew, -⟩ := hg.entries
  have he' : es <+: s'.trail.entries := hnew ▸ he.trans (List.prefix_append _ _)
  have hle : es.length ≤ s.trail.assigned := s.trail.length_entries ▸ he.length_le
  rw [← take_falsified_of_isPrefix he] at hs
  rw [← take_falsified_of_isPrefix he']
  exact hg.settled c hc _ hle hs

theorem Unwound.settled_of_isPrefix (hr : Unwound A s s') (hc : c ∈ A)
    (he : es <+: s'.trail.entries)
    (hs : Settled (es.map Entry.literal) (s.arena.literals c)) :
    Settled (es.map Entry.literal) (s'.arena.literals c) := by
  have hb := hr.backtracked
  have htake : es <+: s.trail.entries.take s.trail.forced := hb.entries ▸ he
  have hle : es.length ≤ s.trail.forced :=
    Nat.le_trans htake.length_le (List.length_take_le _ _)
  rw [← take_falsified_of_isPrefix (htake.trans (List.take_prefix _ _))] at hs
  rw [← take_falsified_of_isPrefix he]
  exact hr.settled c hc _ hle hs

end UnsatCore.Engine
