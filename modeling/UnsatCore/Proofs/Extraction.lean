import UnsatCore.Extraction
import UnsatCore.Proofs.Record

/-! What a run comes to. A run that is accepted leaves a certificate: the clauses of the core and
the lemmas that were checked, each of which follows from what stands before it, up to a conflict. -/
namespace UnsatCore

open Engine Engine.CheckM

variable {f core : Formula} {d lines : Derivation} {lemmas : List Clause} {a : Arena}
  {hs : List Handle} {h : Handle} {c : Clause} {js : List Nat} {i j n : Nat} {σ : Assignment}

section Selection

/-- The clauses of a formula at the positions whose stored form is in the core. -/
def coreAmong (a : Arena) (f : Formula) (hs : List Handle) : Formula :=
  ((f.zip hs).filter fun p => a.inCore p.2).map Prod.fst

theorem selectCore_eq (hh : ∀ h ∈ hs, a.Has h) : selectCore a f hs = .ok (coreAmong a f hs) := by
  induction f generalizing hs with
  | nil => rfl
  | cons c f ih =>
    cases hs with
    | nil => rfl
    | cons h hs =>
      have hrest : selectCore a f hs = .ok (coreAmong a f hs) := ih fun k hk => hh k (by simp [hk])
      rw [selectCore, (hh h (by simp)).isCore, hrest]
      cases hc : a.inCore h <;> simp [coreAmong, hc]

theorem mem_coreAmong : c ∈ coreAmong a f hs ↔
    ∃ (i : Nat) (h : Handle), f[i]? = some c ∧ hs[i]? = some h ∧ a.inCore h = true := by
  simp only [coreAmong, List.mem_map, List.mem_filter]
  constructor
  · rintro ⟨⟨c', h⟩, ⟨hm, hc⟩, rfl⟩
    obtain ⟨i, hi⟩ := List.mem_iff_getElem?.mp hm
    obtain ⟨hf, hh⟩ := List.getElem?_zip_eq_some.mp hi
    exact ⟨i, h, hf, hh, hc⟩
  · rintro ⟨i, h, hf, hh, hc⟩
    refine ⟨(c, h), ⟨List.mem_iff_getElem?.mpr ⟨i, ?_⟩, hc⟩, rfl⟩
    exact List.getElem?_zip_eq_some.mpr ⟨hf, hh⟩

theorem sublist_coreAmong (a : Arena) (f : Formula) (hs : List Handle) :
    (coreAmong a f hs).Sublist f := by
  induction f generalizing hs with
  | nil => simp [coreAmong]
  | cons c f ih =>
    cases hs with
    | nil => simp [coreAmong]
    | cons h hs =>
      cases hc : a.inCore h with
      | true => simpa [coreAmong, hc] using ih hs
      | false => simpa [coreAmong, hc] using (ih hs).cons c

/-- The lines of some numbers. -/
def Derivation.linesAt (d : Derivation) (js : List Nat) : Derivation := js.filterMap (d[·]?)

theorem Derivation.linesAt_sublist_drop (d : Derivation) (hj : ∀ j ∈ js, i ≤ j)
    (ho : js.Pairwise (· < ·)) : (d.linesAt js).Sublist (d.drop i) := by
  induction js generalizing i with
  | nil => exact List.nil_sublist _
  | cons j js ih =>
    obtain ⟨hlt, ho⟩ := List.pairwise_cons.mp ho
    have hrest := ih (i := j + 1) hlt ho
    have hsub : (d.linesAt (j :: js)).Sublist (d.drop j) := by
      cases hd : d[j]? with
      | none =>
        simp only [linesAt, List.filterMap_cons, hd]
        exact hrest.trans (List.drop_sublist_drop_left d (Nat.le_succ j))
      | some line =>
        obtain ⟨hl, rfl⟩ := List.getElem?_eq_some_iff.mp hd
        rw [List.drop_eq_getElem_cons hl]
        simp only [linesAt, List.filterMap_cons, hd]
        exact hrest.cons_cons _
    exact hsub.trans (List.drop_sublist_drop_left d (hj j (by simp)))

/-- Lines that are taken in order are part of the derivation. -/
theorem Derivation.linesAt_sublist (d : Derivation) (ho : js.Pairwise (· < ·)) :
    (d.linesAt js).Sublist d := d.linesAt_sublist_drop (fun _ _ => Nat.zero_le _) ho

end Selection

/-- Each lemma follows by unit propagation from the core and the lemmas before it, and unit
propagation over all of them meets a conflict. -/
structure Certificate (core : Formula) (lemmas : List Clause) : Prop where
  follows : ∀ (i : Nat) (c : Clause), lemmas[i]? = some c → c.FollowsFrom (core ++ lemmas.take i)
  conflict : Conflicting (core ++ lemmas) fun _ => False
  proper : ∀ c ∈ core ++ lemmas, ∀ l ∈ c, l.Proper

theorem Certificate.holds_take (h : Certificate core lemmas) (hσ : core.Holds σ) (i : Nat) :
    (core ++ lemmas.take i).Holds σ := by
  induction i with
  | zero => simpa using hσ
  | succ i ih =>
    rw [List.take_add_one]
    cases hi : lemmas[i]? with
    | none => simpa using ih
    | some c =>
      intro k hk
      rw [Option.toList_some, ← List.append_assoc] at hk
      rcases List.mem_append.mp hk with hk | hk
      · exact ih k hk
      · rw [List.mem_singleton.mp hk]
        refine (h.follows i c hi).holds (fun k hk => h.proper k ?_) (h.proper c ?_) ih
        · rcases List.mem_append.mp hk with hk | hk
          · exact List.mem_append_left _ hk
          · exact List.mem_append_right _ (List.mem_of_mem_take hk)
        · exact List.mem_append_right _ (List.mem_of_getElem? hi)

theorem Certificate.not_satisfiable (h : Certificate core lemmas) : ¬ core.Satisfiable := by
  rintro ⟨σ, hσ⟩
  have hall := h.holds_take hσ lemmas.length
  rw [List.take_length] at hall
  exact h.conflict.not_holds h.proper (fun _ hl => hl.elim) hall

section Audit

variable {F : Prop} {A : Set Handle} {s₀ s : State}

theorem Engine.Loaded.getElem?_origins (hl : Loaded n F f lines s₀) (i : Nat) :
    (s₀.origins.toList[i]?).map s₀.arena.literals = (f[i]?).map Clause.distinct := by
  have h := congrArg (·[i]?) hl.origins
  simpa using h

/-- The clause of a line. -/
def Derivation.lemmaAt (d : Derivation) (j : Nat) : Clause :=
  ((d[j]?).map Line.clause).getD []

theorem Derivation.getElem?_of_isPrefix {line : Line} (hp : lines <+: d)
    (hj : lines[j]? = some line) : d[j]? = some line := by
  obtain ⟨more, rfl⟩ := hp
  rw [List.getElem?_append_left (List.getElem?_eq_some_iff.mp hj).1, hj]

/-- What a line with a lemma was stored as. -/
theorem Engine.Loaded.lemmaAt (hl : Loaded n F f lines s₀) (hp : lines <+: d)
    (hs : hl.ledger.steps[j]? = some (.add h)) :
    d[j]? = some (.add (d.lemmaAt j)) ∧ (hl.ledger.body h).Same (d.lemmaAt j) := by
  obtain ⟨c, hc, hb⟩ := hl.ledger.addition hs
  have hd : d[j]? = some (.add c) := Derivation.getElem?_of_isPrefix hp hc
  have he : d.lemmaAt j = c := by simp [Derivation.lemmaAt, hd, Derivation.Line.clause]
  rw [he, hb]
  exact ⟨hd, Clause.distinct_same c⟩

/-- A clause of the formula that is in the core is selected. -/
theorem Engine.Loaded.exists_core (hl : Loaded n F f lines s₀) (ho : h ∈ hl.ledger.origins)
    (hc : a.inCore h = true) :
    ∃ c ∈ coreAmong a f hl.ledger.origins, (hl.ledger.body h).Same c := by
  obtain ⟨i, hi⟩ := List.mem_iff_getElem?.mp ho
  have hg := hl.getElem?_origins i
  rw [show s₀.origins.toList[i]? = some h from hi, Option.map_some] at hg
  obtain ⟨c, hf, he⟩ := Option.map_eq_some_iff.mp hg.symm
  refine ⟨c, mem_coreAmong.mpr ⟨i, h, hf, hi, hc⟩, ?_⟩
  rw [show hl.ledger.body h = c.distinct from he.symm]
  exact Clause.distinct_same c

/-- In a list that goes up, what is less than an entry stands before it. -/
theorem mem_take_of_lt {k : Nat} (ho : js.Pairwise (· < ·)) (hi : js[i]? = some j) (hk : k ∈ js)
    (hlt : k < j) : k ∈ js.take i := by
  obtain ⟨m, hm⟩ := List.mem_iff_getElem?.mp hk
  obtain ⟨hil, rfl⟩ := List.getElem?_eq_some_iff.mp hi
  obtain ⟨hml, rfl⟩ := List.getElem?_eq_some_iff.mp hm
  rcases Nat.lt_or_ge m i with hmi | hmi
  · refine List.mem_iff_getElem?.mpr ⟨m, ?_⟩
    rw [List.getElem?_take_of_lt hmi, hm]
  · exfalso
    rcases Nat.lt_or_eq_of_le hmi with hmi | rfl
    · have := List.pairwise_iff_getElem.mp ho i m hil hml hmi
      omega
    · omega

/-- Clauses of the core are selected or have a lemma that was checked. -/
theorem Engine.Audited.lists {C : Set Handle} (hl : Loaded n F f lines s₀) (hp : lines <+: d)
    (ha : Audited hl.ledger [] s) (hC : ∀ h ∈ C, s.arena.Has h ∧ s.arena.inCore h = true)
    (hjs : ∀ h ∈ C, ∀ j ∈ s.justified, hl.ledger.steps[j]? = some (.add h) → j ∈ js) :
    Lists hl.ledger.body C
      (coreAmong s.arena f hl.ledger.origins ++ js.map d.lemmaAt) := by
  intro h hh
  obtain ⟨hhas, hcore⟩ := hC h hh
  rcases ha.source h hhas hcore with hm | ⟨j, hj, hs⟩
  · obtain ⟨c, hc, hsame⟩ := hl.exists_core (hm.resolve_right (by simp)) hcore
    exact ⟨c, List.mem_append_left _ hc, hsame⟩
  · refine ⟨d.lemmaAt j, List.mem_append_right _ (List.mem_map_of_mem (hjs h hh j hj hs)), ?_⟩
    exact (hl.lemmaAt hp hs).2

theorem Engine.Audited.certificate (hl : Loaded n F f lines s₀) (hp : lines <+: d)
    (hr : Restored hl.ledger [] A s) (ha : Audited hl.ledger [] s) :
    Certificate (coreAmong s.arena f hl.ledger.origins) (s.justified.map d.lemmaAt) where
  follows := by
    intro i c hi
    rw [List.getElem?_map] at hi
    obtain ⟨j, hj, rfl⟩ := Option.map_eq_some_iff.mp hi
    obtain ⟨-, h, C, hs, hC, -, hg⟩ := ha.certified j (List.mem_of_getElem? hj)
    rw [← List.map_take]
    refine (hg _ (ha.lists (d := d) hl hp (fun x hx => ⟨(hC x hx).1, (hC x hx).2.1⟩) ?_)).within
      (fun x hx => ⟨x, hx, Clause.Same.refl x⟩) (hl.lemmaAt hp hs).2
    intro x hx k hk hsk
    refine mem_take_of_lt ha.ordered hj hk (Nat.lt_of_not_le fun hle => ?_)
    exact hl.ledger.not_known hsk ((hC x hx).2.2.mono hle)
  conflict := by
    obtain ⟨C, hC, hg⟩ := ha.conflict
    exact hg _ (ha.lists hl hp hC fun _ _ _ hj _ => hj)
  proper := by
    intro c hc l hm
    rcases List.mem_append.mp hc with hc | hc
    · obtain ⟨i, h, hf, hh, hcore⟩ := mem_coreAmong.mp hc
      have hg := hl.getElem?_origins i
      rw [show s₀.origins.toList[i]? = some h from hh, hf, Option.map_some, Option.map_some,
        Option.some_inj] at hg
      refine ha.proper h ((hr.records.has h).mpr
        (List.mem_append_left _ (List.mem_of_getElem? hh))) hcore l ?_
      rw [show hl.ledger.body h = c.distinct from hg]
      exact Clause.mem_distinct.mpr hm
    · obtain ⟨j, hj, rfl⟩ := List.mem_map.mp hc
      obtain ⟨-, h, C, hs, -, hpr, -⟩ := ha.certified j hj
      exact hpr l (((hl.lemmaAt hp hs).2 l).mpr hm)

/-- The lines that were checked are additions. -/
theorem Engine.Audited.linesAt (hl : Loaded n F f lines s₀) (hp : lines <+: d)
    (ha : Audited hl.ledger [] s) :
    d.linesAt s.justified = (s.justified.map d.lemmaAt).map .add := by
  have hsome : ∀ j ∈ s.justified, d[j]? = some (.add (d.lemmaAt j)) := by
    intro j hj
    obtain ⟨-, h, C, hs, -⟩ := ha.certified j hj
    exact (hl.lemmaAt hp hs).1
  rw [Derivation.linesAt, List.filterMap_congr hsome, List.map_map, ← List.filterMap_eq_map]
  rfl

end Audit

/-- What a run leaves that accepted a derivation: each clause of the formula is where its handle
says, those in the core are selected, and the lemmas that were checked certify them. -/
structure Extracted (f : Formula) (d : Derivation) (core : Formula) (s : State) : Prop where
  size : s.origins.size = f.length
  stored : ∀ (i : Nat) (h : Handle) (c : Clause), s.origins[i]? = some h → f[i]? = some c →
    (s.arena.literals h).Perm c.distinct ∧ s.arena.isCore h = .ok (s.arena.inCore h)
  selected : core = coreAmong s.arena f s.origins.toList
  ordered : s.justified.Pairwise (· < ·)
  certificate : ∃ lemmas, d.linesAt s.justified = lemmas.map .add ∧ Certificate core lemmas

theorem Extracted.noted {s : State} (h : Extracted f d core s) (log : Log) :
    Extracted f d core { s with log } :=
  ⟨h.size, h.stored, h.selected, h.ordered, h.certificate⟩

section Run

variable {F : Prop} {R : Rejection → State → Prop} {A : Set Handle} {s₀ s : State}
  {settings : Settings}

theorem Engine.Audited.extracted (hl : Loaded n F f lines s₀) (hp : lines <+: d)
    (hr : Restored hl.ledger [] A s) (ha : Audited hl.ledger [] s) :
    Extracted f d (coreAmong s.arena f s.origins.toList) s := by
  have hor : s.origins.toList = s₀.origins.toList := hr.records.origins
  refine ⟨?_, fun i h c hi hf => ?_, rfl, ha.ordered, _, ha.linesAt hl hp, ?_⟩
  · rw [← Array.length_toList, hor, ← List.length_map (f := s₀.arena.literals), hl.origins,
      List.length_map]
  · rw [← Array.getElem?_toList, hor] at hi
    have hg := hl.getElem?_origins i
    rw [hi, hf, Option.map_some, Option.map_some, Option.some_inj] at hg
    have hh := (hr.records.has h).mpr (List.mem_append_left _ (List.mem_of_getElem? hi))
    exact ⟨hg ▸ hr.coherent.stored.perm h hh, hh.isCore⟩
  · rw [hor]
    exact ha.certificate hl hp hr

theorem ends_conclude (hl : Loaded n F f lines s₀) (hp : lines <+: d)
    (hr : Restored hl.ledger [] A s) (ha : Audited hl.ledger [] s) :
    Ends F R (conclude f) s fun core s' =>
      core.trivial = false ∧ Extracted f d core.clauses s' := by
  have hhas : ∀ h ∈ s.origins.toList, s.arena.Has h := fun h hh =>
    (hr.records.has h).mpr (List.mem_append_left _ (hr.records.origins ▸ hh))
  simp only [conclude, ends_bind, ends_ask, selectCore_eq hhas, yields_ok, ends_look, ends_emit,
    ends_pure]
  exact ⟨trivial, (ha.extracted hl hp hr).noted _⟩

/-- A lemma that does not follow by unit propagation from what stands where its line is: the clauses
of the formula and the lemmas before it, without those that a deletion took away. -/
structure Engine.Groundless (f : Formula) (d : Derivation) (i : Nat) (c : Clause) (s : State) :
    Prop where
  line : d[i]? = some (.add c)
  recorded : ∃ lines, lines <+: d ∧ i < lines.length ∧ Recorded f lines s
  not_follows : ¬ c.FollowsFrom
    ((standingAfter s.origins.toList (s.steps.toList.take i)).map s.arena.literals)

/-- What a rejection that blames a line says about the state in which the run was given up. -/
def Rejection.Exact (f : Formula) (d : Derivation) (s : State) : Rejection → Prop
  | conflictNotFound i => ∃ c, Groundless f d i c s
  | lemmaNotImplied i c => Groundless f d i c s
  | zeroLiteral _ _ | unmatchedDeletion _ _ | noConflict => True

/-- What the input or the state is at fault for. -/
def Rejection.Founded (settings : Settings) (f : Formula) (d : Derivation) (r : Rejection)
    (s : State) : Prop := r.Warranted settings f d ∧ r.Exact f d s

theorem objects_founded (settings : Settings) (f : Formula) (d : Derivation) :
    Objects settings f d (Rejection.Founded settings f d) := by
  intro r s hread hw
  refine ⟨hw, ?_⟩
  cases r with
  | zeroLiteral | unmatchedDeletion => trivial
  | noConflict | conflictNotFound | lemmaNotImplied => exact hread.elim

theorem Engine.ReadTo.groundless (h : ReadTo n F f d lines s₀) {i : Nat}
    (hu : h.loaded.ledger.Unfounded i c s) : Groundless f d i c s := by
  have hrec : Recorded f lines s := h.loaded.recorded hu.records hu.stored
  refine ⟨Derivation.getElem?_of_isPrefix h.head hu.line,
    ⟨lines, h.head, (List.getElem?_eq_some_iff.mp hu.line).1, hrec⟩, fun hfollows => hu.standing ?_⟩
  rw [← hu.records.origins]
  refine hfollows.within ?_ (Clause.Same.refl c)
  intro k hk
  obtain ⟨h', hh', rfl⟩ := List.mem_map.mp hk
  have hhas := (hrec.has h').mpr (mem_lemmasOf_of_take (mem_of_mem_standingAfter hh'))
  exact ⟨_, List.mem_map_of_mem hh', fun _ => hu.stored.mem_iff hhas⟩

/-- A pass over the lines that were read blames only what is wrong with the derivation. -/
theorem Engine.ReadTo.blames (h : ReadTo n F f d lines s₀) :
    h.loaded.ledger.Blames (Rejection.Founded settings f d) := by
  have hline : ∀ (i : Nat) (c : Clause), lines[i]? = some (.add c) →
      ¬ c.FollowsFrom (Derivation.live f (lines.take i)) →
      d.Reaches i ∧ d[i]? = some (.add c) ∧ ¬ c.FollowsFrom (Derivation.live f (d.take i)) := by
    intro i c hi hno
    have hlt := (List.getElem?_eq_some_iff.mp hi).1
    have htake : lines.take i = d.take i := by
      obtain ⟨more, rfl⟩ := h.head
      rw [List.take_append_of_le_length (Nat.le_of_lt hlt)]
    exact ⟨h.reaches i hlt, Derivation.getElem?_of_isPrefix h.head hi, htake ▸ hno⟩
  refine ⟨fun i c s hu => ?_, fun i c s hu => ?_, fun _ hno => ⟨fun hm => ?_, trivial⟩⟩
  · obtain ⟨hreach, hd, hno⟩ := hline i c hu.line hu.live
    exact ⟨⟨hreach, c, hd, hno⟩, c, h.groundless hu⟩
  · exact ⟨hline i c hu.line hu.live, h.groundless hu⟩
  · rcases h.complete with he | hm'
    · exact hno (he ▸ hm)
    · exact hno hm'

/-- What a run without a fault or a rejection comes to. -/
def Accepted (f : Formula) (d : Derivation) (core : Core) (s : State) : Prop :=
  if core.trivial then core.clauses = [] ∧ ¬ f.Satisfiable else Extracted f d core.clauses s

theorem ends_refute (hfit : Fitting n F f d) (hs : Loaded n F f [] s) :
    Ends F (Rejection.Founded settings f d) (refute settings f d) s fun core s' =>
      core.trivial = false ∧ Extracted f d core.clauses s' := by
  simp only [refute, ends_bind]
  refine (ends_readDerivation hfit (objects_founded settings f d) hs).mono ?_
  rintro - s₁ ⟨lines, hread⟩
  refine (ends_replay hread.loaded hread.blames).mono ?_
  rintro r s₂ ⟨past, A, hr, ha, hpast⟩
  cases r with
  | formula =>
    obtain rfl : past = [] := hpast
    exact ends_conclude hread.loaded hread.head hr ha
  | step last =>
    simp only [ends_bind]
    refine (ends_justify hread.blames hr ha hpast ?_).mono ?_
    · intro i c hi
      have hd := Derivation.getElem?_of_isPrefix hread.head hi
      simp [hd, Derivation.Line.clause]
    · rintro - s₃ ⟨A', hr', ha'⟩
      exact ends_conclude hread.loaded hread.head hr' ha'

/-- A run is accepted with a certificate, or it is rejected for something that is wrong with the
input; faults need an excuse. -/
theorem ends_run (settings : Settings) (hfit : Fitting n F f d) :
    Ends F (Rejection.Founded settings f d) (run settings f d) (.initial n) fun core s =>
      Accepted f d core s := by
  simp only [run, ends_bind, ends_emit]
  refine (ends_readFormula [] hfit (objects_founded settings f d)
    ((loaded_initial n F).noted _ _) rfl).mono ?_
  intro r s hr
  cases r with
  | trivial =>
    simp only [concludeTrivial, ends_bind, ends_emit, ends_look, ends_pure]
    exact ⟨rfl, hr.1⟩
  | ready =>
    refine (ends_refute hfit hr).mono fun core s' h => ?_
    rw [Accepted, h.1]
    simpa using h.2

end Run

end UnsatCore
