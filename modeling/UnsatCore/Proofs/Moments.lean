import UnsatCore.Proofs.Course

/-! What holds at every moment of a run between two of its steps. The watch lists hold the attached
clauses and no others, and the way back leads through the trails and the attached clauses of the way
forth. -/
namespace UnsatCore

open Engine Engine.CheckM

variable {settings : Settings} {f read : Formula} {d lines : Derivation} {s s' s₀ s₁ s₂ sf : State}
  {n i j last : Nat} {coreFirst : Bool} {F : Prop} {R : Rejection → State → Prop}
  {body : Handle → Clause} {A : Set Handle} {c : Handle} {l x y : Literal} {L : Ledger}
  {past : List Frame}

/-- Reads the formula and, unless it is found contradictory there, the derivation. -/
def load (settings : Settings) (f : Formula) (d : Derivation) : CheckM Intake := do
  emit (.started f.length d.length)
  match ← readFormula 0 f with
  | .trivial => return .trivial
  | .ready =>
    readDerivation settings d
    return .ready

/-- A point of a run between two of its steps. -/
inductive Moment
  /-- The input is read, or the formula is found contradictory in its units. -/
  | loaded (result : Intake)
  /-- The formula alone is refuted. -/
  | contradicted
  /-- The first lines are carried out, `count` of them. -/
  | forth (count : Nat)
  /-- Line `last` met the conflict, and the last `undone` lines up to it are undone. -/
  | back (last undone : Nat)

/-- The state at a moment, if the run comes to it. -/
def stateAt (settings : Settings) (f : Formula) (d : Derivation) : Moment → Option State
  | .loaded result => after (load settings f d) result (.initial (maxVar f d))
  | .contradicted => (after (load settings f d) .ready (.initial (maxVar f d))).bind
      (after (saturate settings.coreFirst) .conflict)
  | .forth count => (after (load settings f d) .ready (.initial (maxVar f d))).bind
      fun s => forth settings.coreFirst s count
  | .back last undone => (after (load settings f d) .ready (.initial (maxVar f d))).bind
      fun s => back settings.coreFirst (d.map Derivation.Line.clause).toArray s last undone

section Loading

/-- How the input was found. -/
def Read (n : Nat) (F : Prop) (f : Formula) (d : Derivation) (s : State) : Intake → Prop
  | .ready => ∃ lines, ReadTo n F f d lines s
  | .trivial => s.steps = #[] ∧ ∃ read, read <+: f ∧ Stocked n F read s

theorem ends_load (hfit : Fitting n F f d) (hR : Objects settings f d R) :
    Ends F R (load settings f d) (.initial n) fun r s => Read n F f d s r := by
  simp only [load, ends_bind, ends_emit]
  refine (ends_readFormula [] hfit hR ((loaded_initial n F).noted _ _) rfl).mono ?_
  intro r s hr
  cases r with
  | trivial => exact hr.2
  | ready =>
    simp only [ends_bind, ends_pure]
    exact (ends_readDerivation hfit hR hr).mono fun _ s' hs' => hs'

theorem read_of_load {result : Intake}
    (h : after (load settings f d) result (.initial (maxVar f d)) = some s) :
    Read (maxVar f d) True f d s result := by
  have hfit := fitting_excused f d
  have hR : Objects settings f d fun _ _ => True := fun _ _ _ _ => trivial
  exact (ends_load hfit hR).of_ok (after_eq_some_iff.mp h)

theorem read_of_stateAt {result : Intake} (h : stateAt settings f d (.loaded result) = some s) :
    Read (maxVar f d) True f d s result := read_of_load h

theorem stateAt_forth (h : stateAt settings f d (.loaded .ready) = some s₀) (i : Nat) :
    stateAt settings f d (.forth i) = forth settings.coreFirst s₀ i := by
  simp only [stateAt] at h ⊢
  rw [h, Option.bind_some]

theorem stateAt_back (h : stateAt settings f d (.loaded .ready) = some s₀) (last j : Nat) :
    stateAt settings f d (.back last j) =
      back settings.coreFirst (d.map Derivation.Line.clause).toArray s₀ last j := by
  simp only [stateAt] at h ⊢
  rw [h, Option.bind_some]

end Loading

section Run

/-- The moments after which a run is concluded. -/
def Moment.Final : Moment → Prop
  | loaded .trivial | contradicted => True
  | back last undone => undone = last + 1
  | loaded .ready | forth _ => False

/-- The end of a run selects the clauses and counts them. -/
theorem conclude_eq_ok {core : Core} (h : conclude f s = .ok (core, s')) : ∃ clauses,
    selectCore s.arena f s.origins.toList = .ok clauses ∧
      core = ⟨false, clauses, { s.counters with coreSize := clauses.length }⟩ ∧
      s' = { s with log := s'.log } := by
  obtain ⟨clauses, s₁, hask, hrest⟩ := bind_eq_ok_iff.mp h
  obtain ⟨hselect, rfl⟩ := ask_eq_ok_iff.mp hask
  cases hrest
  exact ⟨clauses, hselect, rfl, rfl⟩

/-- A run that is accepted comes to a final moment and changes only the log after it. -/
theorem exists_stateAt_of_run {core : Core}
    (h : run settings f d (.initial (maxVar f d)) = .ok (core, s)) :
    ∃ m s', m.Final ∧ stateAt settings f d m = some s' ∧ s = { s' with log := s.log } := by
  obtain ⟨⟨⟩, s₁, hemit, h⟩ := bind_eq_ok_iff.mp h
  obtain ⟨result, s₂, hformula, h⟩ := bind_eq_ok_iff.mp h
  cases result with
  | trivial =>
    refine ⟨.loaded .trivial, s₂, trivial, after_eq_some_iff.mpr ?_, ?_⟩
    · exact bind_eq_ok_iff.mpr ⟨(), s₁, hemit, bind_eq_ok_iff.mpr ⟨_, s₂, hformula, rfl⟩⟩
    · cases h
      rfl
  | ready =>
    obtain ⟨⟨⟩, s₀, hderivation, h⟩ := bind_eq_ok_iff.mp h
    have hload : stateAt settings f d (.loaded .ready) = some s₀ := by
      refine after_eq_some_iff.mpr (bind_eq_ok_iff.mpr ⟨(), s₁, hemit, ?_⟩)
      exact bind_eq_ok_iff.mpr ⟨_, s₂, hformula, bind_eq_ok_iff.mpr ⟨(), s₀, hderivation, rfl⟩⟩
    obtain ⟨lines, hread⟩ := read_of_stateAt hload
    obtain ⟨r, s₃, hreplay, h⟩ := bind_eq_ok_iff.mp h
    rcases hread.loaded.replay_cases hreplay with ⟨rfl, s₄, hsat, rfl⟩ | ⟨i, sf, rfl, hsf, hcarry⟩
    · obtain ⟨-, -, -, hs⟩ := conclude_eq_ok h
      refine ⟨.contradicted, s₄, trivial, ?_, hs⟩
      exact Option.bind_eq_some_iff.mpr ⟨s₀, hload, after_eq_some_iff.mpr hsat⟩
    · obtain ⟨⟨⟩, s₄, hjust, h⟩ := bind_eq_ok_iff.mp h
      obtain ⟨-, -, -, hs⟩ := conclude_eq_ok h
      refine ⟨.back i (i + 1), s₄, rfl, ?_, hs⟩
      rw [stateAt_back hload]
      exact back_of_justify hsf hcarry hjust

end Run

section Retracing

/-- The clauses on the watch lists. -/
def Engine.State.attached (s : State) : Set Handle :=
  {c | ∃ l, ∃ w ∈ s.watches.watchers l, w.clause = c}

theorem Engine.Coherent.attached_eq (h : Coherent n F body A s) : s.attached = A := by
  ext c
  constructor
  · rintro ⟨l, w, hw, rfl⟩
    exact ((h.watched.mem_iff l w).mp hw).1
  · intro hc
    obtain ⟨x, y, rest, hl⟩ := exists_watches (h.attached c hc).2
    exact ⟨x, ⟨c, s.arena.inCore c⟩, (h.watched.mem_iff x _).mpr ⟨hc, rfl, by simp [hl]⟩, rfl⟩

/-- Nothing is left to propagate or to explain. -/
structure Trail.AtRest (t : Trail) : Prop where
  forced : t.forced = t.assigned
  processed : t.processed = t.assigned
  unmarked : ∀ l, t.isMarked l ≠ .ok true

theorem Engine.Restored.atRest (hr : Restored L past A s) : s.trail.AtRest :=
  ⟨hr.forced, hr.processed, fun l hm => hr.unmarked l (Trail.marked_of_isMarked hm)⟩

/-- Two trails at rest with the same literals and reasons are the same. -/
theorem Engine.Restored.trail_eq {past' : List Frame} {A' : Set Handle} (hr : Restored L past A s)
    (hr' : Restored L past' A' s') (he : s.trail.entries = s'.trail.entries) :
    s.trail = s'.trail := by
  have hsize : s.trail.assigned = s'.trail.assigned := by
    rw [← Trail.length_entries, he, Trail.length_entries]
  exact hr.coherent.trail.ext hr'.coherent.trail
    (fun m => iff_of_false (hr.unmarked m) (hr'.unmarked m)) he
    (by rw [hr.processed, hr'.processed, hsize]) (by rw [hr.forced, hr'.forced, hsize])

/-- The way back goes through the trails and the attached clauses of the way forth. Before line `i`
is undone they are those that were there after the line was carried out; for the line that met the
conflict, whose lemma is still attached, the trail is the one before it. -/
theorem justify_retraces (hload : stateAt settings f d (.loaded .ready) = some s₀)
    (hreplay : replay settings.coreFirst s₀ = .ok (.step n, s₁)) :
    (∃ s sf, stateAt settings f d (.back n 0) = some s ∧ stateAt settings f d (.forth n) = some sf ∧
      s.trail = sf.trail ∧ s.trail.AtRest) ∧
    (∀ i < n, ∀ s, stateAt settings f d (.back n (n - i)) = some s →
      ∃ sf, stateAt settings f d (.forth (i + 1)) = some sf ∧ s.trail = sf.trail ∧
        s.attached = sf.attached ∧ s.trail.AtRest) ∧
    ∀ s₂, justify settings.coreFirst (d.map Derivation.Line.clause).toArray n s₁ = .ok ((), s₂) →
      ∃ sf, stateAt settings f d (.forth 0) = some sf ∧ s₂.trail = sf.trail ∧
        s₂.attached = sf.attached := by
  obtain ⟨lines, hread⟩ := read_of_stateAt hload
  have hl := hread.loaded
  have hg := gives_of_isPrefix hl hread.head
  obtain ⟨sf, hsf, hcarry⟩ := hl.forth_of_replay hreplay
  have hundone : ∀ j s, back settings.coreFirst (d.map Derivation.Line.clause).toArray s₀ n
      (j + 1) = some s → ∃ sf, forth settings.coreFirst s₀ (n - j) = some sf ∧
        s.trail = sf.trail ∧ s.attached = sf.attached ∧ s.trail.AtRest := by
    intro j s hs
    obtain ⟨past, A, sf, hlen, hsf, hf, hu⟩ := hl.undone_of_back hg hs
    refine ⟨sf, by rw [show n - j = past.length by omega]; exact hsf,
      hu.restored.trail_eq hf.restored hu.entries, ?_, hu.restored.atRest⟩
    rw [hu.restored.coherent.attached_eq, hf.restored.coherent.attached_eq]
  refine ⟨?_, fun i hi s hs => ?_, fun s₂ hjust => ?_⟩
  · have hs := back_zero (d.map Derivation.Line.clause).toArray hsf hcarry
    obtain ⟨past, A, h, sf', hlen, hsf', hf, -, -, ho⟩ := hl.overturned_of_back hs
    exact ⟨_, sf', (stateAt_back hload n 0).trans hs, (stateAt_forth hload n).trans hsf',
      ho.restored.trail_eq hf.restored ho.entries, ho.restored.atRest⟩
  · rw [stateAt_back hload, show n - i = n - i - 1 + 1 by omega] at hs
    obtain ⟨sf, hsf, h⟩ := hundone _ s hs
    rw [show n - (n - i - 1) = i + 1 by omega] at hsf
    exact ⟨sf, (stateAt_forth hload _).trans hsf, h⟩
  · obtain ⟨sf, hsf, ht, ha, -⟩ := hundone n s₂ (back_of_justify hsf hcarry hjust)
    rw [Nat.sub_self] at hsf
    exact ⟨sf, (stateAt_forth hload 0).trans hsf, ht, ha⟩

theorem exists_of_isSome_bind {α β : Type} {o : Option α} {g : α → Option β}
    (h : (o.bind g).isSome = true) : ∃ a b, o = some a ∧ g a = some b := by
  obtain ⟨b, hb⟩ := Option.isSome_iff_exists.mp h
  obtain ⟨a, ha, hb⟩ := Option.bind_eq_some_iff.mp hb
  exact ⟨a, b, ha, hb⟩

/-- A lemma is added and deleted before a unit meets the conflict. -/
def roundabout : Derivation := [.add [⟨1⟩, ⟨3⟩], .delete [⟨3⟩, ⟨1⟩], .add [⟨1⟩], .add []]

/-- The way back is after the deletion, where the way forth was. -/
theorem justify_retraces_deletion : ∃ s₀ s₁ s sf,
    stateAt {} (Signings.clauses 2) roundabout (.loaded .ready) = some s₀ ∧
    replay true s₀ = .ok (.step 2, s₁) ∧
    stateAt {} (Signings.clauses 2) roundabout (.back 2 1) = some s ∧
    stateAt {} (Signings.clauses 2) roundabout (.forth 2) = some sf ∧
    s.trail = sf.trail ∧ s.attached = sf.attached ∧ s.trail.AtRest := by
  obtain ⟨s₀, s₁, hload, hreplay⟩ := exists_of_isSome_bind
    (o := stateAt {} (Signings.clauses 2) roundabout (.loaded .ready))
    (g := after (replay true) (.step 2)) (by decide +kernel)
  have hreplay := after_eq_some_iff.mp hreplay
  have hsome : (stateAt {} (Signings.clauses 2) roundabout (.back 2 1)).isSome = true := by
    decide +kernel
  obtain ⟨s, hs⟩ := Option.isSome_iff_exists.mp hsome
  obtain ⟨sf, hsf, h⟩ := (justify_retraces hload hreplay).2.1 1 (by decide) s hs
  exact ⟨s₀, s₁, s, sf, hload, hreplay, hs, hsf, h⟩

end Retracing

section Watching

/-- The clauses that can be watched among those that are live after the first `i` lines. -/
def attachedAfter (i : Nat) (s : State) : List Handle :=
  (aliveAfter s.origins.toList (s.steps.toList.take i)).filter
    fun c => 2 ≤ (s.arena.literals c).length

/-- How often a clause is on the list of a literal. -/
def watchCount (s : State) (c : Handle) (l : Literal) : Nat :=
  ((s.watches.watchers l).map Watcher.clause).count c

/-- The clauses of `hs` are watched through their first two literals, and no others are. -/
structure Watches (hs : List Handle) (s : State) : Prop where
  attached : ∀ c ∈ hs, ∃ x y rest, s.arena.literals c = x :: y :: rest ∧ x ≠ y ∧
    ∀ l, watchCount s c l = if l = x ∨ l = y then 1 else 0
  others : ∀ c ∉ hs, ∀ l, watchCount s c l = 0
  core : ∀ l, ∀ w ∈ s.watches.watchers l, s.arena.isCore w.clause = .ok w.core

theorem Engine.Coherent.mem_watching_iff (h : Coherent n F body A s) :
    c ∈ (s.watches.watchers l).map Watcher.clause ↔ c ∈ A ∧ l ∈ (s.arena.literals c).take 2 := by
  rw [List.mem_map]
  constructor
  · rintro ⟨w, hw, rfl⟩
    obtain ⟨hA, -, hl⟩ := (h.watched.mem_iff l w).mp hw
    exact ⟨hA, hl⟩
  · rintro ⟨hA, hl⟩
    exact ⟨⟨c, s.arena.inCore c⟩, (h.watched.mem_iff l _).mpr ⟨hA, rfl, hl⟩, rfl⟩

theorem Engine.Coherent.watches_attached (h : Coherent n F body A s) {hs : List Handle}
    (hA : ∀ c, c ∈ hs ↔ c ∈ A) : Watches hs s := by
  refine ⟨fun c hc => ?_, fun c hc l => ?_, fun l w hw => ?_⟩
  · obtain ⟨hhas, hlen⟩ := h.attached c ((hA c).mp hc)
    obtain ⟨x, y, rest, hl⟩ := exists_watches hlen
    have hpair : Pair (s.arena.literals c) x y := ⟨rest, Or.inl hl⟩
    refine ⟨x, y, rest, hl, hpair.ne (h.stored.nodup_literals hhas), fun l => ?_⟩
    rw [watchCount, (h.watched.nodup l).count]
    simp only [h.mem_watching_iff, ← hA, hc, hl, true_and, List.take_succ_cons, List.take_zero,
      List.mem_cons, List.not_mem_nil, or_false]
  · rw [watchCount, List.count_eq_zero, h.mem_watching_iff, ← hA]
    exact fun hm => hc hm.1
  · obtain ⟨hm, hcore, -⟩ := (h.watched.mem_iff l w).mp hw
    rw [(h.attached _ hm).1.isCore, hcore]

/-- The number of lines that are in force at a moment. -/
def Moment.linesInForce : Moment → Nat
  | loaded _ | contradicted => 0
  | forth count => count
  | back last undone => last + 1 - undone

/-- The attached clauses for which unit propagation is not at an end: all of them before it starts,
and the lemma that met the conflict as long as it is not withdrawn. -/
def Moment.Unsettled (s : State) (c : Handle) : Moment → Prop
  | loaded _ => True
  | back last 0 => s.steps[last]? = some (.add c)
  | contradicted | forth _ | back _ (_ + 1) => False

/-- What holds at a moment about the watch lists and the stored clauses. -/
structure Orderly (f : Formula) (d : Derivation) (m : Moment) (s : State) : Prop where
  watches : Watches (attachedAfter m.linesInForce s) s
  settled : ∀ c ∈ attachedAfter m.linesInForce s, ¬ m.Unsettled s c →
    ∀ x y, Pair (s.arena.literals c) x y → s.trail.isFalse x = .ok true →
      s.trail.isTrue y = .ok true
  recorded : ∃ read lines, read <+: f ∧ lines <+: d ∧ Recorded read lines s ∧
    (m = .loaded .trivial ∨ read = f)

theorem Engine.Coherent.isTrue_of_settled (h : Coherent n F body A s) (hA : c ∈ A)
    (hs : Settled s.trail.falsified (s.arena.literals c)) (hp : Pair (s.arena.literals c) x y)
    (hx : s.trail.isFalse x = .ok true) : s.trail.isTrue y = .ok true := by
  have hhas := (h.attached c hA).1
  rw [h.trail.isFalse (h.stored.small_literal hhas hp.mem), Except.ok.injEq,
    decide_eq_true_eq] at hx
  have hy := hs x y hp hx
  have hproper := (h.trail.proper _ hy).neg
  rw [Literal.neg_neg] at hproper
  rw [h.trail.isTrue (h.stored.small_literal hhas hp.symm.mem) hproper.2]
  simpa using hy

theorem Engine.Restored.mem_attachedAfter (hr : Restored L past A s) :
    c ∈ attachedAfter past.length s ↔ c ∈ A := by
  rw [attachedAfter, hr.steps, hr.records.origins, List.mem_filter, decide_eq_true_eq,
    hr.chronicle.mem_attached_iff]
  refine and_congr_right fun hc => ?_
  have hhas := (hr.records.has c).mpr (mem_added_of_take (hr.chronicle.known_of_alive hc))
  rw [hr.coherent.stored.length hhas]

theorem Engine.Restored.orderly {s₀ : State} (hread : ReadTo n F f d lines s₀)
    (hr : Restored hread.loaded.ledger past A s) {m : Moment} (hm : m.linesInForce = past.length)
    (hset : ∀ c ∈ A, ¬ m.Unsettled s c → Settled s.trail.falsified (s.arena.literals c)) :
    Orderly f d m s := by
  refine ⟨?_, ?_, f, lines, List.prefix_refl f, hread.head,
    hread.loaded.recorded hr.records hr.coherent.stored, Or.inr rfl⟩
  · rw [hm]
    exact hr.coherent.watches_attached fun c => hr.mem_attachedAfter
  · rw [hm]
    intro c hc hno x y hp hx
    have hA := hr.mem_attachedAfter.mp hc
    exact hr.coherent.isTrue_of_settled hA (hset c hA hno) hp hx

/-- Before anything is propagated the longer clauses of the formula are attached. -/
theorem Engine.Stocked.orderly {result : Intake} (hs : Stocked n F read s) (hread : read <+: f)
    (hlines : lines <+: d) (hrec : Recorded read lines s) (hf : result = .trivial ∨ read = f) :
    Orderly f d (.loaded result) s := by
  refine ⟨hs.coherent.watches_attached fun c => ?_, fun c _ hno => (hno trivial).elim, read, lines,
    hread, hlines, hrec, hf.imp_left fun h => by rw [h]⟩
  simp [attachedAfter, Moment.linesInForce, aliveAfter, longOf]

theorem Engine.Stocked.recorded (hs : Stocked n F f s) (hsteps : s.steps = #[]) :
    Recorded f [] s := by
  refine ⟨hs.origins_size, fun i h c hi hc => ?_, by simp [hsteps], by simp, ?_, ?_⟩
  · rw [hs.literals_origin hi hc]
  · simpa [hsteps, lemmasOf] using hs.nodup
  · simpa [hsteps, lemmasOf, added] using hs.has

theorem Read.orderly {result : Intake} (h : Read n F f d s result) :
    Orderly f d (.loaded result) s := by
  cases result with
  | trivial =>
    obtain ⟨hsteps, read, hpre, hs⟩ := h
    exact hs.orderly hpre List.nil_prefix (hs.recorded hsteps) (Or.inl rfl)
  | ready =>
    obtain ⟨lines, hread⟩ := h
    have hl := hread.loaded
    exact hl.toStocked.orderly (List.prefix_refl f) hread.head
      (hl.recorded hl.records hl.coherent.stored) (Or.inr rfl)

theorem Engine.ReadTo.orderly_contradicted (hread : ReadTo n F f d lines s₀)
    (h : saturate coreFirst s₀ = .ok (.conflict, s)) : Orderly f d .contradicted s := by
  have hl := hread.loaded
  obtain ⟨hco, hr : Refuted _ _ s₀ s⟩ := hl.saturated h
  obtain ⟨hres, -, -⟩ := hl.conflict hco hr
  -- The explanation of the conflict has emptied the trail.
  have hent : s.trail.entries = [] := by
    rw [hr.backtracked.entries, hl.forced, List.take_zero]
  refine hres.orderly hread rfl fun c _ _ x y _ hx => ?_
  rw [← Trail.map_literal_entries, hent] at hx
  cases hx

theorem Engine.ReadTo.orderly_forth (hread : ReadTo n F f d lines s₀)
    (h : forth coreFirst s₀ i = some s) : Orderly f d (.forth i) s := by
  obtain ⟨past, A, rfl, hf, -⟩ := hread.loaded.forward_of_forth h
  exact hf.restored.orderly hread rfl fun c hc _ => hf.settled c hc

/-- The lemma that met the conflict is attached, and the others are settled as they were before. -/
theorem Engine.ReadTo.orderly_back_zero {given : Array Clause} (hread : ReadTo n F f d lines s₀)
    (h : back coreFirst given s₀ last 0 = some s) : Orderly f d (.back last 0) s := by
  obtain ⟨past, A, k, sf, rfl, -, -, -, -, ho⟩ := hread.loaded.overturned_of_back h
  refine ho.restored.orderly hread rfl fun c hc hno => ?_
  have hA : c ∈ A := by
    refine hc.resolve_right fun he => hno ?_
    rw [he.1]
    exact ho.restored.getElem?_steps
  have hset := ho.restored.boundaries _ List.mem_cons_self c hc hA
  rwa [← ho.entries, Trail.map_literal_entries] at hset

theorem Engine.ReadTo.orderly_back_succ {given : Array Clause} (hread : ReadTo n F f d lines s₀)
    (hg : Gives hread.loaded.ledger given) (h : back coreFirst given s₀ last (j + 1) = some s) :
    Orderly f d (.back last (j + 1)) s := by
  obtain ⟨past, A, sf, rfl, -, -, hu⟩ := hread.loaded.undone_of_back hg h
  refine hu.restored.orderly hread (by simp [Moment.linesInForce]) fun c hc _ => ?_
  have hset := hu.settled c hc
  rwa [← hu.entries, Trail.map_literal_entries] at hset

/-- At every moment of a run the attached clauses, and no others, are watched once through each of
their first two literals, with their core mark; each clause has the literals that it was given
with; and once unit propagation came to an end, a clause with a false watched literal has a true
one, but for the lemma that met the conflict until it is withdrawn. -/
theorem orderly_of_stateAt {m : Moment} (h : stateAt settings f d m = some s) :
    Orderly f d m s := by
  cases m with
  | loaded result => exact (read_of_stateAt h).orderly
  | contradicted =>
    obtain ⟨s₀, hload, hsat⟩ := Option.bind_eq_some_iff.mp h
    obtain ⟨lines, hread⟩ := read_of_load hload
    exact hread.orderly_contradicted (after_eq_some_iff.mp hsat)
  | forth count =>
    obtain ⟨s₀, hload, hs⟩ := Option.bind_eq_some_iff.mp h
    obtain ⟨lines, hread⟩ := read_of_load hload
    exact hread.orderly_forth hs
  | back last undone =>
    obtain ⟨s₀, hload, hs⟩ := Option.bind_eq_some_iff.mp h
    obtain ⟨lines, hread⟩ := read_of_load hload
    cases undone with
    | zero => exact hread.orderly_back_zero hs
    | succ j => exact hread.orderly_back_succ (gives_of_isPrefix hread.loaded hread.head) hs

/-- The state after the deletion of a lemma is undone. -/
theorem orderly_of_stateAt_deletion : ∃ s,
    stateAt {} (Signings.clauses 2) roundabout (.back 2 2) = some s ∧
      Orderly (Signings.clauses 2) roundabout (.back 2 2) s := by
  have hsome : (stateAt {} (Signings.clauses 2) roundabout (.back 2 2)).isSome = true := by
    decide +kernel
  obtain ⟨s, hs⟩ := Option.isSome_iff_exists.mp hsome
  exact ⟨s, hs, orderly_of_stateAt hs⟩

theorem eq_ok_of_toOption {α ε : Type} {r : Except ε α} {a : α} (h : r.toOption = some a) :
    r = .ok a := by
  cases r with
  | ok b => simpa [Except.toOption] using h
  | error e => simp [Except.toOption] at h

/-- The lemma that meets the conflict forces its first literal, which is unassigned when the
conflict is explained, and its second one stays false. The lemma is attached until it is
withdrawn, and here the run goes on after that. -/
theorem not_settled_before_withdrawal : ∃ s c x y,
    stateAt {} [[⟨-1⟩], [⟨2⟩, ⟨3⟩], [⟨2⟩, ⟨-3⟩], [⟨-2⟩, ⟨3⟩], [⟨-2⟩, ⟨-3⟩]]
      [.add [⟨2⟩, ⟨1⟩], .add []] (.back 0 0) = some s ∧
    (stateAt {} [[⟨-1⟩], [⟨2⟩, ⟨3⟩], [⟨2⟩, ⟨-3⟩], [⟨-2⟩, ⟨3⟩], [⟨-2⟩, ⟨-3⟩]]
      [.add [⟨2⟩, ⟨1⟩], .add []] (.back 0 1)).isSome = true ∧
    c ∈ attachedAfter 1 s ∧ Pair (s.arena.literals c) x y ∧ s.trail.isFalse x = .ok true ∧
    s.trail.isTrue y = .ok false := by
  have h : (stateAt {} [[⟨-1⟩], [⟨2⟩, ⟨3⟩], [⟨2⟩, ⟨-3⟩], [⟨-2⟩, ⟨3⟩], [⟨-2⟩, ⟨-3⟩]]
      [.add [⟨2⟩, ⟨1⟩], .add []] (.back 0 0)).any (fun s =>
        (attachedAfter 1 s).any fun c => s.arena.literals c = [⟨2⟩, ⟨1⟩] ∧
          (s.trail.isFalse ⟨1⟩).toOption = some true ∧
          (s.trail.isTrue ⟨2⟩).toOption = some false) = true := by
    decide +kernel
  simp only [Option.any_eq_true, List.any_eq_true, decide_eq_true_eq] at h
  obtain ⟨s, hs, c, hc, hlit, hf, ht⟩ := h
  exact ⟨s, c, ⟨1⟩, ⟨2⟩, hs, by decide +kernel, hc, ⟨[], Or.inr hlit⟩, eq_ok_of_toOption hf,
    eq_ok_of_toOption ht⟩

end Watching

end UnsatCore
