import UnsatCore.Engine.Replay
import UnsatCore.Proofs.Chronicle

/-! The state between two lines of the first pass, and the lines that change no literal: a deletion
is carried out only if the clause has no true literal, so the clauses that are live stay settled. -/
namespace UnsatCore.Engine

open CheckM

variable {L : Ledger} {past : List Frame} {A A' : Set Handle} {s s' : State} {c h : Handle}
  {step : Step} {R : Rejection → State → Prop} {coreFirst : Bool} {l u : Literal}
  {es : List Entry} {n : Nat} {F : Prop} {body : Handle → Clause}

/-- A lemma that is not to be had where line `i` stands: it follows neither from the clauses that
are live there nor from those that stand after the lines before it, as they are in `s`. -/
structure Ledger.Unfounded (L : Ledger) (i : Nat) (c : Clause) (s : State) : Prop where
  line : L.lines[i]? = some (.add c)
  live : ¬ c.FollowsFrom (L.live i)
  standing : ¬ c.FollowsFrom ((standingAfter L.origins (s.steps.toList.take i)).map L.body)
  stored : Stored L.bound L.excuse L.body s.arena
  records : L.Records s

/-- What a pass may be rejected for, given what was read. -/
structure Ledger.Blames (L : Ledger) (R : Rejection → State → Prop) : Prop where
  notFound : ∀ i c s, L.Unfounded i c s → R (.conflictNotFound i) s
  notImplied : ∀ i c s, L.Unfounded i c s → R (.lemmaNotImplied i c) s
  noConflict : ∀ s, .add [] ∉ L.lines → R .noConflict s

theorem Ledger.blames_excused (L : Ledger) : L.Blames fun _ _ => True :=
  ⟨fun _ _ _ _ => trivial, fun _ _ _ _ => trivial, fun _ _ => trivial⟩

/-- A clause whose literals are all false where all that stands is quiet. -/
theorem Chronicle.unfounded {k : Clause} {fs : List Literal} (hc : Chronicle L past A es)
    (hq : ∀ h ∈ standingAfter L.origins (carriedOut past), Quiet fs (L.body h))
    (hfs : ∀ l ∈ fs, -l ∉ fs) (hline : L.lines[past.length]? = some (.add k))
    (hk : ∀ l ∈ k, l ∈ fs) (hsteps : s.steps.toList.take past.length = carriedOut past)
    (hst : Stored L.bound L.excuse L.body s.arena) (hrec : L.Records s) :
    L.Unfounded past.length k s := by
  refine ⟨hline, not_followsFrom_of_quiet hfs (hc.quiet_live hq) hk,
    not_followsFrom_of_quiet hfs ?_ hk, hst, hrec⟩
  rw [hsteps]
  intro d hd
  obtain ⟨h, hh, rfl⟩ := List.mem_map.mp hd
  exact hq h hh

/-- The state before a line: everything is propagated, and nothing is in the core yet. -/
structure Forward (L : Ledger) (past : List Frame) (A : Set Handle) (s : State) : Prop where
  restored : Restored L past A s
  settled : ∀ c ∈ A, Settled s.trail.falsified (s.arena.literals c)
  anchored : Anchored L.body A s.trail.entries
  upheld : Upheld L past A s.trail.entries
  unneeded : ∀ h, s.arena.Has h → s.arena.inCore h = false
  justified : s.justified = []
  rest : s.steps.toList.drop past.length = L.steps.drop past.length
  nonempty : ∀ i < past.length, ∀ h, L.steps[i]? = some (.add h) → L.body h ≠ []

theorem Forward.quiet (hf : Forward L past A s) :
    ∀ h ∈ standingAfter L.origins (carriedOut past), Quiet s.trail.falsified (L.body h) :=
  hf.upheld.quiet hf.restored.coherent hf.settled (by simp)

section Steps

variable {orig : Step}

theorem Forward.getElem?_steps (hf : Forward L past A s) :
    s.steps[past.length]? = L.steps[past.length]? := by
  have h := congrArg (·[0]?) hf.rest
  simpa using h

theorem Forward.length_lt (hs : L.steps[past.length]? = some step) :
    past.length < L.lines.length := by
  rw [← L.transcript.length]
  exact (List.getElem?_eq_some_iff.mp hs).1

/-- A line that became what it was read as. -/
theorem Forward.setIfInBounds_steps (hf : Forward L past A s)
    (hs : L.steps[past.length]? = some step) :
    s.steps = s.steps.setIfInBounds past.length step := by
  have hget := hf.getElem?_steps.trans hs
  refine Array.ext_getElem? fun i => ?_
  rw [Array.getElem?_setIfInBounds]
  split
  · rename_i he
    obtain ⟨hlt, -⟩ := Array.getElem?_eq_some_iff.mp hget
    rw [← he, if_pos hlt, hget]
  · rfl

/-- The lines after one of them was revised. -/
theorem Forward.take_steps (hf : Forward L past A s) (horig : L.steps[past.length]? = some orig)
    (hsteps : s'.steps = s.steps.setIfInBounds past.length step) :
    s'.steps.toList.take (past.length + 1) = carriedOut past ++ [step] ∧
      s'.steps.toList.drop (past.length + 1) = L.steps.drop (past.length + 1) := by
  obtain ⟨hlt, -⟩ := Array.getElem?_eq_some_iff.mp (hf.getElem?_steps.trans horig)
  rw [hsteps, Array.toList_setIfInBounds]
  constructor
  · rw [List.take_add_one, List.take_set_of_le (Nat.le_refl _), hf.restored.steps,
      List.getElem?_set_self (by simpa using hlt)]
    rfl
  · have hold := congrArg (List.drop 1) hf.rest
    rw [List.drop_drop, List.drop_drop] at hold
    rw [List.drop_set_of_lt (Nat.lt_succ_self _)]
    exact hold

theorem Ledger.Records.revise (hr : L.Records s) (horig : L.steps[past.length]? = some orig)
    (hrev : Revises orig step) (ho : s'.origins = s.origins)
    (hsteps : s'.steps = s.steps.setIfInBounds past.length step)
    (hh : ∀ d, s'.arena.Has d ↔ s.arena.Has d) : L.Records s' := by
  refine ⟨by rw [ho]; exact hr.origins, fun h => (hh h).trans (hr.has h), ?_, ?_⟩
  · rw [hsteps, Array.size_setIfInBounds]
    exact hr.size
  · intro i orig' step' ho' hs'
    rw [hsteps, Array.getElem?_setIfInBounds] at hs'
    split at hs'
    · rename_i he
      subst he
      rw [horig, Option.some_inj] at ho'
      split at hs'
      · cases hs'
        exact ho' ▸ hrev
      · cases hs'
    · exact hr.revised i orig' step' ho' hs'

end Steps

/-- One more line was carried out. -/
theorem Forward.record {orig : Step} (hf : Forward L past A s)
    (horig : L.steps[past.length]? = some orig)
    (hbe : Became L.body s.trail.falsified orig step)
    (hco : Coherent L.bound L.excuse L.body A' s')
    (hcar : Carried L.body step A s.trail.entries A' s'.trail.entries)
    (hset : ∀ c ∈ A', c ∈ A → ∀ es, es <+: s.trail.entries →
      Settled (es.map Entry.literal) (s.arena.literals c) →
      Settled (es.map Entry.literal) (s'.arena.literals c))
    (hfo : s'.trail.forced = s'.trail.assigned) (hpr : s'.trail.processed = s'.trail.assigned)
    (hum : ∀ m, ¬ s'.trail.Marked m)
    (hsteps : s'.steps = s.steps.setIfInBounds past.length step)
    (hor : s'.origins = s.origins) (hhas : ∀ d, s'.arena.Has d ↔ s.arena.Has d) :
    Restored L (⟨step, A, s.trail.entries⟩ :: past) A' s' := by
  have hr := hf.restored
  have hch : Chronicle L (⟨step, A, s.trail.entries⟩ :: past) A' s'.trail.entries :=
    ⟨hcar, hf.anchored, hf.upheld, ⟨orig, horig, by rwa [Trail.map_literal_entries]⟩, hr.chronicle⟩
  refine ⟨hco, hch, ?_, hfo, hpr, hum, ?_, hr.records.revise horig hbe.revises hor hsteps hhas⟩
  · intro fr hfr c hc hca
    rcases List.mem_cons.mp hfr with rfl | hfr
    · refine hset c hc hca _ (List.prefix_refl _) ?_
      rw [Trail.map_literal_entries]
      exact hf.settled c hca
    · have hA : c ∈ A := by
        rcases hcar.attached hc with hA | he
        · exact hA
        · exact (L.not_known (hch.addition he) (hr.chronicle.known_frame hfr hca)).elim
      exact hset c hc hA _ (hr.chronicle.isPrefix hfr) (hr.boundaries fr hfr c hA hca)
  · rw [List.length_cons, carriedOut_cons]
    exact (hf.take_steps horig hsteps).1

theorem Forward.next {orig : Step} (hf : Forward L past A s)
    (horig : L.steps[past.length]? = some orig)
    (hres : Restored L (⟨step, A, s.trail.entries⟩ :: past) A' s')
    (hset : ∀ c ∈ A', Settled s'.trail.falsified (s'.arena.literals c))
    (hanch : Anchored L.body A' s'.trail.entries)
    (hup : ∀ h ∈ step.stand (standingAfter L.origins (carriedOut past)),
      h ∈ A' ∨ ∃ l ∈ L.body h, -l ∈ s'.trail.falsified)
    (hhas : ∀ d, s'.arena.Has d ↔ s.arena.Has d)
    (hcore : ∀ d, s.arena.Has d → s'.arena.inCore d = s.arena.inCore d)
    (hj : s'.justified = s.justified)
    (hsteps : s'.steps = s.steps.setIfInBounds past.length step)
    (hne : ∀ h, orig = .add h → L.body h ≠ []) :
    Forward L (⟨step, A, s.trail.entries⟩ :: past) A' s' := by
  refine ⟨hres, hset, hanch, ?_, ?_, hj.trans hf.justified, (hf.take_steps horig hsteps).2, ?_⟩
  · unfold Upheld
    rw [carriedOut_cons, standingAfter_append_singleton, Trail.map_literal_entries]
    exact hup
  · intro h hh
    rw [hcore h ((hhas h).mp hh)]
    exact hf.unneeded h ((hhas h).mp hh)
  · intro i hi h hs
    rcases Nat.lt_or_eq_of_le (Nat.le_of_lt_succ hi) with hi | rfl
    · exact hf.nonempty i hi h hs
    · rw [horig, Option.some_inj] at hs
      exact hne h hs

/-- A line that leaves the clauses and the trail as they are, though not what is attached. -/
theorem Forward.stay {orig : Step} (hf : Forward L past A s)
    (horig : L.steps[past.length]? = some orig)
    (hbe : Became L.body s.trail.falsified orig step)
    (hco : Coherent L.bound L.excuse L.body A' s')
    (hcar : Carried L.body step A s.trail.entries A' s.trail.entries)
    (ha : s'.arena = s.arena) (ht : s'.trail = s.trail) (hor : s'.origins = s.origins)
    (hj : s'.justified = s.justified)
    (hsteps : s'.steps = s.steps.setIfInBounds past.length step)
    (hset : ∀ c ∈ A', Settled s.trail.falsified (s.arena.literals c))
    (hanch : Anchored L.body A' s.trail.entries)
    (hup : ∀ h ∈ step.stand (standingAfter L.origins (carriedOut past)),
      h ∈ A' ∨ ∃ l ∈ L.body h, -l ∈ s.trail.falsified)
    (hne : ∀ h, orig = .add h → L.body h ≠ []) :
    Forward L (⟨step, A, s.trail.entries⟩ :: past) A' s' := by
  have hr := hf.restored
  have hhas : ∀ d, s'.arena.Has d ↔ s.arena.Has d := fun d => by rw [ha]
  rw [← ht] at hset hanch hup
  have hres : Restored L (⟨step, A, s.trail.entries⟩ :: past) A' s' := by
    refine hf.record horig hbe hco (by rwa [ht]) (fun c _ _ es _ hc => by rwa [ha]) ?_ ?_ ?_ hsteps
      hor hhas
    · rw [ht]
      exact hr.forced
    · rw [ht]
      exact hr.processed
    · rw [ht]
      exact hr.unmarked
  refine hf.next horig hres ?_ hanch hup hhas (fun d _ => by rw [ha]) hj hsteps hne
  rw [ha]
  exact hset

theorem Forward.upheld_falsified (hf : Forward L past A s) :
    ∀ h ∈ standingAfter L.origins (carriedOut past),
      h ∈ A ∨ ∃ l ∈ L.body h, -l ∈ s.trail.falsified := by
  have hu := hf.upheld
  unfold Upheld at hu
  rwa [Trail.map_literal_entries] at hu

section Deletion

theorem yields_anyTrue {t : Trail} {ls : Clause} (ht : t.Wf n) (hs : ∀ l ∈ ls, l.var.index ≤ n)
    (hm : ∀ l ∈ ls, l.val = Int32.minValue → F) {Q : Bool → Prop}
    (htrue : (∃ l ∈ ls, -l ∈ t.falsified) → Q true)
    (hfalse : (∀ l ∈ ls, -l ∉ t.falsified) → Q false) : Yields F (anyTrue t ls) Q := by
  induction ls with
  | nil => exact hfalse (by simp)
  | cons l ls ih =>
    rw [anyTrue]
    by_cases hmin : l.val = Int32.minValue
    · simpa [Trail.isTrue, Literal.opposite?_eq_none hmin] using hm l (by simp) hmin
    rw [ht.isTrue (hs l (by simp)) hmin]
    by_cases hl : -l ∈ t.falsified
    · simpa [hl] using htrue ⟨l, by simp, hl⟩
    · simp only [hl, decide_false]
      refine ih (fun m hm' => hs m (by simp [hm'])) (fun m hm' => hm m (by simp [hm'])) ?_ ?_
      · rintro ⟨m, hm', ht⟩
        exact htrue ⟨m, by simp [hm'], ht⟩
      intro hall
      apply hfalse
      intro m hm'
      rcases List.mem_cons.mp hm' with rfl | hm'
      · exact hl
      · exact hall m hm'

/-- A reason has a true literal. -/
theorem yields_isReason (hs : Coherent n F body A s) (hh : s.arena.Has c) {Q : Bool → Prop}
    (htrue : (∃ l ∈ s.arena.literals c, -l ∈ s.trail.falsified) → Q true) (hfalse : Q false) :
    Yields F (isReason s c) Q := by
  simp only [isReason, yields_bind]
  cases hl : s.arena.literals c with
  | nil =>
    have hend := hh.literal_end
    rw [hl, List.length_nil] at hend
    rw [hend]
    simpa [Literal.isZero] using hfalse
  | cons x rest =>
    have hmem : x ∈ s.arena.literals c := by simp [hl]
    have hx := hs.stored.small_literal hh hmem
    rw [hh.literal (i := 0) (l := x) (by simp [hl])]
    simp only [yields_ok, yields_ite, yields_pure, yields_bind]
    split
    · exact hfalse
    · refine yields_isTrue hs.trail hx (hs.stored.least_literal hh hmem) fun _ => ?_
      split
      · rename_i ht
        rw [hs.trail.reasonOf hx, yields_ok]
        cases s.trail.reasonAt x.var == some c with
        | false => exact hfalse
        | true => exact htrue ⟨x, hmem, by simpa using ht⟩
      · exact hfalse

/-- A clause is held back if it has a true literal, and not otherwise. -/
theorem yields_isHeld (hs : Coherent n F body A s) (hh : s.arena.Has c) {Q : Bool → Prop}
    (htrue : (∃ l ∈ s.arena.literals c, -l ∈ s.trail.falsified) → Q true)
    (hfalse : (∀ l ∈ s.arena.literals c, -l ∉ s.trail.falsified) → Q false) :
    Yields F (isHeld c s) Q := by
  simp only [isHeld, yields_bind]
  refine yields_isReason hs hh ?_ ?_
  · simpa using htrue
  · simp only [Bool.false_eq_true, if_false]
    exact yields_anyTrue hs.trail (fun l hl => hs.stored.small_literal hh hl)
      (fun l hl => hs.stored.least_literal hh hl) htrue hfalse

/-- A deletion that was read names a clause that can be watched. -/
theorem Ledger.deletion (hs : L.steps[past.length]? = some (.delete h)) :
    h ∈ aliveAfter L.origins (L.steps.take past.length) := by
  have hlt := Forward.length_lt hs
  have hr := L.transcript.read past.length _ _ (List.getElem?_eq_getElem hlt) hs
  cases hl : L.lines[past.length] with
  | add c => simp [hl, ReadAs] at hr
  | delete c =>
    rw [hl] at hr
    exact hr.1

theorem ends_replayDelete (hf : Forward L past A s)
    (hs : L.steps[past.length]? = some (.delete h)) :
    Ends L.excuse R (replayDelete past.length h) s fun _ s' =>
      ∃ step A', Forward L (⟨step, A, s.trail.entries⟩ :: past) A' s' := by
  have hr := hf.restored
  have hco := hr.coherent
  have hal := L.deletion hs
  have hh := (hr.records.has h).mpr (mem_added_of_take (mem_of_mem_aliveAfter hal))
  simp only [replayDelete, ends_bind, ends_ask, ends_ite]
  refine yields_isHeld hco hh ?_ ?_
  · rintro ⟨l, hl, ht⟩
    simp only [if_true, ends_emit, revise, ends_modify, ends_count]
    have hbe : Became L.body s.trail.falsified (.delete h) .ignored :=
      .held ⟨l, (hco.stored.mem_iff hh).mp hl, ht⟩
    exact ⟨_, _, hf.stay hs hbe (hco.congr rfl rfl rfl) .ignored rfl rfl rfl rfl rfl hf.settled
      hf.anchored hf.upheld_falsified (by simp)⟩
  · intro hno
    have hno' : ∀ l ∈ L.body h, -l ∉ s.trail.falsified := fun l hl =>
      hno l ((hco.stored.mem_iff hh).mpr hl)
    have hA : h ∈ A := by
      rcases hf.upheld_falsified h (hr.chronicle.standing_of_alive hal) with hA | ⟨l, hl, ht⟩
      · exact hA
      · exact (hno' l hl ht).elim
    simp only [Bool.false_eq_true, if_false]
    refine (ends_detach hco hA).mono ?_
    rintro - s' ⟨hco', heq⟩
    have hcar : Carried L.body (.delete h) A s.trail.entries (A \ {h}) s.trail.entries := by
      refine .delete hA ?_ ?_
      · rw [Trail.map_literal_entries]
        exact hco.quiet hA (hf.settled h hA)
      · rw [Trail.map_literal_entries]
        exact hno'
    have hnr := hco.not_reason fun l hl => hno l (List.mem_of_mem_head? hl)
    have hsteps : s'.steps = s.steps.setIfInBounds past.length (.delete h) := by
      rw [heq]
      exact hf.setIfInBounds_steps hs
    refine ⟨_, _, hf.stay hs (.deleted hno') hco' hcar (by rw [heq]) (by rw [heq]) (by rw [heq])
      (by rw [heq]) hsteps (fun c hc => hf.settled c hc.1) ?_ ?_ (by simp)⟩
    · intro e he c hr hlen
      exact ⟨hf.anchored e he c hr hlen, fun hch => hnr e he (hch ▸ hr)⟩
    · intro k hk
      obtain ⟨hk, hne⟩ := List.mem_filter.mp hk
      rcases hf.upheld_falsified k hk with hA | ht
      · exact Or.inl ⟨hA, by simpa using hne⟩
      · exact Or.inr ht

end Deletion

end UnsatCore.Engine
