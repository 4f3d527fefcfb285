import UnsatCore.Proofs.Moments

/-! The first pass compared with one that keeps nothing but the list of the live clauses and
propagates them from scratch at each line. Both end in the same way and with the same log, and in
between the trail holds what unit propagation makes true. -/
namespace UnsatCore

open Engine Engine.CheckM

variable {f : Formula} {d lines : Derivation} {l : Literal} {ts fs : List Literal}
  {start : Literal → Prop} {k n i : Nat} {F : Prop} {settings : Settings} {coreFirst : Bool}
  {s s' s₀ : State} {L : Ledger} {past : List Frame} {A : Set Handle} {c h : Handle}
  {body : Handle → Clause} {live : List Handle} {orig step : Step} {rest : List Step}

namespace Formula

/-- The literals that a clause forces once those of `ts` are true, without those of `ts`. -/
def units (f : Formula) (ts : List Literal) : List Literal :=
  f.flatMap fun c => c.filter fun l => l ∉ ts ∧ ∀ m ∈ c, m ≠ l → -m ∈ ts

/-- Unit propagation for `k` rounds. -/
def closeFrom (f : Formula) : (k : Nat) → List Literal → List Literal
  | 0, ts => ts
  | k + 1, ts => closeFrom f k (f.units ts ++ ts)

/-- The literals that unit propagation makes true. A round that makes none true is the last one, so
that as many rounds as there are occurrences of literals are enough. -/
def closure (f : Formula) : List Literal := f.closeFrom f.flatten.length []

/-- Whether unit propagation makes all literals of a clause false. -/
def conflicts (f : Formula) : Bool := f.any fun c => c.all fun l => -l ∈ f.closure

theorem mem_units : l ∈ f.units ts ↔
    l ∉ ts ∧ ∃ c ∈ f, l ∈ c ∧ ∀ m ∈ c, m ≠ l → -m ∈ ts := by
  simp only [units, List.mem_flatMap, List.mem_filter, decide_eq_true_eq]
  tauto

/-- The occurrences of literals that are not in `ts`. -/
def missing (f : Formula) (ts : List Literal) : Nat := f.flatten.countP (· ∉ ts)

theorem mem_flatten_of_units (hl : l ∈ f.units ts) : l ∈ f.flatten := by
  obtain ⟨-, c, hc, hlc, -⟩ := mem_units.mp hl
  exact List.mem_flatten.mpr ⟨c, hc, hlc⟩

theorem missing_pos (hl : l ∈ f.units ts) : 0 < f.missing ts :=
  List.countP_pos_iff.mpr ⟨l, mem_flatten_of_units hl, by simpa using (mem_units.mp hl).1⟩

theorem missing_units_lt (hl : l ∈ f.units ts) : f.missing (f.units ts ++ ts) < f.missing ts := by
  have hnew : 0 < (f.flatten.filter (· ∈ f.units ts)).countP (· ∉ ts) :=
    List.countP_pos_iff.mpr ⟨l, List.mem_filter.mpr ⟨mem_flatten_of_units hl, by simpa using hl⟩,
      by simpa using (mem_units.mp hl).1⟩
  have hold : (f.flatten.filter fun m => !decide (m ∈ f.units ts)).countP (· ∉ ts) =
      f.missing (f.units ts ++ ts) := by
    rw [missing, List.countP_filter]
    refine List.countP_congr fun m _ => ?_
    simp [and_comm]
  calc f.missing (f.units ts ++ ts)
      < (f.flatten.filter (· ∈ f.units ts)).countP (· ∉ ts) +
          f.missing (f.units ts ++ ts) := Nat.lt_add_of_pos_left hnew
    _ = f.missing ts := by
      rw [← hold]
      exact (List.countP_eq_countP_filter_add f.flatten (· ∉ ts) (· ∈ f.units ts)).symm

theorem closeFrom_of_units_eq_nil (h : f.units ts = []) : f.closeFrom k ts = ts := by
  induction k with
  | zero => rfl
  | succ k ih => rw [closeFrom, h, List.nil_append, ih]

/-- After enough rounds nothing is forced any more. -/
theorem units_closeFrom (h : f.missing ts ≤ k) : f.units (f.closeFrom k ts) = [] := by
  induction k generalizing ts with
  | zero =>
    exact List.eq_nil_iff_forall_not_mem.mpr fun l hl => Nat.not_lt_of_le h (missing_pos hl)
  | succ k ih =>
    by_cases hu : f.units ts = []
    · rw [closeFrom_of_units_eq_nil hu, hu]
    · obtain ⟨l, hl⟩ := List.exists_mem_of_ne_nil _ hu
      have := missing_units_lt hl
      exact ih (by omega)

theorem units_closure (f : Formula) : f.units f.closure = [] :=
  units_closeFrom List.countP_le_length

theorem implied_of_mem_closeFrom (hts : ∀ m ∈ ts, Implied f start m) (hl : l ∈ f.closeFrom k ts) :
    Implied f start l := by
  induction k generalizing ts with
  | zero => exact hts l hl
  | succ k ih =>
    refine ih (fun m hm => ?_) hl
    rcases List.mem_append.mp hm with hm | hm
    · obtain ⟨-, c, hc, hmc, hrest⟩ := mem_units.mp hm
      exact .unit hc hmc fun u hu hne => hts _ (hrest u hu hne)
    · exact hts m hm

theorem mem_closure : l ∈ f.closure ↔ Implied f (fun _ => False) l := by
  constructor
  · exact implied_of_mem_closeFrom (by simp)
  · intro h
    induction h with
    | given h => exact h.elim
    | @unit c l hc hl _ ih =>
      by_contra hno
      have hu : l ∈ f.units f.closure := mem_units.mpr ⟨hno, c, hc, hl, ih⟩
      rw [units_closure] at hu
      cases hu

theorem conflicts_iff : f.conflicts = true ↔ Conflicting f fun _ => False := by
  simp [conflicts, Conflicting, mem_closure]

end Formula

/-- What the reference makes of a line: it goes on with what became of the line, or it ends. -/
inductive Fate
  | goesOn (step : Step)
  | ends (result : Except Rejection Refutation)

/-- The fate of the line of number `i` where the clauses of `live` are live. -/
def fate (body : Handle → Clause) (live : List Handle) (i : Nat) : Step → Fate
  | .delete h =>
    if (body h).any (· ∈ Formula.closure (live.map body)) then .goesOn .ignored
    else .goesOn (.delete h)
  | .add h =>
    if (body h).any (· ∈ Formula.closure (live.map body)) then .goesOn (.satisfied h)
    else if (body h).all (-· ∈ Formula.closure (live.map body)) then
      .ends (.error (.conflictNotFound i))
    else if Formula.conflicts ((h :: live).map body) then .ends (.ok (.step i))
    else .goesOn (.add h)
  | .satisfied h => .goesOn (.satisfied h)
  | .ignored => .goesOn .ignored

/-- How a pass over the lines ends, the first of which is number `i`, and what becomes of them. -/
def referenceFrom (body : Handle → Clause) :
    (live : List Handle) → (i : Nat) → List Step → Except Rejection Refutation × List Step
  | _, _, [] => (.error .noConflict, [])
  | live, i, step :: rest =>
    match fate body live i step with
    | .ends result => (result, step :: rest)
    | .goesOn step' =>
      let later := referenceFrom body (step'.carryOut live) (i + 1) rest
      (later.1, step' :: later.2)

/-- A pass that propagates from scratch, over a formula whose clauses are those of `origins`. -/
def reference (body : Handle → Clause) (origins : List Handle) (steps : List Step) :
    Except Rejection Refutation × List Step :=
  if Formula.conflicts (origins.map body) then (.ok .formula, steps)
  else referenceFrom body origins 0 steps

/-- How a pass ended, and what became of the lines; nothing if it met a fault. -/
def conclusion : Except Halt (Refutation × State) → Option (Except Rejection Refutation × List Step)
  | .ok (r, s) => some (.ok r, s.steps.toList)
  | .error (.rejected r s) => some (.error r, s.steps.toList)
  | .error (.fault _ _) => none

theorem conclusion_eq_of_ends {m : CheckM Refutation} {v : Except Rejection Refutation × List Step}
    (h : Ends False (fun r s' => (.error r, s'.steps.toList) = v) m s
      fun r s' => (.ok r, s'.steps.toList) = v) : conclusion (m s) = some v := by
  unfold Ends at h
  split at h
  · rename_i r s' hm
    rw [hm, conclusion, h]
  · rename_i r s' hm
    rw [hm, conclusion, h]
  · exact h.elim

section Forward

/-- What a trail holds follows by unit propagation from the reasons. -/
theorem Engine.Coherent.implied {g : Formula} (hs : Coherent n F body A s)
    (hr : ∀ e ∈ s.trail.entries, ∃ c, e.reason = some c ∧ body c ∈ g) :
    ∀ e ∈ s.trail.entries, Implied g (fun _ => False) (-e.literal) := by
  have hg := hs.grounded
  generalize s.trail.entries = es at hr hg
  induction es using List.reverseRecOn with
  | nil => simp
  | append_singleton es e ih =>
    have ih := ih (fun e he => hr e (List.mem_append_left _ he)) hg.append_left
    intro e' he'
    rcases List.mem_append.mp he' with he' | he'
    · exact ih e' he'
    · obtain rfl := List.mem_singleton.mp he'
      obtain ⟨c, hc, hmem⟩ := hr e' (by simp)
      obtain ⟨hhas, tail, hl, htail⟩ := hg es e' [] c rfl hc
      have hbody : ∀ m, m ∈ body c ↔ m ∈ -e'.literal :: tail := fun m => by
        rw [← hs.stored.mem_iff hhas, hl]
      refine .unit hmem ((hbody _).mpr List.mem_cons_self) fun m hm hne => ?_
      have hm' := htail m ((List.mem_cons.mp ((hbody m).mp hm)).resolve_left hne)
      obtain ⟨e'', he'', rfl⟩ := List.mem_map.mp hm'
      exact ih e'' he''

theorem Engine.Forward.quiet_alive (hf : Forward L past A s) :
    ∀ c ∈ (aliveAfter L.origins (carriedOut past)).map L.body, Quiet s.trail.falsified c := by
  intro c hc
  obtain ⟨h, hh, rfl⟩ := List.mem_map.mp hc
  exact hf.quiet h (hf.restored.chronicle.standing_of_carriedOut hh)

theorem Engine.Forward.not_conflicting (hf : Forward L past A s) :
    ¬ Conflicting ((aliveAfter L.origins (carriedOut past)).map L.body) fun _ => False :=
  not_conflicting_of_quiet (fun _ hl => hf.restored.coherent.trail.not_mem_neg hl) hf.quiet_alive
    fun _ hl => hl.elim

/-- The trail holds the closure of the live clauses. -/
theorem Engine.Forward.mem_closure_iff (hf : Forward L past A s) :
    l ∈ Formula.closure ((aliveAfter L.origins (carriedOut past)).map L.body) ↔
      -l ∈ s.trail.falsified := by
  rw [Formula.mem_closure]
  constructor
  · intro h
    exact h.mem_of_quiet (fun _ hl => hf.restored.coherent.trail.not_mem_neg hl) hf.quiet_alive
      fun _ hl => hl.elim
  · intro hl
    rw [← Trail.map_literal_entries] at hl
    obtain ⟨e, he, hel⟩ := List.mem_map.mp hl
    rw [← Literal.neg_neg l, ← hel]
    refine hf.restored.coherent.implied (fun e he => ?_) e he
    obtain ⟨c, hc⟩ := Option.ne_none_iff_exists'.mp (hf.restored.chronicle.reason_ne_none e he)
    exact ⟨c, hc, List.mem_map_of_mem (hf.alive_of_involved (Or.inr ⟨e, he, hc⟩))⟩

theorem Engine.Became.fate_eq (hb : Became body fs orig step)
    (hU : ∀ l, l ∈ Formula.closure (live.map body) ↔ -l ∈ fs)
    (hno : ∀ h, step = .add h → ¬ Conflicting ((h :: live).map body) fun _ => False) :
    fate body live i orig = .goesOn step := by
  cases hb with
  | ignored => rfl
  | held hex =>
    rw [fate, if_pos]
    simpa [hU] using hex
  | deleted hall =>
    rw [fate, if_neg]
    simpa [hU] using hall
  | leftOut hex =>
    rw [fate, if_pos]
    simpa [hU] using hex
  | added hall hex =>
    rw [fate, if_neg, if_neg, if_neg]
    · rw [Formula.conflicts_iff]
      exact hno _ rfl
    · simpa [hU] using hex
    · simpa [hU] using hall

/-- What the reference comes to where the lines of `past` are carried out and those of `rest` are
left. -/
def expected (L : Ledger) (past : List Frame) (rest : List Step) :
    Except Rejection Refutation × List Step :=
  let later := referenceFrom L.body (aliveAfter L.origins (carriedOut past)) past.length rest
  (later.1, carriedOut past ++ later.2)

theorem Engine.Forward.steps_eq (hf : Forward L past A s)
    (hrest : L.steps.drop past.length = rest) : s.steps.toList = carriedOut past ++ rest := by
  rw [← hf.restored.steps, ← hrest, ← hf.rest, List.take_append_drop]

theorem expected_of_ends {result : Except Rejection Refutation} (hf : Forward L past A s)
    (hrest : L.steps.drop past.length = step :: rest)
    (hfate : fate L.body (aliveAfter L.origins (carriedOut past)) past.length step =
      .ends result) : (result, s.steps.toList) = expected L past (step :: rest) := by
  rw [expected, referenceFrom, hfate, hf.steps_eq hrest]

/-- The reference goes on like the pass does. -/
theorem expected_cons {A' : Set Handle} {fr : Frame} (hf : Forward L past A s)
    (hf' : Forward L (fr :: past) A' s') (he : fr.entries = s.trail.entries)
    (hstep : L.steps[past.length]? = some step) :
    expected L past (step :: rest) = expected L (fr :: past) rest := by
  obtain ⟨-, -, -, ⟨orig, horig, hb⟩, -⟩ := hf'.restored.chronicle
  rw [hstep, Option.some_inj] at horig
  subst horig
  rw [he, Trail.map_literal_entries] at hb
  have hlive : aliveAfter L.origins (carriedOut (fr :: past)) =
      fr.step.carryOut (aliveAfter L.origins (carriedOut past)) := by
    rw [carriedOut_cons, aliveAfter_append_singleton]
  have hfate := hb.fate_eq (i := past.length) (fun l => hf.mem_closure_iff) ?_
  · simp only [expected, referenceFrom, hfate, hlive, List.length_cons]
    rw [carriedOut_cons, List.append_assoc, List.singleton_append]
  · intro h hh
    have hno := hf'.not_conflicting
    rwa [hlive, hh] at hno

/-- The lemma that ends a pass does so in the reference too. -/
theorem Engine.Overturned.fate_eq (ho : Overturned L past A h s s') (hf : Forward L past A s) :
    fate L.body (aliveAfter L.origins (carriedOut past)) past.length (.add h) =
      .ends (.ok (.step past.length)) := by
  obtain ⟨-, -, -, ⟨orig, -, hb⟩, -⟩ := ho.restored.chronicle
  rw [Trail.map_literal_entries] at hb
  obtain rfl := hb.of_add
  cases hb with
  | added hall hex =>
    rw [fate, if_neg, if_neg, if_pos]
    · exact Formula.conflicts_iff.mpr ho.conflict
    · simpa [hf.mem_closure_iff] using hex
    · simpa [hf.mem_closure_iff] using hall

theorem Engine.Stuck.fate_eq (hst : Stuck L past s s') (hf : Forward L past A s)
    (hs : L.steps[past.length]? = some step) :
    fate L.body (aliveAfter L.origins (carriedOut past)) past.length step =
      .ends (.error (.conflictNotFound past.length)) := by
  obtain ⟨h, hh, hfalse⟩ := hst.false_lemma
  rw [hs, Option.some_inj] at hh
  subst hh
  have hall : ∀ l ∈ L.body h, -l ∉ s.trail.falsified := fun l hl =>
    hf.restored.coherent.trail.not_mem_neg (hfalse l hl)
  rw [fate, if_neg, if_pos]
  · simpa [hf.mem_closure_iff] using hfalse
  · simpa [hf.mem_closure_iff] using hall

theorem ends_replayFrom_expected (hf : Forward L past A s)
    (hrest : L.steps.drop past.length = rest) {v : Except Rejection Refutation × List Step}
    (hv : expected L past rest = v) :
    Ends L.excuse (fun r s' => (.error r, s'.steps.toList) = v)
      (replayFrom coreFirst past.length rest) s fun r s' => (.ok r, s'.steps.toList) = v := by
  induction rest generalizing past A s with
  | nil =>
    simp only [replayFrom, ends_reject]
    rw [← hv, expected, referenceFrom, hf.steps_eq hrest]
  | cons step rest ih =>
    have hs : L.steps[past.length]? = some step := by
      rw [← List.head?_drop, hrest]
      rfl
    have hblame : ∀ s', Stuck L past s s' →
        (Except.error (.conflictNotFound past.length), s'.steps.toList) = v := by
      intro s' hst
      rw [hst.steps, ← hv]
      exact expected_of_ends hf hrest (hst.fate_eq hf hs)
    simp only [replayFrom, ends_bind]
    refine (ends_replayStep hblame hf hs).mono ?_
    intro r s' hr
    cases r with
    | none =>
      obtain ⟨step', A', hf'⟩ := hr
      refine ih hf' ?_ ?_
      · rw [List.length_cons, ← List.drop_drop, hrest]
        rfl
      · rw [← hv, expected_cons hf hf' rfl hs]
    | some result =>
      obtain ⟨rfl, h, hh, ho⟩ := hr
      rw [hs, Option.some_inj] at hh
      subst hh
      rw [ends_pure, ho.steps, ← hv]
      exact expected_of_ends hf hrest (ho.fate_eq hf)

end Forward

section Start

theorem Engine.Forward.reference_eq (hl : Loaded n F f lines s₀)
    (hf : Forward hl.ledger [] A s) :
    reference s₀.arena.literals s₀.origins.toList s₀.steps.toList =
      expected hl.ledger [] hl.ledger.steps := by
  have hno := hf.not_conflicting
  rw [reference, if_neg]
  · rfl
  · rw [Formula.conflicts_iff]
    exact hno

theorem Engine.Loaded.ends_replay_reference (hl : Loaded n F f lines s₀)
    {v : Except Rejection Refutation × List Step}
    (hv : reference s₀.arena.literals s₀.origins.toList s₀.steps.toList = v) :
    Ends F (fun r s' => (.error r, s'.steps.toList) = v) (replay coreFirst) s₀
      fun r s' => (.ok r, s'.steps.toList) = v := by
  simp only [replay, ends_bind]
  refine (ends_saturate hl.coherent hl.anchored (by simp [hl.forced]) (by simp [hl.processed])
    hl.poised).mono ?_
  rintro r s₁ ⟨hco, hr⟩
  cases r with
  | conflict =>
    obtain ⟨-, -, hconf⟩ := hl.conflict hco hr
    have hr : Refuted _ _ s₀ s₁ := hr
    simp only [ends_bind, ends_emit, ends_pure]
    have hconf : Formula.conflicts (s₀.origins.toList.map s₀.arena.literals) = true :=
      Formula.conflicts_iff.mpr hconf
    rw [← hv, reference, if_pos hconf, hr.backtracked.framed.steps]
  | drained =>
    have hf := hl.forward hco hr
    simp only [ends_bind, ends_fixProcessed, ends_look]
    refine ends_replayFrom_expected hf hf.rest.symm ?_
    rw [hf.rest, ← hv, hf.reference_eq hl]
    rfl

/-- As long as the pass goes on, the reference has done the same. -/
theorem Engine.Loaded.reference_of_forth (hl : Loaded n F f lines s₀)
    (h : forth coreFirst s₀ i = some s) :
    ∃ past A, past.length = i ∧ Forward hl.ledger past A s ∧
      reference s₀.arena.literals s₀.origins.toList s₀.steps.toList =
        expected hl.ledger past (hl.ledger.steps.drop i) := by
  induction i generalizing s with
  | zero =>
    obtain ⟨past, A, hlen, hf, -⟩ := hl.forward_of_forth h
    obtain rfl := List.length_eq_zero_iff.mp hlen
    exact ⟨[], A, rfl, hf, hf.reference_eq hl⟩
  | succ i ih =>
    obtain ⟨s', hs', hrun⟩ := Option.bind_eq_some_iff.mp h
    obtain ⟨past, A, rfl, hf, href⟩ := ih hs'
    obtain ⟨step, A', hf'⟩ := hf.replayed hrun
    obtain ⟨-, -, -, ⟨orig, horig, -⟩, -⟩ := hf'.restored.chronicle
    refine ⟨_, A', rfl, hf', ?_⟩
    obtain ⟨hlt, hget⟩ := List.getElem?_eq_some_iff.mp horig
    rw [href, List.drop_eq_getElem_cons hlt]
    exact expected_cons hf hf' rfl (List.getElem?_eq_getElem hlt)

/-- Faults need no excuse where the least word does not occur. -/
theorem Engine.Loaded.faultless {F' : Prop} (hl : Loaded n F f lines s)
    (hmin : ∀ c ∈ f ++ lines.map Derivation.Line.clause, ∀ l ∈ c, l.val ≠ Int32.minValue) :
    Loaded n F' f lines s := by
  have hst := hl.coherent.stored
  have hgiven : ∀ h, s.arena.Has h →
      ∃ c ∈ f ++ lines.map Derivation.Line.clause, s.arena.literals h = c.distinct := by
    intro h hh
    rcases List.mem_append.mp ((hl.has h).mp hh) with ho | ha
    · obtain ⟨c, hc, he⟩ := hl.exists_given ho
      exact ⟨c, List.mem_append_left _ hc, he⟩
    · obtain ⟨i, hi⟩ := List.mem_iff_getElem?.mp (mem_added.mp ha)
      obtain ⟨c, hc, he⟩ := hl.ledger.addition hi
      exact ⟨c, List.mem_append_right _ (List.mem_map_of_mem (List.mem_of_getElem? hc)), he⟩
  refine { hl with coherent := ?_ }
  refine { hl.coherent with stored := ⟨hst.wf, hst.perm, hst.nodup, hst.small, ?_⟩ }
  intro h hh l hlh hm
  obtain ⟨c, hc, he⟩ := hgiven h hh
  rw [he, Clause.mem_distinct] at hlh
  exact (hmin c hc l hlh hm).elim

/-- A pass gives the result and the log of the reference, and after each line that does not end it
the true literals are those that unit propagation finds from scratch in the reference's live
clauses. -/
theorem replay_eq_reference
    (hmin : ∀ c ∈ f ++ d.map Derivation.Line.clause, ∀ l ∈ c, l.val ≠ Int32.minValue)
    (hload : stateAt settings f d (.loaded .ready) = some s) :
    (∃ lines, lines <+: d ∧ Recorded f lines s) ∧
      conclusion (replay settings.coreFirst s) =
        some (reference s.arena.literals s.origins.toList s.steps.toList) ∧
      ∀ i s', stateAt settings f d (.forth i) = some s' → ∀ l, -l ∈ s'.trail.stack ↔
        l ∈ Formula.closure ((aliveAfter s.origins.toList
          ((reference s.arena.literals s.origins.toList s.steps.toList).2.take i)).map
            s.arena.literals) := by
  obtain ⟨lines, hread⟩ := read_of_stateAt hload
  have hl := hread.loaded
  have hl' : Loaded (maxVar f d) False f lines s := hl.faultless fun c hc => hmin c <| by
    rcases List.mem_append.mp hc with hc | hc
    · exact List.mem_append_left _ hc
    · exact List.mem_append_right _ ((hread.head.map _).subset hc)
  refine ⟨⟨lines, hread.head, hl.recorded hl.records hl.coherent.stored⟩,
    conclusion_eq_of_ends (hl'.ends_replay_reference rfl), fun i s' hs' l => ?_⟩
  rw [stateAt_forth hload] at hs'
  obtain ⟨past, A, rfl, hf, href⟩ := hl.reference_of_forth hs'
  have hlog : (expected hl.ledger past (hl.ledger.steps.drop past.length)).2.take past.length =
      carriedOut past := by
    rw [expected, ← length_carriedOut past, List.take_left]
  rw [href, hlog, ← Array.mem_toList_iff]
  exact hf.mem_closure_iff.symm

/-- A deletion is held back, a lemma is left out, and a unit meets the conflict. -/
theorem replay_eq_reference_held : ∃ s,
    stateAt {} [[⟨1⟩], [⟨1⟩, ⟨2⟩], [⟨3⟩, ⟨4⟩], [⟨3⟩, ⟨-4⟩], [⟨-3⟩, ⟨4⟩], [⟨-3⟩, ⟨-4⟩]]
      [.delete [⟨2⟩, ⟨1⟩], .add [⟨1⟩, ⟨4⟩], .add [⟨3⟩], .add []] (.loaded .ready) = some s ∧
    conclusion (replay true s) =
      some (reference s.arena.literals s.origins.toList s.steps.toList) ∧
    (reference s.arena.literals s.origins.toList s.steps.toList).1.toOption = some (.step 2) ∧
    (reference s.arena.literals s.origins.toList s.steps.toList).2.head? = some .ignored := by
  have h : (stateAt {} [[⟨1⟩], [⟨1⟩, ⟨2⟩], [⟨3⟩, ⟨4⟩], [⟨3⟩, ⟨-4⟩], [⟨-3⟩, ⟨4⟩], [⟨-3⟩, ⟨-4⟩]]
      [.delete [⟨2⟩, ⟨1⟩], .add [⟨1⟩, ⟨4⟩], .add [⟨3⟩], .add []] (.loaded .ready)).any (fun s =>
        (reference s.arena.literals s.origins.toList s.steps.toList).1.toOption = some (.step 2) ∧
        (reference s.arena.literals s.origins.toList s.steps.toList).2.head? = some .ignored) =
          true := by
    decide +kernel
  simp only [Option.any_eq_true, decide_eq_true_eq] at h
  obtain ⟨s, hs, hres, hlog⟩ := h
  exact ⟨s, hs, (replay_eq_reference (by decide) hs).2.1, hres, hlog⟩

end Start

end UnsatCore
