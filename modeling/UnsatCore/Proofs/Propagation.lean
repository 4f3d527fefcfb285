import UnsatCore.Proofs.Moments

/-! Unit propagation where a run calls it. It meets a conflict exactly where the closure of the
attached clauses falsifies one of them, and else leaves the closure on the trail. -/
namespace UnsatCore

open Engine Engine.CheckM

variable {settings : Settings} {f g : Formula} {d lines : Derivation} {s s' s₀ s₁ : State}
  {n i last : Nat} {b coreFirst : Bool} {F : Prop} {body : Handle → Clause} {A : Set Handle}
  {c : Handle} {l : Literal} {k given : Clause} {L : Ledger} {past : List Frame} {fr : Frame}
  {R : Rejection → State → Prop} {start : Literal → Prop}

/-- The literals that a trail makes true. -/
def Trail.Holds (t : Trail) (l : Literal) : Prop := -l ∈ t.falsified

/-- The stored clauses that are on the watch list of one of their literals. -/
def Engine.State.attachedClauses (s : State) : Formula :=
  ((s.origins.toList ++ lemmasOf s.steps.toList).filter fun c =>
    (s.arena.literals c).any fun l => (s.watches.watchers l).any fun w => w.clause = c).map
      s.arena.literals

section Closure

/-- Clauses with a single literal that is true from the start derive nothing. -/
theorem Implied.of_units (h : Implied g start l)
    (hg : ∀ k ∈ g, k ∈ f ∨ ∃ m, start m ∧ k = [m]) : Implied f start l := by
  induction h with
  | given h => exact .given h
  | unit hk hl _ ih =>
    rcases hg _ hk with hf | ⟨m, hm, rfl⟩
    · exact .unit hf hl ih
    · exact .given (List.mem_singleton.mp hl ▸ hm)

/-- Neither do they make a conflict: if one of them is false, so is the clause that made it so. -/
theorem Conflicting.of_units (h : Conflicting g start)
    (hg : ∀ k ∈ g, k ∈ f ∨ ∃ m, start m ∧ k = [m]) (hs : ∀ m, start m → ¬ start (-m)) :
    Conflicting f start := by
  obtain ⟨k, hk, hall⟩ := h
  rcases hg k hk with hf | ⟨m, hm, rfl⟩
  · exact ⟨k, hf, fun l hl => (hall l hl).of_units hg⟩
  · cases (hall m List.mem_cons_self).of_units hg with
    | given hn => exact (hs m hm hn).elim
    | @unit k' _ hk' _ hrest =>
      refine ⟨k', hk', fun x hx => ?_⟩
      by_cases he : x = -m
      · rw [he, Literal.neg_neg]
        exact .given hm
      · exact hrest x hx he

end Closure

section Saturation

/-- A state in which unit propagation can be called, with the attached clauses `A`. -/
structure Engine.Primed (L : Ledger) (A : Set Handle) (s : State) : Prop where
  coherent : Coherent L.bound L.excuse L.body A s
  anchored : Anchored L.body A s.trail.entries
  fixed : s.trail.forced ≤ s.trail.processed
  processed : s.trail.processed ≤ s.trail.assigned
  poised : Poised A s
  unmarked : ∀ m, ¬ s.trail.Marked m
  records : L.Records s

/-- What unit propagation from `s` to `s'` comes to. -/
structure Propagates (s s' : State) (r : Saturation) : Prop where
  conflict_iff : r = .conflict ↔ Conflicting s.attachedClauses s.trail.Holds
  closed : r = .drained → ∀ l, s'.trail.Holds l ↔ Implied s.attachedClauses s.trail.Holds l
  grows : r = .drained → s.trail.falsified <+: s'.trail.falsified
  processed : r = .drained → s'.trail.processed = s'.trail.assigned

namespace Engine.Primed

theorem forced (h : Primed L A s) : s.trail.forced ≤ s.trail.assigned :=
  Nat.le_trans h.fixed h.processed

theorem mem_attachedClauses (h : Primed L A s) :
    k ∈ s.attachedClauses ↔ ∃ c ∈ A, s.arena.literals c = k := by
  simp only [State.attachedClauses, List.mem_map, List.mem_filter, List.any_eq_true,
    decide_eq_true_eq]
  constructor
  · rintro ⟨c, ⟨-, l, -, w, hw, rfl⟩, rfl⟩
    exact ⟨w.clause, ((h.coherent.watched.mem_iff l w).mp hw).1, rfl⟩
  · rintro ⟨c, hc, rfl⟩
    obtain ⟨hh, hlen⟩ := h.coherent.attached c hc
    obtain ⟨x, y, rest, hl⟩ := exists_watches hlen
    refine ⟨c, ⟨?_, x, by simp [hl], ⟨c, s.arena.inCore c⟩, ?_, rfl⟩, rfl⟩
    · rw [h.records.lemmasOf_steps, h.records.origins]
      exact (h.records.has c).mp hh
    · exact (h.coherent.watched.mem_iff x _).mpr ⟨hc, rfl, by simp [hl]⟩

/-- Each attached clause is listed, with the literals that it was stored with. -/
theorem same_body (h : Primed L A s) (hc : c ∈ A) :
    s.arena.literals c ∈ s.attachedClauses ∧ (L.body c).Same (s.arena.literals c) :=
  ⟨h.mem_attachedClauses.mpr ⟨c, hc, rfl⟩, fun _ =>
    (h.coherent.stored.mem_iff (h.coherent.attached c hc).1).symm⟩

theorem not_holds_neg (h : Primed L A s) (hl : s.trail.Holds l) : ¬ s.trail.Holds (-l) :=
  fun hn => h.coherent.trail.not_mem_neg hl hn

/-- A conflict that was met is one of the closure. A reason that is not attached is a unit, whose
literal is true already. -/
theorem conflicting (h : Primed L A s) (hr : Refuted L.body A s s') :
    Conflicting s.attachedClauses s.trail.Holds := by
  obtain ⟨C, hC, -, hg⟩ := hr.conflict
  let units : Formula := s.trail.falsified.map fun m => [-m]
  have hlists : Lists L.body C (s.attachedClauses ++ units) := by
    intro c hc
    have hattached : c ∈ A → ∃ k ∈ s.attachedClauses ++ units, (L.body c).Same k := fun hA =>
      ⟨_, List.mem_append_left _ (h.same_body hA).1, (h.same_body hA).2⟩
    rcases hC.known c hc with hA | ⟨e, he, hre⟩
    · exact hattached hA
    by_cases hlen : 2 ≤ (L.body c).length
    · exact hattached (h.anchored e he c hre hlen)
    · have hmem := h.coherent.neg_mem_of_reason he hre
      obtain ⟨m, hm⟩ := List.length_eq_one_iff.mp
        (show (L.body c).length = 1 by have := List.length_pos_of_mem hmem; omega)
      rw [hm, List.mem_singleton] at hmem
      refine ⟨[m], List.mem_append_right _ ?_, hm ▸ Clause.Same.refl _⟩
      exact List.mem_map.mpr ⟨_, Trail.literal_mem_falsified he, by rw [hmem]⟩
  refine (hg _ s.trail.Holds hlists fun e he _ => ?_).of_units (fun k hk => ?_)
    fun m hm => h.not_holds_neg hm
  · rw [Trail.Holds, Literal.neg_neg]
    exact Trail.literal_mem_falsified he
  · rcases List.mem_append.mp hk with hk | hk
    · exact Or.inl hk
    · obtain ⟨m, hm, rfl⟩ := List.mem_map.mp hk
      exact Or.inr ⟨-m, by rwa [Trail.Holds, Literal.neg_neg], rfl⟩

/-- What is new on the trail was derived from attached clauses, one literal after the other. -/
theorem implied (h : Primed L A s) (hg : Grew A s s')
    (hs' : Coherent L.bound L.excuse L.body A s') :
    ∀ e ∈ s'.trail.entries, Implied s.attachedClauses s.trail.Holds (-e.literal) := by
  obtain ⟨new, hent, hnew⟩ := hg.entries
  have hgr := hs'.grounded
  rw [hent] at hgr ⊢
  clear hent
  induction new using List.reverseRecOn with
  | nil =>
    intro e he
    rw [List.append_nil] at he
    refine .given ?_
    rw [Trail.Holds, Literal.neg_neg]
    exact Trail.literal_mem_falsified he
  | append_singleton new e ih =>
    rw [← List.append_assoc] at hgr ⊢
    have ih := ih (fun e he => hnew e (List.mem_append_left _ he)) hgr.append_left
    intro e' he'
    rcases List.mem_append.mp he' with he' | he'
    · exact ih e' he'
    · obtain rfl := List.mem_singleton.mp he'
      obtain ⟨c, hc, hr⟩ := hnew e' (by simp)
      obtain ⟨hhas, tail, hl, htail⟩ := hgr _ e' [] c rfl hr
      obtain ⟨hk, hsame⟩ := h.same_body hc
      have hmem : ∀ m, m ∈ s.arena.literals c ↔ m ∈ -e'.literal :: tail := fun m => by
        rw [← hsame m, ← hs'.stored.mem_iff hhas, hl]
      refine .unit hk ((hmem _).mpr List.mem_cons_self) fun m hm hne => ?_
      have hm' := htail m ((List.mem_cons.mp ((hmem m).mp hm)).resolve_left hne)
      obtain ⟨e'', he'', rfl⟩ := List.mem_map.mp hm'
      exact ih e'' he''

theorem quiet (h : Primed L A s) (hd : Drained A s s')
    (hs' : Coherent L.bound L.excuse L.body A s') :
    ∀ k ∈ s.attachedClauses, Quiet s'.trail.falsified k := by
  intro k hk
  obtain ⟨c, hc, rfl⟩ := h.mem_attachedClauses.mp hk
  exact (hs'.quiet hc (hd.settled c hc)).same (h.same_body hc).2

/-- Unit propagation is the closure of the attached clauses, whichever of them come first. -/
theorem ends_saturate (h : Primed L A s) :
    Ends L.excuse R (saturate coreFirst) s fun r s' => Propagates s s' r := by
  refine (Engine.ends_saturate h.coherent h.anchored h.forced h.processed h.poised).mono ?_
  rintro r s' ⟨hs', hr⟩
  cases r with
  | conflict =>
    exact ⟨iff_of_true rfl (h.conflicting hr), by simp, by simp, by simp⟩
  | drained =>
    have hd : Drained A s s' := hr
    obtain ⟨new, hfal⟩ := hd.grew.falsified
    have hgrows : s.trail.falsified <+: s'.trail.falsified := hfal ▸ List.prefix_append _ _
    have hcons : ∀ l ∈ s'.trail.falsified, -l ∉ s'.trail.falsified := fun _ hl =>
      hs'.trail.not_mem_neg hl
    have hold : ∀ l, s.trail.Holds l → -l ∈ s'.trail.falsified := fun _ hl => hgrows.subset hl
    have hquiet := h.quiet hd hs'
    refine ⟨iff_of_false (by simp) (not_conflicting_of_quiet hcons hquiet hold),
      fun _ l => ⟨fun hl => ?_, fun hl => hl.mem_of_quiet hcons hquiet hold⟩, fun _ => hgrows,
      fun _ => hd.processed⟩
    rw [Trail.Holds, ← Trail.map_literal_entries] at hl
    obtain ⟨e, he, hel⟩ := List.mem_map.mp hl
    rw [← Literal.neg_neg l, ← hel]
    exact h.implied hd.grew hs' e he

end Engine.Primed

end Saturation

section Calls

/-- The first pass at a lemma up to its call of unit propagation: whether a single literal of the
lemma is not false, and was made true. -/
def Engine.assertLemma (c : Handle) : CheckM Bool := do
  let view ← sortUnfalsified c
  if view.satisfied then return false
  else
    attachLong c
    if view.size = 1 then
      let unit ← literalOf c 0
      onTrail (·.assign unit (some c))
      return true
    else return false

/-- The second pass at a lemma up to its call of unit propagation: whether the lemma is to be
checked, and its literals could be made false. -/
def Engine.denyLemma (index : Nat) (c : Handle) : CheckM Bool := do
  withdraw c
  if ← ask (·.arena.isCore c) then
    emit (.checking (← look (·.arena.literals c)) index)
    match ← assume (← bodyOf c 0) with
    | .refuted _ => return false
    | .consistent => return true
  else return false

/-- The first pass calls unit propagation where `assertLemma` leaves it. -/
theorem replayLemma_of_assertLemma (h : assertLemma c s = .ok (true, s₁)) :
    ∃ unit, replayLemma coreFirst i c s = (do
      match ← saturate coreFirst with
      | .conflict =>
        emit (.unitConflict unit i)
        return some (.step i)
      | .drained =>
        fixProcessed
        return none : CheckM (Option Refutation)) s₁ := by
  obtain ⟨view, s₂, hsort, h⟩ := bind_eq_ok_iff.mp h
  simp only [replayLemma]
  rw [bind_of_ok hsort]
  by_cases hsat : view.satisfied = true
  · rw [if_pos hsat] at h
    cases h
  rw [if_neg hsat] at h ⊢
  obtain ⟨⟨⟩, s₃, hattach, h⟩ := bind_eq_ok_iff.mp h
  rw [bind_of_ok hattach]
  by_cases hsize : view.size = 1
  · rw [if_pos hsize] at h
    obtain ⟨unit, s₄, hunit, h⟩ := bind_eq_ok_iff.mp h
    obtain ⟨⟨⟩, s₅, hassign, h⟩ := bind_eq_ok_iff.mp h
    cases h
    refine ⟨unit, ?_⟩
    rw [hsize]
    simp only [replayUnit]
    rw [bind_of_ok hunit]
    exact bind_of_ok hassign
  · rw [if_neg hsize] at h
    cases h

/-- The second pass calls unit propagation where `denyLemma` leaves it. -/
theorem undoLemma_of_denyLemma (h : denyLemma i c s = .ok (true, s₁)) :
    undoLemma coreFirst i given c s = (do
      if (← saturate coreFirst) = .conflict then
        recordJustified i
        count Counters.countChecked
      else reject (.lemmaNotImplied i given) : CheckM Unit) s₁ := by
  obtain ⟨⟨⟩, s₂, hwithdraw, h⟩ := bind_eq_ok_iff.mp h
  obtain ⟨core, s₃, hcore, h⟩ := bind_eq_ok_iff.mp h
  simp only [undoLemma]
  rw [bind_of_ok hwithdraw, bind_of_ok hcore]
  cases core with
  | false => cases h
  | true =>
    obtain ⟨ls, s₄, hlook, h⟩ := bind_eq_ok_iff.mp h
    obtain ⟨⟨⟩, s₅, hemit, h⟩ := bind_eq_ok_iff.mp h
    obtain ⟨body, s₆, hbody, h⟩ := bind_eq_ok_iff.mp h
    obtain ⟨r, s₇, hassume, h⟩ := bind_eq_ok_iff.mp h
    cases r with
    | refuted l => cases h
    | consistent =>
      cases h
      simp only [if_true, check, followsByUnits]
      rw [bind_of_ok hlook, bind_of_ok hemit]
      simp only [bind_assoc]
      rw [bind_of_ok hbody, bind_of_ok hassume]
      simp only [bind_assoc, pure_bind, decide_eq_true_eq]

/-- Where unit propagation is called, but for a lemma whose literals are all false. -/
inductive Call
  /-- Before the first line. -/
  | initial
  /-- In the first pass, after the lemma of a line made its last literal true. -/
  | asserted (line : Nat)
  /-- In the second pass, back from line `last`, where the lemma of a line is assumed to be
  false. -/
  | denied (last line : Nat)

/-- The state at a call, if the run comes to it. -/
def stateAtCall (settings : Settings) (f : Formula) (d : Derivation) : Call → Option State
  | .initial => stateAt settings f d (.loaded .ready)
  | .asserted line => (stateAt settings f d (.forth line)).bind fun s =>
    match s.steps[line]? with
    | some (.add c) => after (assertLemma c) true s
    | _ => none
  | .denied last line =>
    if line ≤ last then (stateAt settings f d (.back last (last - line))).bind fun s =>
      match s.steps[line]? with
      | some (.add c) => after (denyLemma line c) true s
      | _ => none
    else none

/-- The step of a line is a lemma, from which a state is reached. -/
theorem exists_add {step : Option Step} {m : Handle → CheckM Bool}
    (h : (match step with
      | some (.add c) => after (m c) true s
      | _ => none) = some s') : ∃ c, step = some (.add c) ∧ m c s = .ok (true, s') := by
  split at h
  · exact ⟨_, rfl, after_eq_some_iff.mp h⟩
  · cases h

theorem Engine.Loaded.primed (hl : Loaded n F f lines s) :
    Primed hl.ledger (longOf s.arena s.origins.toList) s :=
  ⟨hl.coherent, hl.anchored, by simp [hl.forced], by simp [hl.processed], hl.poised,
    hl.unmarked, hl.records⟩

/-- The first pass at a lemma before anything is made true: its literals are sorted, and if it is
long it is attached. -/
theorem Engine.Forward.placed {view : View} {s₂ : State} (hf : Forward L past A s)
    (hs : L.steps[past.length]? = some (.add c)) (hsort : sortUnfalsified c s = .ok (view, s₁))
    (hattach : attachLong c s₁ = .ok ((), s₂)) : Forward L past A s₁ ∧
      (∃ kept dropped, SortedLemma L c s₁ kept dropped view) ∧
      Coherent L.bound L.excuse L.body (grow L.body A c) s₂ ∧
      s₂ = { s₁ with watches := s₂.watches } := by
  obtain ⟨hf₁, -, hkept⟩ := (ends_sortLemma (R := fun _ _ => True) hf hs).of_ok hsort
  exact ⟨hf₁, hkept, (ends_attachLong (R := fun _ _ => True) hf₁.restored.coherent
    (hf₁.restored.has_lemma hs) fun hA => hf₁.not_involved hs (Or.inl hA)).of_ok hattach⟩

/-- The lemma makes its one literal that is not false true. -/
theorem Engine.Forward.assigned (hf : Forward L past A s)
    (hs : L.steps[past.length]? = some (.add c)) (h : assertLemma c s = .ok (true, s')) :
    ∃ u s₁, Forward L past A s₁ ∧ Assigned L A c u s₁ s' := by
  obtain ⟨view, s₁, hsort, h⟩ := bind_eq_ok_iff.mp h
  by_cases hsat : view.satisfied = true
  · rw [if_pos hsat] at h
    cases h
  rw [if_neg hsat] at h
  obtain ⟨⟨⟩, s₂, hattach, h⟩ := bind_eq_ok_iff.mp h
  obtain ⟨hf₁, ⟨kept, dropped, hkept⟩, hco, heq⟩ := hf.placed hs hsort hattach
  have hh := hf₁.restored.has_lemma hs
  by_cases hsize : view.size = 1
  · rw [if_pos hsize] at h
    obtain ⟨unit, s₃, hunit, h⟩ := bind_eq_ok_iff.mp h
    obtain ⟨⟨⟩, s₄, hassign, h⟩ := bind_eq_ok_iff.mp h
    cases h
    obtain ⟨u, rfl⟩ := List.length_eq_one_iff.mp (hkept.size.symm.trans hsize)
    have hfirst : s₂.arena.literal c 0 = .ok u := by
      rw [heq]
      exact hh.literal (by simp [hkept.literals])
    rw [literalOf, ask_of_ok hfirst] at hunit
    cases hunit
    exact ⟨unit, s₁, hf₁,
      (ends_assign_unit (R := fun _ _ => True) hf₁ hs hkept hsat hco heq).of_ok hassign⟩
  · rw [if_neg hsize] at h
    cases h

theorem Engine.Forward.primed (hf : Forward L past A s)
    (hs : L.steps[past.length]? = some (.add c)) (h : assertLemma c s = .ok (true, s')) :
    Primed L (grow L.body A c) s' := by
  obtain ⟨u, s₁, hf₁, ha⟩ := hf.assigned hs h
  have hnext := ha.assigned_eq
  refine ⟨ha.coherent, ha.anchored hf₁, ?_, ?_, ha.poised, ha.unmarked,
    hf₁.restored.records.congr ha.framed.origins ha.framed.steps fun _ => by rw [ha.arena]⟩
  · rw [ha.forced, ha.processed, hf₁.restored.forced, hf₁.restored.processed]
  · rw [ha.processed, hf₁.restored.processed]
    omega

theorem Engine.Restored.primed (hr : Restored L (fr :: past) A s) (hstep : fr.step = .add c)
    (h : denyLemma past.length c s = .ok (true, s')) : Primed L fr.attached s' := by
  obtain ⟨⟨⟩, s₁, hwithdraw, h⟩ := bind_eq_ok_iff.mp h
  obtain ⟨hr₁, hent, harena, -⟩ :=
    (ends_withdraw (R := fun _ _ => True) hr hstep).of_ok hwithdraw
  obtain ⟨core, s₂, hcore, h⟩ := bind_eq_ok_iff.mp h
  have hh := hr₁.has_lemma (hr.chronicle.addition hstep)
  rw [ask_of_ok hh.isCore] at hcore
  cases hcore
  by_cases hc : s₁.arena.inCore c = true
  swap
  · rw [if_neg hc] at h
    cases h
  rw [if_pos hc] at h
  obtain ⟨ls, s₂, ⟨⟩, h⟩ := bind_eq_ok_iff.mp h
  obtain ⟨⟨⟩, s₃, ⟨⟩, h⟩ := bind_eq_ok_iff.mp h
  obtain ⟨body, s₄, hbody, h⟩ := bind_eq_ok_iff.mp h
  rw [bodyOf, ask_of_ok (hh.body (Nat.zero_le _))] at hbody
  cases hbody
  obtain ⟨r, s₅, hassume, h⟩ := bind_eq_ok_iff.mp h
  obtain ⟨hcar, hanch, -, -, -⟩ := hr.chronicle
  obtain ⟨new, hA, -, -, hproper, -⟩ := (hstep ▸ hcar).of_add
  have hmem : ∀ l ∈ s₁.arena.literals c, l ∈ L.body c := fun l hl =>
    (hr₁.coherent.stored.mem_iff hh).mp hl
  have hr₂ := hr₁.noted s₁.justified s₁.counters
    (s₁.log.push (.checking (s₁.arena.literals c) past.length))
  obtain ⟨hco, has, hmk, -⟩ := (ends_assume (k := L.body c) (R := fun _ _ => True) hr₂.coherent
    (fun l hl => hproper l (hmem l hl)) (fun l hl => hr₁.coherent.stored.small_literal hh hl)
    hmem).of_ok hassume
  have hle := has.assigned_le
  cases r with
  | refuted l => cases h
  | consistent =>
    cases h
    have hset : ∀ d ∈ fr.attached, Settled s₁.trail.falsified (s₁.arena.literals d) := by
      intro d hd
      rw [← Trail.map_literal_entries, hent, harena]
      exact hr.boundaries fr List.mem_cons_self d (hA ▸ subset_grow hd) hd
    refine ⟨hco, has.anchored (hent ▸ hanch), ?_, ?_, has.poised hr₂.processed hset,
      fun m hm => hr₂.unmarked m (hmk m hm),
      hr₂.records.congr has.framed.origins has.framed.steps fun _ => by rw [has.arena]⟩
    · rw [has.forced, has.processed, hr₂.forced, hr₂.processed]
    · rw [has.processed, hr₂.processed]
      exact hle

theorem primed_of_stateAtCall {call : Call} (h : stateAtCall settings f d call = some s) :
    ∃ lines s₀, ∃ hread : ReadTo (maxVar f d) True f d lines s₀, ∃ A,
      Primed hread.loaded.ledger A s := by
  cases call with
  | initial =>
    obtain ⟨lines, hread⟩ := read_of_stateAt h
    exact ⟨lines, s, hread, _, hread.loaded.primed⟩
  | asserted line =>
    obtain ⟨sf, hsf, h⟩ := Option.bind_eq_some_iff.mp h
    obtain ⟨s₀, hload, hsf⟩ := Option.bind_eq_some_iff.mp hsf
    obtain ⟨lines, hread⟩ := read_of_load hload
    obtain ⟨past, A, rfl, hf, -⟩ := hread.loaded.forward_of_forth hsf
    obtain ⟨c, hs, hrun⟩ := exists_add h
    rw [hf.getElem?_steps] at hs
    exact ⟨lines, s₀, hread, _, hf.primed hs hrun⟩
  | denied last line =>
    simp only [stateAtCall, Option.ite_none_right_eq_some] at h
    obtain ⟨hle, h⟩ := h
    obtain ⟨sb, hsb, h⟩ := Option.bind_eq_some_iff.mp h
    obtain ⟨s₀, hload, hsb⟩ := Option.bind_eq_some_iff.mp hsb
    obtain ⟨lines, hread⟩ := read_of_load hload
    obtain ⟨past, A, hlen, hr⟩ :=
      hread.loaded.returned_of_back (gives_of_isPrefix hread.loaded hread.head) hsb
    obtain ⟨fr, past, rfl⟩ := List.exists_cons_of_length_pos (l := past) (by omega)
    obtain rfl : past.length = line := by rw [List.length_cons] at hlen; omega
    obtain ⟨c, hs, hrun⟩ := exists_add h
    rw [hr.restored.getElem?_steps, Option.some_inj] at hs
    exact ⟨lines, s₀, hread, _, hr.restored.primed hs hrun⟩

end Calls

section Excuse

/-- The literals of stored clauses are literals of the input. -/
theorem Engine.Loaded.exists_mem (hl : Loaded n F f lines s) (hc : s.arena.Has c)
    (hm : l ∈ s.arena.literals c) : ∃ k ∈ f ++ lines.map Derivation.Line.clause, l ∈ k := by
  rcases List.mem_append.mp ((hl.has c).mp hc) with ho | ha
  · obtain ⟨k, hk, he⟩ := hl.exists_given ho
    rw [he] at hm
    exact ⟨k, List.mem_append_left _ hk, Clause.mem_distinct.mp hm⟩
  · obtain ⟨j, hj⟩ := List.mem_iff_getElem?.mp (mem_added.mp ha)
    obtain ⟨k, hk, he⟩ := hl.ledger.addition hj
    rw [show s.arena.literals c = k.distinct from he] at hm
    refine ⟨k, List.mem_append_right _ ?_, Clause.mem_distinct.mp hm⟩
    exact List.mem_map.mpr ⟨_, List.mem_of_getElem? hk, rfl⟩

end Excuse

end UnsatCore
