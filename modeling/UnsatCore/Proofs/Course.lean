import UnsatCore.Proofs.Verdict

/-! The states of a run between its steps. The first pass goes forth line by line and the second one
comes back by the same lines, so that each state on the way back has a state on the way forth. -/
namespace UnsatCore.Engine

open CheckM

variable {α β : Type} {m : CheckM α} {n i j k last : Nat} {F : Prop} {f : Formula}
  {d lines : Derivation} {s s' s₀ s₁ s₂ sf : State} {L : Ledger} {past : List Frame}
  {A : Set Handle} {coreFirst : Bool} {given : Array Clause} {settings : Settings}

/-- The state that a computation leaves, if it gives the value `wanted`. -/
def after [DecidableEq α] (m : CheckM α) (wanted : α) (s : State) : Option State :=
  match m s with
  | .ok (a, s') => if a = wanted then some s' else none
  | .error _ => none

theorem after_eq_some_iff [DecidableEq α] {a : α} :
    after m a s = some s' ↔ m s = .ok (a, s') := by
  unfold after
  split <;> simp_all

/-- The state that the line of number `i` leaves, if it ends in `wanted`. -/
def carry (coreFirst : Bool) (i : Nat) (wanted : Option Refutation) (s : State) : Option State :=
  (s.steps[i]?).bind fun step => after (replayStep coreFirst i step) wanted s

theorem carry_eq_some_iff {r : Option Refutation} : carry coreFirst i r s = some s' ↔
    ∃ step, s.steps[i]? = some step ∧ replayStep coreFirst i step s = .ok (r, s') := by
  simp only [carry, Option.bind_eq_some_iff, after_eq_some_iff]

/-- The state after the first `i` lines of the first pass over what was read in `s`, if the pass
goes on there. -/
def forth (coreFirst : Bool) (s : State) : (i : Nat) → Option State
  | 0 => (after (saturate coreFirst) .drained s).bind (after fixProcessed ())
  | i + 1 => (forth coreFirst s i).bind (carry coreFirst i none)

/-- The state in which `j` lines are undone, if line `last` met the conflict. -/
def back (coreFirst : Bool) (given : Array Clause) (s : State) (last : Nat) :
    (j : Nat) → Option State
  | 0 => ((forth coreFirst s last).bind (carry coreFirst last (some (.step last)))).bind
      (after (do emit (.justifying last); fixProcessed) ())
  | j + 1 =>
    if j ≤ last then
      (back coreFirst given s last j).bind (after (undoLine coreFirst given (last - j)) ())
    else none

/-- The first pass went through each frame. -/
def Recalls (coreFirst : Bool) (s : State) (L : Ledger) : List Frame → Prop
  | [] => True
  | fr :: past => (∃ sf, forth coreFirst s past.length = some sf ∧ Forward L past fr.attached sf ∧
      sf.trail.entries = fr.entries) ∧ Recalls coreFirst s L past

theorem Forward.replayed {r : Option Refutation} (hf : Forward L past A s)
    (hrun : carry coreFirst past.length r s = some s') : Replayed L past A s s' r := by
  obtain ⟨step, hstep, hrun⟩ := carry_eq_some_iff.mp hrun
  rw [hf.getElem?_steps] at hstep
  exact (ends_replayStep (R := fun _ _ => True) (fun _ _ => trivial) hf hstep).of_ok hrun

theorem Loaded.saturated (hl : Loaded n F f lines s₀) {r : Saturation}
    (hrun : saturate coreFirst s₀ = .ok (r, s)) :
    Coherent n F s₀.arena.literals (longOf s₀.arena s₀.origins.toList) s ∧
      Saturated s₀.arena.literals (longOf s₀.arena s₀.origins.toList) s₀ s r :=
  (ends_saturate (R := fun _ _ => True) hl.coherent hl.anchored (by simp [hl.forced])
    (by simp [hl.processed]) hl.poised).of_ok hrun

theorem forth_zero_eq_some_iff : forth coreFirst s₀ 0 = some s ↔
    ∃ s₁, saturate coreFirst s₀ = .ok (.drained, s₁) ∧
      s = { s₁ with trail := { s₁.trail with forced := s₁.trail.processed } } := by
  simp only [forth, Option.bind_eq_some_iff, after_eq_some_iff, fixProcessed, onTrail,
    Except.ok.injEq, Prod.mk.injEq, true_and, eq_comm (a := s)]

/-- Before each line of the first pass all is propagated. -/
theorem Loaded.forward_of_forth (hl : Loaded n F f lines s₀)
    (h : forth coreFirst s₀ i = some s) :
    ∃ past A, past.length = i ∧ Forward hl.ledger past A s ∧
      Recalls coreFirst s₀ hl.ledger past := by
  induction i generalizing s with
  | zero =>
    obtain ⟨s₁, hsat, rfl⟩ := forth_zero_eq_some_iff.mp h
    obtain ⟨hco, hd⟩ := hl.saturated hsat
    exact ⟨[], _, rfl, hl.forward hco hd, trivial⟩
  | succ i ih =>
    obtain ⟨s', hs', hrun⟩ := Option.bind_eq_some_iff.mp h
    obtain ⟨past, A, rfl, hf, hrec⟩ := ih hs'
    obtain ⟨step, A', hf'⟩ := hf.replayed hrun
    exact ⟨_, _, rfl, hf', ⟨s', hs', hf, rfl⟩, hrec⟩

section Return

/-- The second pass is back after the lines of `past`. -/
structure Returned (coreFirst : Bool) (s₀ : State) (L : Ledger) (past : List Frame)
    (A : Set Handle) (s : State) : Prop where
  restored : Restored L past A s
  audited : Audited L past s
  recalls : Recalls coreFirst s₀ L past

/-- The conflict at line `last` leaves the trail as it was before the line. -/
theorem Loaded.overturned_of_back (hl : Loaded n F f lines s₀)
    (h : back coreFirst given s₀ last 0 = some s) :
    ∃ past A h sf, past.length = last ∧ forth coreFirst s₀ last = some sf ∧
      Forward hl.ledger past A sf ∧ Recalls coreFirst s₀ hl.ledger past ∧
      hl.ledger.steps[last]? = some (.add h) ∧ Overturned hl.ledger past A h sf s := by
  obtain ⟨s₁, h₁, hrun⟩ := Option.bind_eq_some_iff.mp h
  obtain ⟨sf, hsf, hcarry⟩ := Option.bind_eq_some_iff.mp h₁
  obtain ⟨past, A, rfl, hf, hrec⟩ := hl.forward_of_forth hsf
  obtain ⟨-, k, hk, ho⟩ := hf.replayed hcarry
  have hfix : { s₁.trail with forced := s₁.trail.processed } = s₁.trail := by
    rw [ho.restored.processed, ← ho.restored.forced]
  have hs : (do emit (.justifying past.length); fixProcessed) s₁ =
      .ok ((), { s₁ with log := s₁.log.push (.justifying past.length) }) := by
    rw [← hfix]
    rfl
  rw [after_eq_some_iff, hs] at hrun
  cases hrun
  exact ⟨past, A, k, sf, rfl, hsf, hf, hrec, hk, ho.noted _⟩

/-- The clauses that the second pass blames are those that were given. -/
def Gives (L : Ledger) (given : Array Clause) : Prop :=
  ∀ i c, L.lines[i]? = some (.add c) → c = given.getD i []

theorem gives_of_isPrefix (hl : Loaded n F f lines s₀) (hp : lines <+: d) :
    Gives hl.ledger (d.map Derivation.Line.clause).toArray := by
  intro i c hi
  have hd := Derivation.getElem?_of_isPrefix hp hi
  simp [hd, Derivation.Line.clause]

/-- A line is undone to where it was carried out. -/
theorem Returned.undo (hr : Returned coreFirst s₀ L past A s) (hg : Gives L given)
    (hlen : past.length = k + 1) (hrun : undoLine coreFirst given k s = .ok ((), s')) :
    ∃ past' A' sf, past'.length = k ∧ forth coreFirst s₀ k = some sf ∧ Forward L past' A' sf ∧
      Undone L past' A' sf.trail.entries s' ∧ Recalls coreFirst s₀ L past' := by
  obtain ⟨fr, past', rfl⟩ := List.exists_cons_of_length_eq_add_one hlen
  obtain rfl : past'.length = k := Nat.succ.inj hlen
  obtain ⟨⟨sf, hsf, hf, he⟩, hrec⟩ := hr.recalls
  refine ⟨past', fr.attached, sf, rfl, hsf, hf, ?_, hrec⟩
  rw [he]
  exact (ends_undoLine L.blames_excused hr.restored hr.audited hg).of_ok hrun

theorem Loaded.returned_of_back (hl : Loaded n F f lines s₀) (hg : Gives hl.ledger given)
    (h : back coreFirst given s₀ last j = some s) :
    ∃ past A, past.length + j = last + 1 ∧ Returned coreFirst s₀ hl.ledger past A s := by
  induction j generalizing s with
  | zero =>
    obtain ⟨past, A, k, sf, rfl, hsf, hf, hrec, -, ho⟩ := hl.overturned_of_back h
    exact ⟨_, _, rfl, ho.restored, ho.audited, ⟨sf, hsf, hf, rfl⟩, hrec⟩
  | succ j ih =>
    simp only [back, Option.ite_none_right_eq_some, Option.bind_eq_some_iff,
      after_eq_some_iff] at h
    obtain ⟨hj, s', hs', hrun⟩ := h
    obtain ⟨past, A, hlen, hr⟩ := ih hs'
    obtain ⟨past', A', sf, hlen', -, -, hu, hrec⟩ := hr.undo hg (by omega) hrun
    exact ⟨past', A', by omega, hu.restored, hu.audited, hrec⟩

/-- After a line is undone, the clauses and the trail are those of the first pass before it. -/
theorem Loaded.undone_of_back (hl : Loaded n F f lines s₀) (hg : Gives hl.ledger given)
    (h : back coreFirst given s₀ last (j + 1) = some s) :
    ∃ past A sf, past.length + j = last ∧ forth coreFirst s₀ past.length = some sf ∧
      Forward hl.ledger past A sf ∧ Undone hl.ledger past A sf.trail.entries s := by
  simp only [back, Option.ite_none_right_eq_some, Option.bind_eq_some_iff, after_eq_some_iff] at h
  obtain ⟨hj, s', hs', hrun⟩ := h
  obtain ⟨past, A, hlen, hr⟩ := hl.returned_of_back hg hs'
  obtain ⟨past', A', sf, hlen', hsf, hf, hu, -⟩ := hr.undo hg (by omega) hrun
  exact ⟨past', A', sf, by omega, hlen' ▸ hsf, hf, hu⟩

end Return

section Passes

/-- A pass over the lines goes through the states of `forth` up to the line with the conflict. -/
theorem Loaded.forth_of_replayFrom (hl : Loaded n F f lines s₀) {rest : List Step}
    {r : Refutation} (hf : Forward hl.ledger past A s)
    (hs : forth coreFirst s₀ past.length = some s)
    (hrest : hl.ledger.steps.drop past.length = rest)
    (h : replayFrom coreFirst past.length rest s = .ok (r, s₁)) :
    ∃ i sf, r = .step i ∧ forth coreFirst s₀ i = some sf ∧
      carry coreFirst i (some (.step i)) sf = some s₁ := by
  induction rest generalizing past A s with
  | nil => cases h
  | cons step rest ih =>
    have hstep : s.steps[past.length]? = some step := by
      rw [hf.getElem?_steps, ← List.head?_drop, hrest]
      rfl
    obtain ⟨r', s', hrun, hnext⟩ := bind_eq_ok_iff.mp h
    have hcarry := carry_eq_some_iff.mpr ⟨step, hstep, hrun⟩
    cases r' with
    | none =>
      obtain ⟨step', A', hf'⟩ := hf.replayed hcarry
      refine ih hf' ?_ ?_ hnext
      · rw [List.length_cons, forth, hs]
        exact hcarry
      · rw [List.length_cons, ← List.drop_drop, hrest]
        rfl
    | some result =>
      obtain ⟨rfl, -⟩ := hf.replayed hcarry
      cases hnext
      exact ⟨_, s, rfl, hs, hcarry⟩

/-- How the first pass met its conflict: before the first line, or through the states of `forth`. -/
theorem Loaded.replay_cases (hl : Loaded n F f lines s₀) {r : Refutation}
    (h : replay coreFirst s₀ = .ok (r, s₁)) :
    (r = .formula ∧ ∃ s, saturate coreFirst s₀ = .ok (.conflict, s) ∧
      s₁ = { s with log := s.log.push .formulaRefuted }) ∨
    ∃ i sf, r = .step i ∧ forth coreFirst s₀ i = some sf ∧
      carry coreFirst i (some (.step i)) sf = some s₁ := by
  obtain ⟨result, s, hsat, h⟩ := bind_eq_ok_iff.mp h
  cases result with
  | conflict =>
    cases h
    exact Or.inl ⟨rfl, s, hsat, rfl⟩
  | drained =>
    have hzero := forth_zero_eq_some_iff.mpr ⟨s, hsat, rfl⟩
    obtain ⟨hco, hd⟩ := hl.saturated hsat
    have hf := hl.forward hco hd
    obtain ⟨⟨⟩, s', hfix, h⟩ := bind_eq_ok_iff.mp h
    cases hfix
    obtain ⟨steps, s', hlook, h⟩ := bind_eq_ok_iff.mp h
    cases hlook
    exact Or.inr (hl.forth_of_replayFrom hf hzero hf.rest.symm h)

theorem Loaded.forth_of_replay (hl : Loaded n F f lines s₀)
    (h : replay coreFirst s₀ = .ok (.step last, s₁)) :
    ∃ sf, forth coreFirst s₀ last = some sf ∧
      carry coreFirst last (some (.step last)) sf = some s₁ := by
  rcases hl.replay_cases h with ⟨hr, -⟩ | ⟨i, sf, hr, hsf, hcarry⟩
  · cases hr
  · cases hr
    exact ⟨sf, hsf, hcarry⟩

theorem back_of_undoFrom (hk : k ≤ last + 1)
    (hs : back coreFirst given s₀ last (last + 1 - k) = some s)
    (h : undoFrom coreFirst given k s = .ok ((), s₂)) :
    back coreFirst given s₀ last (last + 1) = some s₂ := by
  induction k generalizing s with
  | zero =>
    cases h
    exact hs
  | succ k ih =>
    obtain ⟨⟨⟩, s', hrun, h⟩ := bind_eq_ok_iff.mp h
    refine ih (by omega) ?_ h
    have hj : last + 1 - k = last + 1 - (k + 1) + 1 := by omega
    rw [hj, back, if_pos (by omega), hs]
    refine after_eq_some_iff.mpr ?_
    rw [show last - (last + 1 - (k + 1)) = k by omega]
    exact hrun

theorem back_zero (given : Array Clause) (hsf : forth coreFirst s₀ last = some sf)
    (hcarry : carry coreFirst last (some (.step last)) sf = some s₁) :
    back coreFirst given s₀ last 0 = some { s₁ with
      log := s₁.log.push (.justifying last)
      trail := { s₁.trail with forced := s₁.trail.processed } } := by
  rw [back, hsf, Option.bind_some, hcarry]
  rfl

/-- The second pass goes through the states of `back`. -/
theorem back_of_justify (hsf : forth coreFirst s₀ last = some sf)
    (hcarry : carry coreFirst last (some (.step last)) sf = some s₁)
    (h : justify coreFirst given last s₁ = .ok ((), s₂)) :
    back coreFirst given s₀ last (last + 1) = some s₂ := by
  refine back_of_undoFrom (Nat.le_refl _) ?_ h
  rw [Nat.sub_self]
  exact back_zero given hsf hcarry

end Passes

end UnsatCore.Engine
