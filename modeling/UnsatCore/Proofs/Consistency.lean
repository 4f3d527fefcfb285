import UnsatCore.Proofs.Explanation
import UnsatCore.Proofs.Framing

/-! The trail at the points of a run. Its tables agree with its stack, and each reason has the
literal that it forced in front and otherwise only literals from further down the stack, however
clauses have been rearranged since. -/
namespace UnsatCore

open Engine Engine.CheckM

variable {settings : Settings} {f : Formula} {d : Derivation} {s s' : State} {n : Nat} {F : Prop}
  {body : Handle → Clause} {A : Set Handle} {t u : Trail} {l : Literal} {c : Handle}
  {L : Ledger} {past : List Frame}

/-- The trail of a state agrees with itself and with the clauses that are its reasons. Outside of an
explanation nothing is marked. -/
structure Engine.State.Consistent (n : Nat) (s : State) : Prop where
  intact : s.trail.Intact n
  nodup_var : (s.trail.falsified.map Literal.var).Nodup
  forced_le : s.trail.forced ≤ s.trail.processed
  processed_le : s.trail.processed ≤ s.trail.assigned
  forces : ∀ (i : Nat) (l : Literal) (c : Handle), s.trail.falsified[i]? = some l →
    s.trail.reasonOf l.var = .ok (some c) → s.arena.literal c 0 = .ok (-l) ∧
      ∃ rest, s.arena.literals c = -l :: rest ∧ ∀ m ∈ rest, ∃ j < i, s.trail.falsified[j]? = some m
  unmarked : ∀ l, s.trail.isMarked l ≠ .ok true

/-- The points of a run at which the trail is looked at. -/
inductive Point (settings : Settings) (f : Formula) (d : Derivation) (s : State) : Prop
  /-- Between two steps of the passes. -/
  | between {m : Moment} (h : stateAt settings f d m = some s)
  /-- After the line that met the conflict. -/
  | met {last : Nat} {sf : State} (hsf : stateAt settings f d (.forth last) = some sf)
      (h : carry settings.coreFirst last (some (.step last)) sf = some s)
  /-- Before unit propagation. -/
  | called (h : CalledAt settings f d s)
  /-- Where unit propagation has met a conflict, which is to be explained. -/
  | stopped {s₀ : State} {c : Handle} (h : CalledAt settings f d s₀)
      (hstop : (Search.saturate settings.coreFirst).run s₀ = .ok (.error c, s))

section Margins

/-- What assignments leave as it is. -/
def Trail.margins (t : Trail) : Nat × Nat × (Literal → Prop) := (t.processed, t.forced, t.Marked)

theorem Trail.margins_assign {r : Option Handle} (h : t.assign l r = .ok u) :
    u.margins = t.margins := by
  have hmarked : u.Marked = t.Marked := funext fun m => propext (marked_assign h m)
  obtain ⟨-, -, status, reason, -, -, rfl⟩ := assign_eq_ok h
  exact congrArg (fun marked => (t.processed, t.forced, marked)) hmarked

theorem Engine.keeps_margins_assign (l : Literal) (r : Option Handle) :
    Keeps (fun s => s.trail.margins) (onTrail (·.assign l r)) :=
  .onTrail_of_ok fun _ _ => Trail.margins_assign

theorem Engine.beside_margins : Beside fun s => s.trail.margins where
  arena _ _ := rfl
  watches _ _ := rfl
  log _ _ := rfl
  derive l r := (keeps_margins_assign l r).bind fun _ => .count _

/-- A formula that is found contradictory has only been assigned its units. -/
theorem margins_of_trivial (h : stateAt settings f d (.loaded .trivial) = some s) :
    s.trail.margins = (0, 0, fun _ => False) := by
  obtain ⟨⟨⟩, s₁, hemit, h⟩ := bind_eq_ok_iff.mp (after_eq_some_iff.mp h)
  obtain ⟨result, s₂, hformula, h⟩ := bind_eq_ok_iff.mp h
  have hkeeps : Keeps (fun s => s.trail.margins) (readFormula 0 f) :=
    .readFormula 0 f (fun _ _ => rfl) (fun _ _ _ => rfl) (fun _ _ => rfl) keeps_margins_assign
  cases result with
  | trivial =>
    cases h
    cases hemit
    refine (hkeeps hformula).trans ?_
    exact congrArg (fun marked => (0, 0, marked))
      (funext fun l => propext (iff_of_false (Trail.not_marked_blank _ l) id))
  | ready =>
    obtain ⟨⟨⟩, s₃, -, h⟩ := bind_eq_ok_iff.mp h
    cases h

end Margins

section Points

theorem Engine.Coherent.consistent (h : Coherent n F body A s)
    (hf : s.trail.forced ≤ s.trail.processed) (hp : s.trail.processed ≤ s.trail.assigned)
    (hum : ∀ m, ¬ s.trail.Marked m) : s.Consistent n where
  intact := h.trail.intact
  nodup_var := h.trail.nodup
  forced_le := hf
  processed_le := hp
  unmarked l hm := hum l (Trail.marked_of_isMarked hm)
  forces i l c hl hr := by
    have hr : s.trail.reasonAt l.var = some c := by
      rw [h.trail.reasonOf (h.trail.small l (List.mem_of_getElem? hl))] at hr
      exact Except.ok.inj hr
    have hentry : s.trail.entries[i]? = some ⟨l, some c⟩ := by
      rw [Trail.entries, List.getElem?_map, hl, Option.map_some, hr]
    obtain ⟨hhas, rest, hlits, hrest⟩ :=
      h.grounded _ _ _ c (eq_take_append_cons_drop hentry) rfl
    refine ⟨hhas.literal (by simp [hlits]), rest, hlits, fun m hm => ?_⟩
    have hlow := hrest m hm
    rw [← Trail.take_falsified] at hlow
    obtain ⟨j, hj, rfl⟩ := List.mem_take_iff_getElem.mp hlow
    exact ⟨j, by omega, List.getElem?_eq_getElem (by omega)⟩

theorem Engine.Restored.bounds (hr : Restored L past A s) :
    s.trail.forced ≤ s.trail.processed ∧ s.trail.processed ≤ s.trail.assigned ∧
      ∀ m, ¬ s.trail.Marked m :=
  ⟨by rw [hr.forced, hr.processed], Nat.le_of_eq hr.processed, hr.unmarked⟩

theorem Engine.Restored.consistent (hr : Restored L past A s) : s.Consistent L.bound :=
  hr.coherent.consistent hr.bounds.1 hr.bounds.2.1 hr.bounds.2.2

/-- Between two steps a state is coherent, its bounds are in order and nothing is marked. -/
theorem coherent_of_stateAt {m : Moment} (h : stateAt settings f d m = some s) :
    ∃ F body A, Coherent (maxVar f d) F body A s ∧ s.trail.forced ≤ s.trail.processed ∧
      s.trail.processed ≤ s.trail.assigned ∧ ∀ m, ¬ s.trail.Marked m := by
  cases m with
  | loaded result =>
    cases result with
    | trivial =>
      obtain ⟨-, read, -, hs⟩ := read_of_stateAt h
      obtain ⟨hp, hrest⟩ := Prod.mk.inj (margins_of_trivial h)
      obtain ⟨hf, hm⟩ := Prod.mk.inj hrest
      refine ⟨_, _, _, hs.coherent, by rw [hf, hp], by rw [hp]; exact Nat.zero_le _, fun m => ?_⟩
      rw [hm]
      exact id
    | ready =>
      obtain ⟨lines, hread⟩ := read_of_stateAt h
      have hl := hread.loaded
      exact ⟨_, _, _, hl.coherent, by simp [hl.forced], by simp [hl.processed], hl.unmarked⟩
  | contradicted =>
    obtain ⟨s₀, hload, hsat⟩ := Option.bind_eq_some_iff.mp h
    obtain ⟨lines, hread⟩ := read_of_load hload
    obtain ⟨hco, hr⟩ := hread.loaded.saturated (after_eq_some_iff.mp hsat)
    have hrestored := (hread.loaded.conflict hco hr).1
    exact ⟨_, _, _, hrestored.coherent, hrestored.bounds⟩
  | forth count =>
    obtain ⟨s₀, hload, hs⟩ := Option.bind_eq_some_iff.mp h
    obtain ⟨lines, hread⟩ := read_of_load hload
    obtain ⟨past, A, rfl, hf, -⟩ := hread.loaded.forward_of_forth hs
    exact ⟨_, _, _, hf.restored.coherent, hf.restored.bounds⟩
  | back last undone =>
    obtain ⟨s₀, hload, hs⟩ := Option.bind_eq_some_iff.mp h
    obtain ⟨lines, hread⟩ := read_of_load hload
    have hg := gives_of_isPrefix hread.loaded hread.head
    obtain ⟨past, A, -, hr⟩ := hread.loaded.returned_of_back hg hs
    exact ⟨_, _, _, hr.restored.coherent, hr.restored.bounds⟩

theorem consistent_of_stateAt {m : Moment} (h : stateAt settings f d m = some s) :
    s.Consistent (maxVar f d) := by
  obtain ⟨F, body, A, hco, hf, hp, hum⟩ := coherent_of_stateAt h
  exact hco.consistent hf hp hum

theorem consistent_of_carry {last : Nat} {sf : State}
    (hsf : stateAt settings f d (.forth last) = some sf)
    (h : carry settings.coreFirst last (some (.step last)) sf = some s) :
    s.Consistent (maxVar f d) := by
  obtain ⟨s₀, hload, hsf⟩ := Option.bind_eq_some_iff.mp hsf
  obtain ⟨lines, hread⟩ := read_of_load hload
  obtain ⟨past, A, rfl, hf, -⟩ := hread.loaded.forward_of_forth hsf
  obtain ⟨-, k, -, ho⟩ := hf.replayed h
  exact ho.restored.consistent

theorem consistent_of_calledAt (h : CalledAt settings f d s) : s.Consistent (maxVar f d) := by
  cases h with
  | call h =>
    obtain ⟨lines, s₀, hread, A, hp⟩ := primed_of_stateAtCall h
    exact hp.coherent.consistent hp.fixed hp.processed hp.unmarked
  | void h =>
    obtain ⟨body, A, hco, hf, hp, hum⟩ := coherent_of_stateAtVoid h
    exact hco.consistent (by rw [hf, hp]) (Nat.le_of_eq hp) hum

/-- Up to a conflict the bounds and the marks of the trail stay as they are. -/
theorem consistent_of_stop {b : Bool} {s₀ : State} (h : CalledAt settings f d s₀)
    (hstop : (Search.saturate b).run s₀ = .ok (.error c, s)) : s.Consistent (maxVar f d) := by
  cases h with
  | call h =>
    obtain ⟨lines, sl, hread, A, hp⟩ := primed_of_stateAtCall h
    have hfinds : Finds _ (fun _ _ => True) (Blocked _ _ _ A s₀) (Search.saturate b) s₀ _ :=
      finds_saturate hp.coherent hp.forced hp.processed hp.poised
    have hblocked := hfinds.of_stop hstop
    obtain ⟨hproc, hrest⟩ := Prod.mk.inj (beside_margins.search_of_stop hstop)
    obtain ⟨hforced, hmarked⟩ := Prod.mk.inj hrest
    refine hblocked.coherent.consistent ?_ ?_ fun m => ?_
    · rw [hforced, hproc]
      exact hp.fixed
    · rw [hproc]
      exact Nat.le_trans hp.processed hblocked.grew.assigned_le
    · rw [hmarked]
      exact hp.unmarked m
  | void h =>
    obtain ⟨n, hw, hp⟩ := idle_of_stateAtVoid h
    exact (not_stop_of_idle hw hp hstop).elim

end Points

/-- At every point of a run the trail is consistent. -/
theorem consistent_of_point (h : Point settings f d s) : s.Consistent (maxVar f d) := by
  cases h with
  | between h => exact consistent_of_stateAt h
  | met hsf h => exact consistent_of_carry hsf h
  | called h => exact consistent_of_calledAt h
  | stopped h hstop => exact consistent_of_stop h hstop

/-- On the stack are a fixed unit, an assumption and a literal that a longer clause forced. -/
theorem consistent_of_point_stopped : ∃ s,
    Point {} ([Signings.literal 3] :: Signings.clauses 2) [.add [Signings.literal 1], .add []] s ∧
      s.trail.falsified = [⟨-3⟩, ⟨1⟩, ⟨-2⟩] ∧ s.trail.forced = 1 ∧ s.Consistent 3 := by
  have hstops : ((stateAtCall {} ([Signings.literal 3] :: Signings.clauses 2)
      [.add [Signings.literal 1], .add []] (.denied 0 0)).bind
        (Search.saturate true).stopped?).any (fun p =>
          p.2.trail.falsified = [⟨-3⟩, ⟨1⟩, ⟨-2⟩] ∧ p.2.trail.forced = 1) = true := by
    decide +kernel
  simp only [Option.any_eq_true, decide_eq_true_eq, Option.bind_eq_some_iff] at hstops
  obtain ⟨⟨c, s⟩, ⟨s₀, hs₀, hstop⟩, hstack, hforced⟩ := hstops
  have hpoint : Point {} ([Signings.literal 3] :: Signings.clauses 2)
      [.add [Signings.literal 1], .add []] s :=
    .stopped (.call hs₀) (Search.stopped?_eq_some_iff.mp hstop)
  exact ⟨s, hpoint, hstack, hforced, consistent_of_point hpoint⟩

end UnsatCore
