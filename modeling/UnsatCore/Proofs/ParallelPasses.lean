import UnsatCore.Proofs.Extraction
import UnsatCore.Proofs.ParallelSaturation

/-! Both passes and the end of a run on states of which one is found in the other. The lines of the
two derivations have the same numbers. -/
namespace UnsatCore

open Engine

namespace Core

/-- A core of which only some counters are compared. -/
def tally (exact : Bool) (core : Core) : Core :=
  { core with counters := core.counters.tally exact }

/-- A core of other clauses. -/
def image (lit : Literal → Literal) (core : Core) : Core :=
  { core with clauses := core.clauses.map (List.map lit) }

end Core

/-- Clauses that only the second run has are not selected. -/
theorem selectCore_woven {g : Image} {a a' : Arena} {f f' : Formula} {hs hs' : List Handle}
    (ha : Arena.Mirror g a a') (hw : g.Woven f hs f' hs') :
    ∃ core, selectCore a f hs = .ok core ∧
      selectCore a' f' hs' = .ok (core.map (List.map g.lit)) := by
  induction hw with
  | nil => exact ⟨[], rfl, rfl⟩
  | @common f f' hs hs' c h hw hh ih =>
    obtain ⟨core, hcore, hcore'⟩ := ih
    obtain ⟨m, hm, -⟩ := hh
    obtain ⟨hin, hin'⟩ := (ha.common h m hm).isCore
    rw [selectCore, selectCore, hin, hin', hcore, hcore']
    cases a.inCore h with
    | true => exact ⟨c :: core, rfl, rfl⟩
    | false => exact ⟨core, rfl, rfl⟩
  | @alien f f' hs hs' c h hw hh ih =>
    obtain ⟨core, hcore, hcore'⟩ := ih
    have hapart := ha.apart 0 h hh
    refine ⟨core, hcore, ?_⟩
    rw [selectCore, hapart.has.isCore, hapart.inCore, hcore']

namespace Engine

open CheckM

variable {g : Image} {s s' : State} {c : Handle} {n : Nat} {ls : Clause} {coreFirst : Bool}
  {step : Step} {steps : List Step} {given given' : Array Clause}

section Forth

theorem parallel_fixProcessed : Parallel g fixProcessed fixProcessed fun _ _ => True :=
  Parallel.onTrail fun _ _ h => h.trail.fixed

theorem parallel_revise (i : Nat) (step : Step) (hs : g.Knows step) :
    Parallel g (revise i step) (revise i (g.step step)) fun _ _ => True := by
  intro s s' h
  refine ⟨trivial, { h with steps := ?_, known := fun x hx => ?_ }⟩
  · show s'.steps.setIfInBounds i (g.step step) = (s.steps.setIfInBounds i step).map g.step
    rw [h.steps, ← Array.toList_inj, Array.toList_setIfInBounds, Array.toList_map,
      Array.toList_map, Array.toList_setIfInBounds, List.map_set]
  · simp only [Array.toList_setIfInBounds] at hx
    rcases List.mem_or_eq_of_mem_set hx with hx | rfl
    · exact h.known x hx
    · exact hs

theorem parallel_leaveOut (i : Nat) (hc : g.size c = some n) :
    Parallel g (leaveOut i c) (leaveOut i (g.handle c)) fun _ _ => True := by
  intro s s' h
  refine corresponds_left_ok rfl (corresponds_right_ok rfl ?_)
  refine ((Parallel.emit _ _).bind fun _ _ _ => ?_) h
  refine (parallel_revise i (.satisfied c) ⟨n, hc, Nat.zero_le n⟩).bind fun _ _ _ => ?_
  exact Parallel.count fun b _ => by cases b <;> rfl

theorem parallel_replayEmpty (hclear : g.clear) (i : Nat) :
    Parallel g (replayEmpty coreFirst i) (replayEmpty coreFirst i) fun r r' => r' = r := by
  refine (parallel_saturate hclear coreFirst).bind ?_
  rintro _ r rfl
  cases r with
  | conflict => exact .pure rfl
  | drained => exact .reject rfl

theorem parallel_replayUnit (hclear : g.clear) (i : Nat) (hc : g.size c = some n) (hn : 1 ≤ n) :
    Parallel g (replayUnit coreFirst i c) (replayUnit coreFirst i (g.handle c))
      fun r r' => r' = r := by
  refine (parallel_literalOf hc hn).bind ?_
  rintro unit _ ⟨hu, rfl⟩
  refine (parallel_assign hu (d := some c) ?_).bind fun _ _ _ => ?_
  · rintro _ ⟨⟩
    exact ⟨n, hc, hn⟩
  refine (parallel_saturate hclear coreFirst).bind ?_
  rintro _ r rfl
  cases r with
  | conflict => exact (Parallel.emit _ _).bind fun _ _ _ => .pure rfl
  | drained => exact parallel_fixProcessed.bind fun _ _ _ => .pure rfl

theorem parallel_attachLong (hc : g.size c = some n) :
    Parallel g (attachLong c) (attachLong (g.handle c)) fun _ _ => True := by
  refine (parallel_watchable hc).bind ?_
  rintro b _ ⟨rfl, rfl⟩
  exact .ite Iff.rfl (fun _ => parallel_attach hc) fun _ => .pure trivial

theorem parallel_replayLemma (hclear : g.clear) (i : Nat) (hc : g.size c = some n) :
    Parallel g (replayLemma coreFirst i c) (replayLemma coreFirst i (g.handle c))
      fun r r' => r' = r := by
  refine (parallel_sortUnfalsified hc).bind ?_
  rintro _ view ⟨rfl, hv⟩
  refine .ite Iff.rfl (fun _ => ?_) fun _ => ?_
  · exact (parallel_leaveOut i hc).bind fun _ _ _ => .pure rfl
  · refine (parallel_attachLong hc).bind fun _ _ _ => ?_
    match hsize : view.size with
    | 0 => exact parallel_replayEmpty hclear i
    | 1 => exact parallel_replayUnit hclear i hc (by omega)
    | _ + 2 => exact .pure rfl

theorem parallel_replayStep (hclear : g.clear) (i : Nat) (hs : g.Knows step) :
    Parallel g (replayStep coreFirst i step) (replayStep coreFirst i (g.step step))
      fun r r' => r' = r := by
  cases step with
  | add c =>
    obtain ⟨n, hc, -⟩ := hs
    exact parallel_replayLemma hclear i hc
  | delete c => exact hs.elim
  | satisfied c => exact .pure rfl
  | ignored => exact .pure rfl

theorem parallel_replayFrom (hclear : g.clear) (coreFirst : Bool) (i : Nat)
    (hs : ∀ step ∈ steps, g.Knows step) :
    Parallel g (replayFrom coreFirst i steps) (replayFrom coreFirst i (steps.map g.step))
      fun r r' => r' = r := by
  induction steps generalizing i with
  | nil => exact .reject rfl
  | cons step steps ih =>
    refine (parallel_replayStep hclear i (hs step List.mem_cons_self)).bind ?_
    rintro _ r rfl
    cases r with
    | some refutation => exact .pure rfl
    | none => exact ih (i + 1) fun x hx => hs x (List.mem_cons_of_mem step hx)

/-- The first pass once unit propagation in the formula has come to its end. -/
theorem Mirrored.replayFrom (h : Mirrored g s s') (hclear : g.clear) (coreFirst : Bool) :
    Corresponds g.comparison (replayFrom coreFirst 0 s.steps.toList)
      (replayFrom coreFirst 0 s'.steps.toList) s s' fun r t r' t' => r' = r ∧ Mirrored g t t' := by
  rw [h.steps, Array.toList_map]
  exact parallel_replayFrom hclear coreFirst 0 h.known h

theorem parallel_replay (hclear : g.clear) (coreFirst : Bool) :
    Parallel g (replay coreFirst) (replay coreFirst) fun r r' => r' = r := by
  refine (parallel_saturate hclear coreFirst).bind ?_
  rintro _ r rfl
  cases r with
  | conflict => exact (Parallel.emit _ _).bind fun _ _ _ => .pure rfl
  | drained =>
    refine parallel_fixProcessed.bind fun _ _ _ => fun s s' h => ?_
    exact corresponds_left_ok rfl (corresponds_right_ok rfl (h.replayFrom hclear coreFirst))

end Forth

section Back

/-- The same assumption of corresponding literals. -/
def SameAssumption (g : Image) : Assumption → Assumption → Prop
  | .refuted l, .refuted l' => g.legal l ∧ l' = g.lit l
  | .consistent, .consistent => True
  | _, _ => False

theorem parallel_assume (hls : ∀ l ∈ ls, g.legal l) :
    Parallel g (assume ls) (assume (ls.map g.lit)) (SameAssumption g) := by
  induction ls with
  | nil => exact .pure trivial
  | cons l ls ih =>
    have hl := hls l List.mem_cons_self
    have hrest := ih fun m hm => hls m (List.mem_cons_of_mem l hm)
    refine (parallel_isFalseNow hl).bind ?_
    rintro b _ rfl
    refine .ite Iff.rfl (fun _ => hrest) fun _ => ?_
    refine (parallel_isTrueNow hl).bind ?_
    rintro b _ rfl
    refine .ite Iff.rfl (fun _ => .pure ⟨hl, rfl⟩) fun _ => ?_
    have hassign := parallel_assign (g.legal_neg hl) (d := none) (by simp)
    rw [g.lit_neg hl] at hassign
    exact hassign.bind fun _ _ _ => hrest

theorem parallel_followsByUnits (hclear : g.clear) (hc : g.size c = some n) :
    Parallel g (followsByUnits coreFirst c) (followsByUnits coreFirst (g.handle c))
      fun b b' => b' = b := by
  refine (parallel_bodyOf hc (Nat.zero_le n)).bind ?_
  rintro ls _ ⟨rfl, -, hls⟩
  refine (parallel_assume hls).bind fun r r' hr => ?_
  match r, r', hr with
  | .refuted l, .refuted _, ⟨hl, rfl⟩ =>
    have hmark := parallel_mark (g.legal_neg hl)
    rw [g.lit_neg hl] at hmark
    exact hmark.bind fun _ _ _ => parallel_traceReasons.bind fun _ _ _ => .pure rfl
  | .consistent, .consistent, _ =>
    refine (parallel_saturate hclear coreFirst).bind ?_
    rintro _ r rfl
    exact .pure rfl

theorem parallel_withdraw (hc : g.size c = some n) :
    Parallel g (withdraw c) (withdraw (g.handle c)) fun _ _ => True := by
  have htake : Parallel g
      (literalOf c 0 >>= fun first => if first.isZero then pure () else
        ask (·.trail.reasonOf first.var) >>= fun r =>
          if r = some c then onTrail (·.unassign first) else pure ())
      (literalOf (g.handle c) 0 >>= fun first => if first.isZero then pure () else
        ask (·.trail.reasonOf first.var) >>= fun r =>
          if r = some (g.handle c) then onTrail (·.unassign first) else pure ())
      fun _ _ => True := by
    refine (parallel_literalOf_zero hc).bind fun first first' hfirst => ?_
    refine .ite (by rw [hfirst.1]) (fun _ => .pure trivial) fun hz => ?_
    obtain ⟨hl, rfl, -⟩ := hfirst.2 (by simpa using hz)
    -- The reasons are compared by their handles, which tell clauses in common apart.
    have hreason : Parallel g (ask (·.trail.reasonOf first.var))
        (ask (·.trail.reasonOf (g.lit first).var))
        fun r r' => r' = some (g.handle c) ↔ r = some c := by
      refine Parallel.ask fun s s' h => ?_
      obtain ⟨r, hr, hr', hknown⟩ := h.trail.reasonOf hl
      rw [hr, hr', answers_ok]
      cases r with
      | none => simp
      | some d =>
        simp only [Option.map_some, Option.some.injEq]
        exact ⟨h.inj hc d (hknown d rfl), congrArg g.handle⟩
    refine hreason.bind fun r r' hr => .ite hr (fun _ => ?_) fun _ => .pure trivial
    exact Parallel.onTrail fun _ _ h => h.trail.unassign hl
  refine (parallel_watchable hc).bind ?_
  rintro b _ ⟨rfl, rfl⟩
  exact .ite Iff.rfl (fun _ => (parallel_detach hc).bind fun _ _ _ => htake) fun _ => htake

theorem parallel_recordJustified (i : Nat) :
    Parallel g (recordJustified i) (recordJustified i) fun _ _ => True :=
  fun _ _ h => ⟨trivial, { h with }⟩

theorem parallel_check (hclear : g.clear) (i : Nat) (x : Clause) (hc : g.size c = some n) :
    Parallel g (check coreFirst i x c) (check coreFirst i (x.map g.lit) (g.handle c))
      fun _ _ => True := by
  intro s s' h
  refine corresponds_left_ok rfl (corresponds_right_ok rfl ?_)
  refine ((Parallel.emit _ _).bind fun _ _ _ => ?_) h
  refine (parallel_followsByUnits hclear hc).bind ?_
  rintro _ b rfl
  refine .ite Iff.rfl (fun _ => ?_) fun _ => .reject rfl
  refine (parallel_recordJustified i).bind fun _ _ _ => ?_
  exact Parallel.count fun b _ => by cases b <;> rfl

theorem parallel_undoLemma (hclear : g.clear) (i : Nat) (x : Clause) (hc : g.size c = some n) :
    Parallel g (undoLemma coreFirst i x c) (undoLemma coreFirst i (x.map g.lit) (g.handle c))
      fun _ _ => True := by
  refine (parallel_withdraw hc).bind fun _ _ _ => ?_
  refine (parallel_isCore hc).bind ?_
  rintro _ b rfl
  exact .ite Iff.rfl (fun _ => parallel_check hclear i x hc) fun _ =>
    Parallel.count fun b _ => by cases b <;> rfl

theorem parallel_undoStep (hclear : g.clear) (i : Nat) (x : Clause) (hs : g.Knows step) :
    Parallel g (undoStep coreFirst i x step) (undoStep coreFirst i (x.map g.lit) (g.step step))
      fun _ _ => True := by
  cases step with
  | add c =>
    obtain ⟨n, hc, -⟩ := hs
    exact parallel_undoLemma hclear i x hc
  | delete c => exact hs.elim
  | satisfied c => exact .pure trivial
  | ignored => exact .pure trivial

theorem parallel_undoLine (hclear : g.clear) (i : Nat)
    (hgiven : ∀ i, given'.getD i [] = (given.getD i []).map g.lit) :
    Parallel g (undoLine coreFirst given i) (undoLine coreFirst given' i) fun _ _ => True := by
  have hstep : Parallel g (ask fun s => Fault.require .outOfBounds s.steps[i]?)
      (ask fun s => Fault.require .outOfBounds s.steps[i]?)
      fun step step' => step' = g.step step ∧ g.Knows step := by
    refine Parallel.ask fun s s' h => ?_
    rw [h.steps, Array.getElem?_map]
    cases hi : s.steps[i]? with
    | none => exact g.answers_error .outOfBounds
    | some step =>
      exact ⟨rfl, h.known step (Array.mem_toList_iff.mpr (Array.mem_of_getElem? hi))⟩
  refine hstep.bind ?_
  rintro step _ ⟨rfl, hknown⟩
  rw [hgiven]
  exact parallel_undoStep hclear i _ hknown

theorem parallel_undoFrom (hclear : g.clear) (n : Nat)
    (hgiven : ∀ i, given'.getD i [] = (given.getD i []).map g.lit) :
    Parallel g (undoFrom coreFirst given n) (undoFrom coreFirst given' n) fun _ _ => True := by
  induction n with
  | zero => exact .pure trivial
  | succ n ih => exact (parallel_undoLine hclear n hgiven).bind fun _ _ _ => ih

theorem parallel_justify (hclear : g.clear) (coreFirst : Bool) (last : Nat)
    (hgiven : ∀ i, given'.getD i [] = (given.getD i []).map g.lit) :
    Parallel g (justify coreFirst given last) (justify coreFirst given' last)
      fun _ _ => True := by
  refine (Parallel.emit _ _).bind fun _ _ _ => ?_
  exact parallel_fixProcessed.bind fun _ _ _ => parallel_undoFrom hclear (last + 1) hgiven

end Back

section End

/-- Cores of corresponding clauses, with the same counters as far as they are compared. -/
def SameCore (g : Image) (core core' : Core) : Prop :=
  core'.tally g.exact = (core.image g.lit).tally g.exact

theorem tally_coreSize {b : Bool} {x x' : Counters} (h : x'.tally b = x.tally b) (n : Nat) :
    { x' with coreSize := n }.tally b = { x with coreSize := n }.tally b := by
  cases b with
  | true => exact congrArg (fun y : Counters => { y with coreSize := n }) h
  | false => exact congrArg (fun y : Counters => { y with coreSize := n }) h

theorem parallel_conclude : Parallel g (conclude g.read) (conclude g.read') (SameCore g) := by
  intro s s' h
  obtain ⟨core, hcore, hcore'⟩ := selectCore_woven h.arena h.origins
  refine corresponds_left_ok (ask_of_ok hcore) (corresponds_right_ok (ask_of_ok hcore') ?_)
  refine corresponds_left_ok rfl (corresponds_right_ok rfl ?_)
  refine ((Parallel.emit _ _).bind fun _ _ _ => ?_) h
  refine (Parallel.emit _ _).bind fun _ _ _ => .pure ?_
  rw [SameCore, Core.tally, Core.tally, Core.image, List.length_map]
  exact congrArg (Core.mk false (core.map (List.map g.lit))) (tally_coreSize h.counters _)

theorem parallel_concludeTrivial : Parallel g concludeTrivial concludeTrivial (SameCore g) := by
  refine (Parallel.emit _ _).bind fun _ _ _ => fun s s' h => ?_
  exact ⟨congrArg (Core.mk true []) h.counters, h⟩

end End

end Engine

end UnsatCore
