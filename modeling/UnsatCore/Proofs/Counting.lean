import Mathlib.Algebra.Order.BigOperators.Group.List
import Mathlib.Algebra.Order.Ring.Nat
import UnsatCore.Proofs.Checking

/-! How much a run counts. A line is counted at most twice where it is read, and at most once on
each of the two passes. A call of unit propagation counts each variable at most once as propagated
and each clause at most once as needed. No count is taken back, so that what is counted at the end
bounds what was counted on the way, and words of 64 bits hold it. -/
namespace UnsatCore

open Engine Engine.CheckM

variable {α β : Type} {settings : Settings} {f : Formula} {d lines : Derivation}
  {s s' t : State} {n v w i : Nat} {F : Prop} {body : Handle → Clause} {A C : Set Handle}
  {c : Handle} {known : List Handle} {L : Ledger} {past : List Frame} {fr : Frame} {b : Bool}
  {lemmas : Array Clause} {given : Clause} {m m' : CheckM α} {k : α → CheckM β}

namespace Counters

/-- All counters. -/
def entries (n : Counters) : List Nat :=
  [n.lemmas, n.deletions, n.ignoredDeletions, n.satisfiedLemmas, n.checkedLemmas,
    n.skippedLemmas, n.resolutions, n.propagations, n.coreSize]

/-- Words of 64 bits hold all counters. -/
def Fits (n : Counters) : Prop := ∀ k ∈ n.entries, k < 2 ^ 64

/-- The sum of all counters. -/
def total (n : Counters) : Nat := n.entries.sum

theorem fits_of_total {n : Counters} (h : n.total < 2 ^ 64) : n.Fits := fun _ hk =>
  Nat.lt_of_le_of_lt (List.le_sum_of_mem hk) h

/-- The ways to count something. -/
inductive Increment : (Counters → Counters) → Prop
  | lemmas : Increment countLemma
  | deletions : Increment countDeletion
  | ignored : Increment countIgnored
  | satisfied : Increment countSatisfied
  | checked : Increment countChecked
  | skipped : Increment countSkipped
  | resolutions : Increment countResolution
  | propagations : Increment countPropagation

theorem Increment.total {q : Counters → Counters} (hq : Increment q) (n : Counters) :
    (q n).total = n.total + 1 := by
  cases hq <;>
    simp only [Counters.total, entries, countLemma, countDeletion, countIgnored, countSatisfied,
      countChecked, countSkipped, countResolution, countPropagation, List.sum_cons,
      Nat.add_right_comm _ 1, Nat.add_assoc _ _ 1]

theorem total_resolutions (n : Counters) (k : Nat) :
    ({ n with resolutions := n.resolutions + k } : Counters).total = n.total + k := by
  simp only [total, entries, List.sum_cons, Nat.add_right_comm _ k, ← Nat.add_assoc _ _ k]

theorem total_coreSize_le (n : Counters) (k : Nat) :
    ({ n with coreSize := k } : Counters).total ≤ n.total + k := by
  simp only [total, entries, List.sum_cons, List.sum_nil]
  omega

end Counters

namespace Engine

/-- From `s` to `t` at most `w` was counted, and nothing was taken back. -/
structure Adds (w : Nat) (s t : State) : Prop where
  le : s.counters.total ≤ t.counters.total
  bound : t.counters.total ≤ s.counters.total + w

theorem Adds.mono (h : Adds v s t) (hw : v ≤ w) : Adds w s t :=
  ⟨h.le, Nat.le_trans h.bound (Nat.add_le_add_left hw _)⟩

theorem Adds.trans {s₁ s₂ s₃ : State} (h : Adds v s₁ s₂) (h' : Adds w s₂ s₃) :
    Adds (v + w) s₁ s₃ := by
  have hle := h.le
  have hle' := h'.le
  have hbound := h.bound
  have hbound' := h'.bound
  constructor <;> omega

/-- Run from `s`, `m` counts at most `w`, whether it gives a value or is rejected. -/
def Counts (w : Nat) (m : CheckM α) (s : State) : Prop :=
  Ends True (fun _ t => Adds w s t) m s fun _ t => Adds w s t

/-- Nothing is counted. -/
abbrev Uncounted (m : CheckM α) : Prop := Keeps (fun s => s.counters.total) m

namespace Counts

theorem mono (h : Counts v m s) (hw : v ≤ w) : Counts w m s :=
  Ends.imp h id (fun _ _ ht => ht.mono hw) fun _ _ ht => ht.mono hw

theorem of_uncounted (h : Uncounted m) : Counts w m s := by
  have hadds : ∀ t : State, t.counters.total = s.counters.total → Adds w s t := by
    intro t ht
    constructor <;> omega
  exact (h.ends s).imp id (fun _ t ht => hadds t ht) fun _ t ht => hadds t ht

theorem of_ends {Q : α → State → Prop} (h : Ends F (fun _ _ => False) m s Q)
    (hq : ∀ a t, Q a t → Adds w s t) : Counts w m s :=
  h.imp (fun _ => trivial) (fun _ _ hno => hno.elim) hq

/-- What `m` counts comes on top of what was counted before. -/
theorem since (h : Counts w m t) (ht : Adds v s t) :
    Ends True (fun _ u => Adds (v + w) s u) m t fun _ u => Adds (v + w) s u :=
  Ends.imp h id (fun _ _ hu => ht.trans hu) fun _ _ hu => ht.trans hu

theorem bind (h : Counts v m s) (hk : ∀ a t, m s = .ok (a, t) → Counts w (k a) t) :
    Counts (v + w) (m >>= k) s := by
  rw [Counts, ends_bind]
  refine (Ends.run h).imp id ?_ ?_
  · intro _ t ht
    exact ht.mono (Nat.le_add_right v w)
  · intro a t ⟨hrun, ht⟩
    exact (hk a t hrun).since ht

theorem after (h : Uncounted m) (hk : ∀ a t, m s = .ok (a, t) → Counts w (k a) t) :
    Counts w (m >>= k) s :=
  ((of_uncounted h).bind (v := 0) hk).mono (Nat.le_of_eq (Nat.zero_add w))

theorem before (h : Counts w m s) (hk : ∀ a, Uncounted (k a)) : Counts w (m >>= k) s :=
  h.bind (w := 0) fun a _ _ => of_uncounted (hk a)

theorem ite {p : Prop} [Decidable p] (h : Counts w m s) (h' : Counts w m' s) :
    Counts w (if p then m else m') s := by
  split
  · exact h
  · exact h'

theorem count {q : Counters → Counters} (hq : Counters.Increment q) :
    Counts 1 (CheckM.count q) s := by
  have htotal := hq.total s.counters
  have hadds : Adds 1 s { s with counters := q s.counters } := by
    constructor
    · exact htotal ▸ Nat.le_succ _
    · exact Nat.le_of_eq htotal
  exact hadds

end Counts

theorem detached_total : Detached fun s => s.counters.total where
  arena _ _ := rfl
  watches _ _ := rfl
  trail _ _ := rfl

theorem uncounted_emit (e : Event) : Uncounted (emit e) := .emit e fun _ _ => rfl

theorem uncounted_onTrail (q : Trail → Except Fault Trail) : Uncounted (onTrail q) :=
  .onTrail q detached_total.trail

section Reading

theorem uncounted_readFormula (i : Nat) (g : Formula) : Uncounted (readFormula i g) :=
  .readFormula i g (fun _ _ => rfl) (fun _ _ _ => rfl) (fun _ _ => rfl)
    (fun _ _ => uncounted_onTrail _) detached_total.watches

theorem uncounted_resolve (i : Nat) (given c : Clause) :
    Uncounted (resolve settings i given c) := by
  refine .ite (.pure _) (.bind (.look _) fun found => ?_)
  cases found with
  | none => exact .ite (.reject _) (.bind (uncounted_emit _) fun _ => .pure _)
  | some p =>
    refine .ite (.bind (uncounted_emit _) fun _ => .pure _) ?_
    exact .bind (.modify fun _ => rfl) fun _ => .pure _

/-- A deletion is counted, and counted again if it is ignored. -/
theorem counts_readDeletion (i : Nat) (given c : Clause) :
    Counts 2 (readDeletion settings i given c) s := by
  refine Counts.bind (w := 1) (.count .deletions) fun _ s₁ _ => ?_
  refine .after (uncounted_resolve i given c) fun step s₂ _ => .ite ?_ ?_
  · exact .before (.count .ignored) fun _ => .modify fun _ => rfl
  · exact .of_uncounted (.modify fun _ => rfl)

theorem counts_readLemma (c : Clause) : Counts 1 (readLemma c) s :=
  .before (.count .lemmas) fun _ => .bind (.store c fun _ _ _ => rfl) fun _ =>
    .modify fun _ => rfl

theorem counts_readLine (i : Nat) (line : Derivation.Line) :
    Counts 2 (readLine settings i line) s := by
  refine .after (.normalize .derivation i line.clause fun _ _ => rfl) fun c s₁ _ => ?_
  cases line with
  | delete given => exact (counts_readDeletion i given c).before fun _ => .pure _
  | add given =>
    refine ((counts_readLemma c).mono (by omega)).before fun _ => .ite ?_ (.pure _)
    exact .bind (uncounted_emit _) fun _ => .pure _

theorem counts_readLines (i : Nat) (lines : Derivation) :
    Counts (2 * lines.length) (readLines settings i lines) s := by
  induction lines generalizing i s with
  | nil => exact .of_uncounted (.pure _)
  | cons line rest ih =>
    rw [List.length_cons, Nat.mul_add_one, Nat.add_comm]
    refine (counts_readLine i line).bind fun last t _ => .ite ?_ (ih (i + 1))
    exact .of_uncounted (.pure _)

theorem counts_readDerivation (d : Derivation) :
    Counts (2 * d.length) (readDerivation settings d) s :=
  (counts_readLines 0 d).before fun _ => .bind (.look _) fun _ => .bind (.look _) fun _ =>
    uncounted_emit _

end Reading

section Calls

/-- The clauses that a run can have to do with. -/
def Ledger.handles (L : Ledger) : List Handle := L.origins ++ added L.steps

/-- What a call of unit propagation can count: each variable once as propagated and each clause
once as needed. -/
def Ledger.callBound (L : Ledger) : Nat := L.bound + L.handles.length

theorem Entered.adds (h : Entered C s t) (hC : ∀ c ∈ C, c ∈ known) : Adds known.length s t := by
  obtain ⟨entered, hnd, hmem, hcount⟩ := h.counters
  have hsub : entered ⊆ known := fun c hc => hC c ((hmem c).mp hc)
  have hlen := hnd.length_le_of_subset hsub
  have htotal : t.counters.total = s.counters.total + entered.length :=
    hcount ▸ Counters.total_resolutions _ _
  constructor <;> omega

/-- A search counts a propagation for each literal that it puts on the trail. -/
theorem beside_balance : Beside fun s => (s.counters.total : Int) - s.trail.assigned where
  arena _ _ := rfl
  watches _ _ := rfl
  log _ _ := rfl
  derive l r := by
    constructor
    intro s
    simp only [ends_bind, ends_onTrail, ends_count]
    apply yields_of_forall
    intro t hassign
    have hsize : t.assigned = s.trail.assigned + 1 := by
      simp only [Trail.assigned, Trail.stack_assign hassign, Array.size_push]
    have htotal := Counters.Increment.propagations.total s.counters
    simp only [hsize, htotal]
    omega

theorem balance_search (b : Bool) :
    Keeps (fun s => (s.counters.total : Int) - s.trail.assigned) (Search.saturate b).run :=
  beside_balance.search (.onTrail_of_ok fun _ _ h => by cases h; rfl) b

section Explanation

variable (h : Coherent n F body A s) (ha : Anchored body A s.trail.entries)
  (hf : s.trail.forced ≤ s.trail.assigned) (hk : ∀ c, s.arena.Has c → c ∈ known)
include h ha hf hk

theorem Coherent.counts_explain (hc : c ∈ A)
    (hl : ∀ l ∈ s.arena.literals c, l ∈ s.trail.falsified) :
    Counts known.length (explain c) s := by
  refine .of_ends (ends_explain (G := True) h ha hf hc hl) ?_
  rintro _ t ⟨_, _, hentered⟩
  apply hentered.adds
  intro x hx
  apply hk
  rcases hx with rfl | ⟨e, he, hr, _⟩
  · exact (h.attached x hc).1
  · exact h.grounded.has he hr

theorem Coherent.counts_traceMarked {l : Literal} (hl : l ∈ s.trail.falsified) :
    Counts known.length (do onTrail (·.mark l); traceReasons) s := by
  refine .of_ends (h.ends_traceMarked ha hf hl) ?_
  rintro _ t ⟨C, hC, hentered⟩
  exact hentered.adds fun x hx => hk x (hC x hx)

/-- What is propagated is on the trail before a conflict takes it away again, and the trail has no
more literals than there are variables. -/
theorem Coherent.counts_saturate (hp : s.trail.processed ≤ s.trail.assigned) (hpo : Poised A s) :
    Counts (n + known.length) (saturate b) s := by
  have hadds : ∀ t, Coherent n F body A t → Grew A s t →
      (t.counters.total : Int) - t.trail.assigned = s.counters.total - s.trail.assigned →
      Adds n s t := by
    intro t ht hg hbalance
    have hle := hg.assigned_le
    have hbound := ht.trail.assigned_le ht.trail.small
    constructor <;> omega
  have hfinds : Finds F (fun _ _ => False) (Blocked n F body A s) (Search.saturate b) s _ :=
    finds_saturate h hf hp hpo
  -- The search counts what it puts on the trail, and the explanation comes on top of that.
  rw [← Search.explained_saturate, Search.explained, Counts, ends_bind]
  refine (((balance_search b).ends s).and hfinds).imp (fun _ => trivial) ?_ ?_
  · exact fun _ _ hno => hno.2.elim
  · rintro found t ⟨hbalance, hfound⟩
    cases found with
    | ok r =>
      obtain ⟨hne, ht, hsat⟩ := hfound
      cases r with
      | conflict => exact (hne rfl).elim
      | drained => exact (hadds t ht hsat.grew hbalance).mono (Nat.le_add_right _ _)
    | error c =>
      have hg := hfound.grew
      have hexplain : Counts known.length (explain c) t :=
        hfound.coherent.counts_explain (hg.anchored ha) (hg.forced_le hf)
          (fun d hd => hk d ((hg.has d).mp hd)) hfound.attached hfound.falsified
      exact (hexplain.before fun _ => .pure _).since (hadds t hfound.coherent hg hbalance)

end Explanation

theorem Testable.counts_followsByUnits (ht : Testable L A c s)
    (hk : ∀ c, s.arena.Has c → c ∈ L.handles) : Counts L.callBound (followsByUnits b c) s := by
  refine .after (.ask _) fun ls s₁ hbody => ?_
  rw [bodyOf, ask_of_ok (ht.has.body (Nat.zero_le _)), List.drop_zero] at hbody
  cases hbody
  refine .after (detached_total.assume _) fun r s₂ hassume => ?_
  obtain ⟨hco, has, hfo, hpr, hl⟩ := ht.of_assume hassume
  have hk₂ : ∀ c, s₂.arena.Has c → c ∈ L.handles := has.arena ▸ hk
  cases r with
  | consistent =>
    exact (hco.counts_saturate (has.anchored ht.anchored) hfo hk₂ hpr
      (has.poised ht.processed ht.settled)).before fun _ => .pure _
  | refuted l =>
    have htrace := hco.counts_traceMarked (has.anchored ht.anchored) hfo hk₂ (hl l rfl)
    simp only
    rw [← bind_assoc]
    exact (htrace.mono (Nat.le_add_left _ _)).before fun _ => .pure _

end Calls

section Forth

variable {h : Handle} {u : Literal} {dropped : Clause} {view : View}

theorem counts_leaveOut (i : Nat) (c : Handle) : Counts 1 (leaveOut i c) s := by
  refine .after (.look _) fun ls s₁ _ => .after (uncounted_emit _) fun _ s₂ _ => ?_
  exact .after (.modify fun _ => rfl) fun _ s₃ _ => .count .satisfied

theorem counts_replayDelete (i : Nat) (c : Handle) : Counts 1 (replayDelete i c) s := by
  refine .after (.ask _) fun held s₁ _ => .ite ?_ (.of_uncounted (detached_total.detach c))
  exact .after (uncounted_emit _) fun _ s₂ _ => .after (.modify fun _ => rfl) fun _ s₃ _ =>
    .count .ignored

theorem Forward.counts_replayUnit (hf : Forward L past A s)
    (hs : L.steps[past.length]? = some (.add h)) (hsort : SortedLemma L h s [u] dropped view)
    (hsat : ¬ view.satisfied = true)
    (hco : Coherent L.bound L.excuse L.body (grow L.body A h) s')
    (heq : s' = { s with watches := s'.watches }) :
    Counts L.callBound (replayUnit b past.length h) s' := by
  have hh : s'.arena.Has h := by
    rw [heq]
    exact hf.restored.has_lemma hs
  have hlit : s'.arena.literals h = u :: dropped := by
    rw [heq]
    exact hsort.literals
  refine .after (.ask _) fun unit s₁ hunit => ?_
  rw [literalOf, ask_of_ok (hh.literal (i := 0) (l := u) (by simp [hlit]))] at hunit
  cases hunit
  refine .after (uncounted_onTrail _) fun _ s₂ hassign => ?_
  have ha := (ends_assign_unit (R := fun _ _ => True) hf hs hsort hsat hco heq).of_ok hassign
  have hsize := ha.assigned_eq
  have hforced := ha.forced.trans hf.restored.forced
  have hprocessed := ha.processed.trans hf.restored.processed
  have hk : ∀ c, s₂.arena.Has c → c ∈ L.handles := fun c hc =>
    (hf.restored.records.has c).mp (ha.arena ▸ hc)
  have hcall : Counts L.callBound (saturate b) s₂ :=
    ha.coherent.counts_saturate (ha.anchored hf) (by omega) hk (by omega) ha.poised
  refine hcall.before fun r => ?_
  cases r with
  | conflict => exact .bind (uncounted_emit _) fun _ => .pure _
  | drained => exact .bind (uncounted_onTrail _) fun _ => .pure _

/-- A lemma whose literals are all false changes nothing, since everything is propagated. -/
theorem Forward.counts_replayEmpty (hf : Forward L past A s)
    (heq : s' = { s with watches := s'.watches }) :
    Counts w (replayEmpty b i) s' := by
  have hw : s'.trail.Wf L.bound := by
    rw [heq]
    exact hf.restored.coherent.trail
  have hp : s'.trail.processed = s'.trail.assigned := by
    rw [heq]
    exact hf.restored.processed
  have hidle : Counts w (saturate b) s' := by
    refine .of_ends (ends_saturate_idle (F := True) hw hp) ?_
    rintro r t ⟨-, rfl⟩
    exact ⟨Nat.le_refl _, Nat.le_add_right _ _⟩
  refine hidle.before fun r => ?_
  cases r with
  | conflict => exact .pure _
  | drained => exact .reject _

theorem Forward.counts_replayLemma (hf : Forward L past A s)
    (hs : L.steps[past.length]? = some (.add h)) :
    Counts (L.callBound + 1) (replayLemma b past.length h) s := by
  refine .after (detached_total.sortUnfalsified h) fun view s₁ hrun => ?_
  obtain ⟨hf₁, heq₁, kept, dropped, hsort⟩ :=
    (ends_sortLemma (R := fun _ _ => True) hf hs).of_ok hrun
  have hh : s₁.arena.Has h := hf₁.restored.has_lemma hs
  have hA : h ∉ A := fun hA => hf₁.not_involved hs (Or.inl hA)
  split
  · exact ((counts_leaveOut past.length h).mono (by omega)).before fun _ => .pure _
  · rename_i hsat
    have hattaches : Uncounted (attach h) := .attach h detached_total.watches
    refine .after (.bind (.ask _) fun _ => .ite hattaches (.pure _)) fun _ s₂ hattach => ?_
    obtain ⟨hco, heq⟩ :=
      (ends_attachLong (R := fun _ _ => True) hf₁.restored.coherent hh hA).of_ok hattach
    rcases kept with _ | ⟨u, _ | ⟨y, more⟩⟩
    · rw [hsort.size]
      exact hf₁.counts_replayEmpty heq
    · rw [hsort.size]
      exact (hf₁.counts_replayUnit hs hsort hsat hco heq).mono (by omega)
    · rw [hsort.size]
      exact .of_uncounted (.pure _)

/-- A line that is carried out counts at most one call, and itself. -/
theorem Forward.counts_replayStep {step : Step} (hf : Forward L past A s)
    (hs : L.steps[past.length]? = some step) :
    Counts (L.callBound + 1) (replayStep b past.length step) s := by
  cases step with
  | add h => exact hf.counts_replayLemma hs
  | delete h => exact ((counts_replayDelete _ h).mono (by omega)).before fun _ => .pure _
  | satisfied h => exact .of_uncounted (.pure _)
  | ignored => exact .of_uncounted (.pure _)

theorem Forward.counts_replayFrom {rest : List Step} (hf : Forward L past A s)
    (hrest : L.steps.drop past.length = rest) :
    Counts (rest.length * (L.callBound + 1)) (replayFrom b past.length rest) s := by
  induction rest generalizing past A s with
  | nil => exact .of_uncounted (.reject _)
  | cons step rest ih =>
    have hs : L.steps[past.length]? = some step := by
      rw [← List.head?_drop, hrest]
      rfl
    rw [List.length_cons, Nat.add_one_mul, Nat.add_comm]
    refine (hf.counts_replayStep hs).bind fun r t hrun => ?_
    have hreplayed :=
      (ends_replayStep (R := fun _ _ => True) (fun _ _ => trivial) hf hs).of_ok hrun
    cases r with
    | some result => exact .of_uncounted (.pure _)
    | none =>
      obtain ⟨step', A', hf'⟩ := hreplayed
      refine ih hf' ?_
      rw [List.length_cons, ← List.drop_drop, hrest]
      rfl

end Forth

section Back

theorem Testable.counts_check (ht : Testable L A c s)
    (hk : ∀ c, s.arena.Has c → c ∈ L.handles) :
    Counts (L.callBound + 1) (check b i given c) s := by
  refine .after (.look _) fun ls s₁ hlook => ?_
  cases hlook
  refine .after (uncounted_emit _) fun _ s₁ hemit => ?_
  cases hemit
  have htest := ht.noted (s.log.push (.checking (s.arena.literals c) i))
  refine (htest.counts_followsByUnits hk).bind fun follows s₂ _ => ?_
  refine .ite ?_ (.of_uncounted (.reject _))
  exact .after (.modify fun _ => rfl) fun _ _ _ => .count .checked

/-- A line that is undone counts at most one check. -/
theorem Restored.counts_undoLine (hr : Restored L (fr :: past) A s) :
    Counts (L.callBound + 1) (undoLine b lemmas past.length) s := by
  refine .after (.ask _) fun step s₁ hask => ?_
  obtain ⟨hstep, rfl⟩ := ask_eq_ok_iff.mp hask
  rw [hr.getElem?_steps] at hstep
  cases hstep
  cases hstep : fr.step with
  | add c =>
    refine .after (detached_total.withdraw c) fun _ s₁ hwithdraw => ?_
    obtain ⟨htest, harena⟩ := hr.testable hstep hwithdraw
    refine .after (.ask _) fun needed s₂ hask => .ite ?_ ?_
    · obtain ⟨-, rfl⟩ := ask_eq_ok_iff.mp hask
      exact htest.counts_check fun d hd => (hr.records.has d).mp (harena ▸ hd)
    · exact .mono (.count .skipped) (by omega)
  | delete c => exact .of_uncounted (detached_total.undoDelete c)
  | satisfied c => exact .of_uncounted (.pure _)
  | ignored => exact .of_uncounted (.pure _)

theorem Restored.counts_undoFrom (hr : Restored L past A s) (ha : Audited L past s)
    (hg : Gives L lemmas) :
    Counts (past.length * (L.callBound + 1)) (undoFrom b lemmas past.length) s := by
  induction past generalizing A s with
  | nil => exact .of_uncounted (.pure _)
  | cons fr past ih =>
    rw [List.length_cons, Nat.add_one_mul, Nat.add_comm]
    refine hr.counts_undoLine.bind fun _ t hrun => ?_
    have hundone := (ends_undoLine (L.blames_excused) hr ha hg).of_ok hrun
    exact ih hundone.restored hundone.audited

theorem Restored.counts_justify {last : Nat} (hr : Restored L past A s) (ha : Audited L past s)
    (hlast : past.length = last + 1)
    (hg : Gives L lemmas) :
    Counts (past.length * (L.callBound + 1)) (justify b lemmas last) s := by
  have hfix : { s.trail with forced := s.trail.processed } = s.trail := by
    rw [hr.processed, ← hr.forced]
  refine .after (uncounted_emit _) fun _ s₁ hemit => ?_
  cases hemit
  refine .after (uncounted_onTrail _) fun _ s₂ hfixed => ?_
  cases hfixed
  simp only [hfix, ← hlast]
  exact (hr.noted s.justified s.counters _).counts_undoFrom (ha.noted s.counters _) hg

end Back

section Run

theorem Loaded.counts_replay (hs : Loaded n F f lines s) :
    Counts (hs.ledger.callBound + lines.length * (hs.ledger.callBound + 1)) (replay b) s := by
  have hforced : s.trail.forced ≤ s.trail.assigned := by simp [hs.forced]
  have hprocessed : s.trail.processed ≤ s.trail.assigned := by simp [hs.processed]
  have hcall : Counts hs.ledger.callBound (saturate b) s :=
    hs.coherent.counts_saturate hs.anchored hforced (fun c hc => (hs.has c).mp hc) hprocessed
      hs.poised
  refine hcall.bind fun r s₁ hrun => ?_
  obtain ⟨hco, hr⟩ := (ends_saturate (R := fun _ _ => True) hs.coherent hs.anchored hforced
    hprocessed hs.poised).of_ok hrun
  cases r with
  | conflict => exact .of_uncounted (.bind (uncounted_emit _) fun _ => .pure _)
  | drained =>
    refine .after (uncounted_onTrail _) fun _ s₂ hfixed => .after (.look _) fun steps s₃ hlook => ?_
    cases hfixed
    cases hlook
    have hf := hs.forward hco hr
    have hlen : s₁.steps.toList.length = lines.length := by
      rw [hr.grew.framed.steps]
      exact hs.transcript.length
    rw [← hlen]
    exact hf.counts_replayFrom hf.rest.symm

theorem ReadTo.callBound_le (hread : ReadTo n F f d lines s) :
    hread.loaded.ledger.callBound ≤ n + (f.length + d.length) := by
  have horigins := congrArg List.length hread.loaded.origins
  have hsteps := hread.loaded.transcript.length
  have hhead := hread.head.length_le
  have hadded : (added s.steps.toList).length ≤ s.steps.toList.length :=
    List.length_filterMap_le _ _
  simp only [List.length_map] at horigins
  have hhandles : hread.loaded.ledger.handles.length =
      s.origins.toList.length + (added s.steps.toList).length := List.length_append
  have hbound : hread.loaded.ledger.bound = n := rfl
  simp only [Ledger.callBound, hhandles, hbound]
  omega

theorem uncounted_conclude (f : Formula) : Uncounted (conclude f) :=
  .bind (.ask _) fun _ => .bind (.look _) fun _ => .bind (uncounted_emit _) fun _ =>
    .bind (uncounted_emit _) fun _ => .pure _

/-- The lines that were read are replayed once and undone once. -/
theorem ReadTo.counts_passes (hread : ReadTo n F f d lines s) {q : Nat}
    (hq : n + (f.length + d.length) ≤ q) :
    Counts (q + d.length * (q + 1) + d.length * (q + 1)) (do
      match ← replay settings.coreFirst with
      | .formula => conclude f
      | .step last =>
        justify settings.coreFirst (d.map Derivation.Line.clause).toArray last
        conclude f) s := by
  have hl := hread.loaded
  have hcall : hread.loaded.ledger.callBound ≤ q := Nat.le_trans hread.callBound_le hq
  have hlines := hread.head.length_le
  have hpass : ∀ {j : Nat}, j ≤ d.length →
      j * (hread.loaded.ledger.callBound + 1) ≤ d.length * (q + 1) := fun hj =>
    Nat.mul_le_mul hj (Nat.succ_le_succ hcall)
  refine Counts.bind (hl.counts_replay.mono (Nat.add_le_add hcall (hpass hlines))) ?_
  intro r t hrun
  obtain ⟨past, A, hr, ha, hpast⟩ := (ends_replay hl (Ledger.blames_excused _)).of_ok hrun
  cases r with
  | formula => exact .of_uncounted (uncounted_conclude f)
  | step last =>
    have hlen : past.length ≤ d.length := Nat.le_trans hr.chronicle.length_le hlines
    have hg := gives_of_isPrefix hl hread.head
    exact ((hr.counts_justify ha hpast hg).mono (hpass hlen)).before fun _ =>
      uncounted_conclude f

end Run

end Engine

/-- The lines are counted where they are read, and the two passes make a call of unit propagation
for each line at most. -/
theorem counts_run (settings : Settings) (f : Formula) (d : Derivation) {q : Nat}
    (hq : maxVar f d + (f.length + d.length) ≤ q) :
    Counts (2 * d.length + (q + d.length * (q + 1) + d.length * (q + 1))) (run settings f d)
      (.initial (maxVar f d)) := by
  have hfit := fitting_excused f d
  have hR : Objects settings f d fun _ _ => True := fun _ _ _ _ => trivial
  refine .after (uncounted_emit _) fun _ s hemit => ?_
  cases hemit
  refine .after (uncounted_readFormula 0 f) fun r s₁ hformula => ?_
  have hopened := (ends_readFormula [] hfit hR ((loaded_initial _ True).noted _ _) rfl).of_ok
    hformula
  cases r with
  | trivial =>
    exact .of_uncounted (.bind (uncounted_emit _) fun _ => .bind (.look _) fun _ => .pure _)
  | ready =>
    refine (counts_readDerivation d).bind fun _ s₂ hlines => ?_
    obtain ⟨lines, hread⟩ := (ends_readDerivation hfit hR hopened).of_ok hlines
    exact hread.counts_passes hq

section Words

variable {core : Core}

theorem maxVar_le_word (f : Formula) (d : Derivation) : maxVar f d ≤ 2 ^ 31 := by
  have hindex : ∀ l : Literal, l.var.index ≤ 2 ^ 31 := by
    intro l
    have hlow := l.val.minValue_le_toInt
    have hhigh := l.val.toInt_lt
    rw [Int32.toInt_minValue] at hlow
    simp only [Literal.var]
    omega
  have hformula : ∀ g : Formula, g.maxVar ≤ 2 ^ 31 := fun g =>
    Formula.maxVar_le_iff.mpr fun c _ => Clause.maxVar_le_iff.mpr fun l _ => hindex l
  exact Nat.max_le.mpr ⟨hformula f, hformula _⟩

theorem length_le_of_selectCore {a : Arena} {g : Formula} {hs : List Handle}
    (h : selectCore a f hs = .ok g) : g.length ≤ f.length := by
  induction f generalizing g hs with
  | nil =>
    cases h
    exact Nat.le_refl 0
  | cons c f ih =>
    cases hs with
    | nil =>
      cases h
      exact Nat.zero_le _
    | cons x hs =>
      rw [selectCore] at h
      split at h
      · cases h
        exact Nat.succ_le_succ (ih ‹_›)
      · cases h
        exact Nat.le_succ_of_le (ih ‹_›)
      · cases h
      · cases h

/-- The core is reported with the counters of the run and its own size. -/
theorem total_of_conclude (h : conclude f s = .ok (core, t)) :
    core.counters.total ≤ t.counters.total + f.length := by
  obtain ⟨clauses, hselect, rfl, hlog⟩ := conclude_eq_ok h
  have hcounters : t.counters = s.counters := by rw [hlog]
  rw [hcounters]
  exact Nat.le_trans (Counters.total_coreSize_le _ _)
    (Nat.add_le_add_left (length_le_of_selectCore hselect) _)

theorem total_of_run (h : run settings f d s = .ok (core, t)) :
    core.counters.total ≤ t.counters.total + f.length := by
  obtain ⟨⟨⟩, s₁, hstarted, h⟩ := bind_eq_ok_iff.mp h
  obtain ⟨r, s₂, hformula, h⟩ := bind_eq_ok_iff.mp h
  cases r with
  | trivial =>
    cases h
    exact Nat.le_add_right _ _
  | ready =>
    obtain ⟨⟨⟩, s₃, hlines, h⟩ := bind_eq_ok_iff.mp h
    obtain ⟨r, s₄, hreplay, h⟩ := bind_eq_ok_iff.mp h
    cases r with
    | formula => exact total_of_conclude h
    | step last =>
      obtain ⟨⟨⟩, s₅, hjustify, h⟩ := bind_eq_ok_iff.mp h
      exact total_of_conclude h

/-- A run on fewer than 2 ^ 31 clauses and lines ends with all counters in words of 64 bits, whether
it is accepted or rejected. -/
theorem run_counters_fit (hm : f.length + d.length < 2 ^ 31) (settings : Settings) :
    Ends True (fun _ s => s.counters.Fits) (run settings f d) (.initial (maxVar f d))
      fun core s => s.counters.Fits ∧ core.counters.Fits := by
  have hq : maxVar f d + (f.length + d.length) ≤ 2 ^ 32 - 1 := by
    have hword := maxVar_le_word f d
    omega
  have hstart : (State.initial (maxVar f d)).counters.total = 0 := rfl
  refine (Ends.run (counts_run settings f d hq)).imp id ?_ ?_
  · intro _ s hadds
    have hbound := hadds.bound
    apply Counters.fits_of_total
    omega
  · intro core s ⟨hrun, hadds⟩
    have hbound := hadds.bound
    have hcore := total_of_run hrun
    constructor
    · apply Counters.fits_of_total
      omega
    · apply Counters.fits_of_total
      omega

end Words

end UnsatCore
