import UnsatCore.Extraction
import UnsatCore.Proofs.Abreast

/-! Both passes over lines that two runs have in common. Where the second run has a line that the
first one has not, it passes over it, so the same lines have different numbers in the two runs. -/
namespace UnsatCore

/-- The line that a rejection is about. -/
def Rejection.line? : Rejection → Option Nat
  | .zeroLiteral .derivation i | .unmatchedDeletion i _ | .conflictNotFound i |
    .lemmaNotImplied i _ => some i
  | .zeroLiteral .formula _ | .noConflict => none

/-- A rejection with other numbers for the lines of the derivation. -/
def Rejection.renumber (number : Nat → Nat) : Rejection → Rejection
  | .zeroLiteral .derivation i => .zeroLiteral .derivation (number i)
  | .unmatchedDeletion i c => .unmatchedDeletion (number i) c
  | .conflictNotFound i => .conflictNotFound (number i)
  | .lemmaNotImplied i c => .lemmaNotImplied (number i) c
  | .zeroLiteral .formula i => .zeroLiteral .formula i
  | .noConflict => .noConflict

/-- A core of which only the counters in a scope matter. -/
def Core.within (v : Scope) (core : Core) : Core :=
  { core with counters := core.counters.within v }

/-- The clauses of a formula at the positions that are kept. -/
def Formula.select (kept : Nat → Bool) : Formula → Formula
  | [] => []
  | c :: f =>
    if kept 0 then c :: select (fun i => kept (i + 1)) f else select (fun i => kept (i + 1)) f

theorem Formula.select_none (f : Formula) : f.select (fun _ => false) = [] := by
  induction f with
  | nil => rfl
  | cons c f ih => exact ih

theorem Formula.length_select {kept : Nat → Bool} :
    {f f' : Formula} → f'.length = f.length → (f'.select kept).length = (f.select kept).length
  | [], [], _ => rfl
  | c :: f, c' :: f', h => by
    have hrest : (select (fun i => kept (i + 1)) f').length =
        (select (fun i => kept (i + 1)) f).length := length_select (Nat.succ_inj.mp h)
    by_cases hk : kept 0 = true <;> simp [select, hk, hrest]

/-- Cores of clauses at the same positions, with the same counts in a scope. -/
def Core.Matches (v : Scope) (f f' : Formula) (core core' : Core) : Prop :=
  core'.trivial = core.trivial ∧ core'.counters.within v = core.counters.within v ∧
    ∃ kept, core.clauses = f.select kept ∧ core'.clauses = f'.select kept

theorem Core.Matches.within {v : Scope} {f : Formula} {core core' : Core}
    (h : Core.Matches v f f core core') : core'.within v = core.within v := by
  obtain ⟨ht, hn, kept, hc, hc'⟩ := h
  simp only [Core.within, ht, hn, hc, hc']

namespace Engine

open CheckM

variable {α α' β : Type} {k : Bond} {E : Rejection → Rejection → Prop} {m : CheckM α}
  {g g' : α → CheckM α'} {P : α → Prop} {V : α' → α' → Prop} {s s' t t' : State} {c : Handle}
  {n i j : Nat} {l : Literal} {ls given given' : Clause} {step : Step} {steps steps' : Array Step}
  {coreFirst : Bool}

namespace Bond

/-- The same rejection, of a line in common where it is about a line. -/
def Matches (k : Bond) (r r' : Rejection) : Prop :=
  r = r'.renumber k.rank ∧ ∀ j, r'.line? = some j → k.kept j = true

theorem rank_succ (hj : k.kept j = true) : k.rank (j + 1) = k.rank j + 1 := by
  simp [rank, Nat.count_succ, hj]

theorem rank_succ_of_not (hj : ¬ k.kept j = true) : k.rank (j + 1) = k.rank j := by
  simp [rank, Nat.count_succ, hj]

theorem rank_eq_self (hk : k.kept = fun _ => true) (i : Nat) : k.rank i = i := by
  simp [rank, hk]

theorem rank_inj (hi : k.kept i = true) (hj : k.kept j = true) (h : k.rank i = k.rank j) :
    i = j := Nat.count_injective hi hj h

theorem Aligned.get (h : k.Aligned steps steps') (hj : j < k.lines) (hk : k.kept j = true) :
    ∃ step, steps[k.rank j]? = some step ∧ steps'[j]? = some step ∧ k.Knows step := by
  have hat := h j hj
  rwa [if_pos hk] at hat

/-- A line in common may become another one in both runs. -/
theorem Aligned.revise (h : k.Aligned steps steps') (hj : j < k.lines) (hk : k.kept j = true)
    (hs : k.Knows step) :
    k.Aligned (steps.setIfInBounds (k.rank j) step) (steps'.setIfInBounds j step) := by
  obtain ⟨old, hold, hold', -⟩ := h.get hj hk
  have hlt := (Array.getElem?_eq_some_iff.mp hold).1
  have hlt' := (Array.getElem?_eq_some_iff.mp hold').1
  intro i hi
  by_cases he : i = j
  · subst he
    rw [if_pos hk]
    exact ⟨step, by simp [hlt], by simp [hlt'], hs⟩
  · have hat := h i hi
    rw [Array.getElem?_setIfInBounds_ne (Ne.symm he)]
    split
    · rename_i hki
      rw [if_pos hki] at hat
      rwa [Array.getElem?_setIfInBounds_ne fun hr => he (rank_inj hk hki hr).symm]
    · rename_i hki
      rwa [if_neg hki] at hat

end Bond

/-- What is the same in both runs, and what comes after it. -/
theorem Steady.next (h : Steady k E m P) (hg : ∀ a, P a → Paired (Twin k) E (g a) (g' a) V) :
    Paired (Twin k) E (m >>= g) (m >>= g') V := by
  refine Paired.bind h ?_
  rintro _ a ⟨rfl, ha⟩
  exact hg a ha

theorem Steady.paired (h : Steady k E m P) : Paired (Twin k) E m m fun _ _ => True :=
  Paired.mono h fun _ _ _ => trivial

/-- Reports do not matter. -/
theorem paired_emit (e e' : Event) :
    Paired (Twin k) E (emit e) (emit e') fun _ _ => True :=
  fun _ _ h => ⟨trivial, { h with }⟩

theorem paired_revise (step : Step) (hj : j < k.lines) (hk : k.kept j = true) (hs : k.Knows step) :
    Paired (Twin k) E (revise (k.rank j) step) (revise j step) fun _ _ => True :=
  fun _ _ h => ⟨trivial, { h with
    steps := h.steps.revise hj hk hs
    whole := by simpa using h.whole }⟩

theorem steady_fixProcessed : Steady k E fixProcessed fun _ => True := by
  refine Steady.onTrail fun t t' h => ?_
  have hb := h.bounds t.processed t.processed
  rw [both_ok, h.processed]
  exact hb

section Forth

theorem Twin.isReason (h : Twin k s s') (hc : k.size c = some n) :
    isReason s' c = isReason s c := by
  have hcom := h.arena.common c n hc
  simp only [Engine.isReason, hcom.literal (Nat.zero_le n), bind, Except.bind]
  cases hf : s.arena.literal c 0 with
  | error e => rfl
  | ok first =>
    cases hz : first.isZero with
    | true => simp only [if_true, hz]
    | false =>
      have hsmall := (h.legal_of_first hc hf hz).1.1
      simp only [hz, h.trail.isTrue hsmall, h.trail.reasonOf hsmall]

theorem anyTrue_twin {H : Handle → Prop} {u u' : Trail} (h : Trail.Twin k.bound H u u')
    (hls : ∀ l ∈ ls, k.Legal l) : anyTrue u' ls = anyTrue u ls := by
  induction ls with
  | nil => rfl
  | cons l ls ih =>
    rw [anyTrue, anyTrue, h.isTrue (hls l List.mem_cons_self).1,
      ih fun m hm => hls m (List.mem_cons_of_mem l hm)]

theorem Twin.isHeld (h : Twin k s s') (hc : k.size c = some n) : isHeld c s' = isHeld c s := by
  have hsat : isSatisfied s' c = isSatisfied s c := by
    rw [isSatisfied, isSatisfied, (h.arena.common c n hc).literals]
    exact anyTrue_twin h.trail fun l hl => h.legal hc hl
  simp only [Engine.isHeld, h.isReason hc, hsat]

theorem steady_countIgnored : Steady k E (count Counters.countIgnored) fun _ => True :=
  Steady.count fun v _ => by cases v <;> rfl

theorem paired_replayDelete (hj : j < k.lines) (hk : k.kept j = true) (hc : k.size c = some n) :
    Paired (Twin k) E (replayDelete (k.rank j) c) (replayDelete j c) fun _ _ => True := by
  refine Steady.next (Steady.ask (P := fun _ => True) (fun _ _ h => h.isHeld hc)
    fun _ _ _ _ _ => trivial) fun b _ => Paired.ite (fun _ => ?_) fun _ => ?_
  · refine (paired_emit _ _).bind fun _ _ _ => ?_
    refine (paired_revise .ignored hj hk trivial).bind fun _ _ _ => ?_
    exact steady_countIgnored.paired
  · exact (steady_detach hc).paired

theorem paired_leaveOut (hj : j < k.lines) (hk : k.kept j = true) (hc : k.AtLeast 0 c) :
    Paired (Twin k) E (leaveOut (k.rank j) c) (leaveOut j c) fun _ _ => True := by
  refine Paired.bind (V := fun _ _ => True) (Paired.look fun _ _ _ => trivial) fun _ _ _ => ?_
  refine (paired_emit _ _).bind fun _ _ _ => ?_
  refine (paired_revise (.satisfied c) hj hk hc).bind fun _ _ _ => ?_
  exact (Steady.count fun v _ => by cases v <;> rfl).paired

/-- A pass goes on in both runs, or ends in both at the line of number `j` of the second one. -/
def Bond.Ended (k : Bond) (j : Nat) (r r' : Option Refutation) : Prop :=
  r = none ∧ r' = none ∨ r = some (.step (k.rank j)) ∧ r' = some (.step j)

theorem paired_replayEmpty (hk : k.kept j = true) :
    Paired (Twin k) k.Matches (replayEmpty coreFirst (k.rank j)) (replayEmpty coreFirst j)
      (k.Ended j) := by
  refine (steady_saturate coreFirst).next fun r _ => ?_
  cases r with
  | conflict => exact .pure (Or.inr ⟨rfl, rfl⟩)
  | drained => exact .reject ⟨rfl, by rintro _ ⟨⟩; exact hk⟩

theorem paired_replayUnit (hc : k.size c = some n) (hn : 1 ≤ n) :
    Paired (Twin k) E (replayUnit coreFirst (k.rank j) c) (replayUnit coreFirst j c)
      (k.Ended j) := by
  refine (steady_literalOf hc hn).next fun unit hu => ?_
  refine (Steady.onTrail fun _ _ h => h.assign hu.1 hu.2 ?_).next fun _ _ => ?_
  · rintro d ⟨⟩
    exact ⟨n, hc, hn⟩
  refine (steady_saturate coreFirst).next fun r _ => ?_
  cases r with
  | conflict =>
    refine (paired_emit _ _).bind fun _ _ _ => ?_
    exact .pure (Or.inr ⟨rfl, rfl⟩)
  | drained => exact steady_fixProcessed.next fun _ _ => .pure (Or.inl ⟨rfl, rfl⟩)

theorem steady_attachLong (hc : k.size c = some n) : Steady k E (attachLong c) fun _ => True :=
  (steady_watchable hc).bind fun _ _ =>
    .ite (fun _ => steady_attach hc) fun _ => .pure trivial

theorem paired_replayLemma (hj : j < k.lines) (hk : k.kept j = true) (hc : k.size c = some n) :
    Paired (Twin k) k.Matches (replayLemma coreFirst (k.rank j) c) (replayLemma coreFirst j c)
      (k.Ended j) := by
  refine (steady_sortUnfalsified hc).next fun view hv => Paired.ite (fun _ => ?_) fun _ => ?_
  · refine (paired_leaveOut hj hk ⟨n, hc, Nat.zero_le n⟩).bind fun _ _ _ => ?_
    exact .pure (Or.inl ⟨rfl, rfl⟩)
  · refine (steady_attachLong hc).next fun _ _ => ?_
    match hsize : view.size with
    | 0 => exact paired_replayEmpty hk
    | 1 => exact paired_replayUnit hc (by omega)
    | _ + 2 => exact .pure (Or.inl ⟨rfl, rfl⟩)

theorem paired_replayStep (coreFirst : Bool) (hj : j < k.lines) (hk : k.kept j = true)
    (hs : k.Knows step) :
    Paired (Twin k) k.Matches (replayStep coreFirst (k.rank j) step) (replayStep coreFirst j step)
      (k.Ended j) := by
  cases step with
  | add c =>
    obtain ⟨n, hc, -⟩ := hs
    exact paired_replayLemma hj hk hc
  | delete c =>
    obtain ⟨n, hc, -⟩ := hs
    exact (paired_replayDelete hj hk hc).bind fun _ _ _ => .pure (Or.inl ⟨rfl, rfl⟩)
  | satisfied c => exact .pure (Or.inl ⟨rfl, rfl⟩)
  | ignored => exact .pure (Or.inl ⟨rfl, rfl⟩)

/-- Where the conflict was met in both runs. -/
def Bond.Met (k : Bond) : Refutation → Refutation → Prop
  | .formula, .formula => True
  | .step i, .step j => j < k.lines ∧ k.kept j = true ∧ i = k.rank j
  | _, _ => False

/-- Both runs carry out all lines in common, or they end together before. -/
theorem Twin.replayFrom (coreFirst : Bool) (h : Twin k s s') (hs : k.Aligned steps steps')
    (hj : j ≤ k.lines) :
    (∃ t t', Twin k t t' ∧
      replayFrom coreFirst (k.rank j) (steps.toList.drop (k.rank j)) s =
        replayFrom coreFirst (k.rank k.lines) (steps.toList.drop (k.rank k.lines)) t ∧
      replayFrom coreFirst j (steps'.toList.drop j) s' =
        replayFrom coreFirst k.lines (steps'.toList.drop k.lines) t') ∨
    Together k.Matches (replayFrom coreFirst (k.rank j) (steps.toList.drop (k.rank j)))
      (replayFrom coreFirst j (steps'.toList.drop j)) s s'
      fun r t r' t' => k.Met r r' ∧ Twin k t t' := by
  -- The induction is on the lines in common that are left in the second run.
  obtain ⟨n, hn⟩ : ∃ n, j + n = k.lines := ⟨k.lines - j, by omega⟩
  induction n generalizing j s s' with
  | zero =>
    obtain rfl : j = k.lines := by omega
    exact Or.inl ⟨s, s', h, rfl, rfl⟩
  | succ n ih =>
    have hlt : j < k.lines := by omega
    have hcons : ∀ {xs : Array Step} {i : Nat} {step : Step}, xs[i]? = some step →
        xs.toList.drop i = step :: xs.toList.drop (i + 1) := by
      intro xs i step hi
      rw [← Array.getElem?_toList] at hi
      obtain ⟨hlt, rfl⟩ := List.getElem?_eq_some_iff.mp hi
      exact List.drop_eq_getElem_cons hlt
    by_cases hk : k.kept j = true
    · obtain ⟨step, hstep, hstep', hknown⟩ := hs.get hlt hk
      rw [hcons hstep, hcons hstep']
      have hboth := paired_replayStep coreFirst hlt hk hknown h
      rcases hboth.cases with ⟨r, t, r', t', hrun, hrun', hended, ht⟩ | hstop
      · rcases hended with ⟨rfl, rfl⟩ | ⟨rfl, rfl⟩
        · have hnext := ih ht (j := j + 1) hlt (by omega)
          rw [Bond.rank_succ hk] at hnext
          simpa only [Engine.replayFrom, Together, bind_of_ok hrun, bind_of_ok hrun'] using hnext
        · refine Or.inr ?_
          simp only [Engine.replayFrom, Together, bind_of_ok hrun, bind_of_ok hrun']
          exact ⟨⟨hlt, hk, rfl⟩, ht⟩
      · exact Or.inr (hstop _ _)
    · have hstep' := hs j hlt
      rw [if_neg hk] at hstep'
      rw [hcons hstep']
      have hnext := ih h (j := j + 1) hlt (by omega)
      rw [Bond.rank_succ_of_not hk] at hnext
      exact hnext

/-- The first pass: it comes to the end of the lines in common in both runs, or ends together. -/
theorem Twin.replay (coreFirst : Bool) (h : Twin k s s') :
    (∃ xs xs' t t', (k.whole → xs = [] ∧ xs' = []) ∧
      replay coreFirst s = Engine.replayFrom coreFirst (k.rank k.lines) xs t ∧
      replay coreFirst s' = Engine.replayFrom coreFirst k.lines xs' t') ∨
    Together k.Matches (replay coreFirst) (replay coreFirst) s s'
      fun r t r' t' => k.Met r r' ∧ Twin k t t' := by
  rcases (steady_saturate (E := k.Matches) coreFirst h).cases with
    ⟨_, t, r, t', hrun, hrun', ⟨rfl, -⟩, ht⟩ | hstop
  · simp only [Engine.replay, Together, bind_of_ok hrun, bind_of_ok hrun']
    cases r with
    | conflict => exact Or.inr ⟨trivial, { ht with }⟩
    | drained =>
      obtain ⟨_, u, hfix, -, hu⟩ := (steady_fixProcessed (E := k.Matches) ht).of_ok rfl
      cases hfix
      have hfrom := hu.replayFrom coreFirst ht.steps (Nat.zero_le k.lines)
      rw [show k.rank 0 = 0 from Nat.count_zero _] at hfrom
      refine hfrom.imp ?_ id
      rintro ⟨v, v', -, hv, hv'⟩
      refine ⟨_, _, v, v', fun hw => ?_, hv, hv'⟩
      obtain ⟨hsize, hsize'⟩ := ht.whole hw
      rw [← hsize, ← hsize', ← Array.length_toList, ← Array.length_toList]
      exact ⟨List.drop_length, List.drop_length⟩
  · exact Or.inr (hstop _ _)

/-- Where neither run has other lines, they end together. -/
theorem Twin.replay_whole (h : Twin k s s') (hw : k.whole) :
    Together k.Matches (Engine.replay coreFirst) (Engine.replay coreFirst) s s'
      fun r t r' t' => k.Met r r' ∧ Twin k t t' := by
  rcases h.replay coreFirst with ⟨xs, xs', t, t', hend, hrun, hrun'⟩ | htogether
  · obtain ⟨rfl, rfl⟩ := hend hw
    rw [Together, hrun, hrun']
    exact ⟨rfl, by rintro _ ⟨⟩⟩
  · exact htogether

end Forth

section Back

theorem steady_assume (hls : ∀ l ∈ ls, k.Legal l) :
    Steady k E (assume ls) fun r => ∀ l, r = .refuted l → k.Legal l := by
  induction ls with
  | nil => exact .pure (by simp)
  | cons l ls ih =>
    have hl := hls l List.mem_cons_self
    have hrest := ih fun m hm => hls m (List.mem_cons_of_mem l hm)
    refine (steady_isFalseNow hl.1).bind fun b _ => Steady.ite (fun _ => hrest) fun _ => ?_
    refine (steady_isTrueNow hl.1).bind fun b _ => Steady.ite (fun _ => ?_) fun _ => ?_
    · exact .pure (by rintro _ ⟨⟩; exact hl)
    · refine (Steady.onTrail fun _ _ h => h.assign ?_ ?_ ?_).bind fun _ _ => hrest
      · simpa using hl.1
      · intro hz
        exact hl.2 (by simpa using congrArg (- ·) hz)
      · simp

theorem steady_followsByUnits (hc : k.size c = some n) :
    Steady k E (followsByUnits coreFirst c) fun _ => True := by
  refine (steady_bodyOf hc (Nat.zero_le n)).bind fun ls hls => ?_
  refine (steady_assume hls.2).bind fun r hr => ?_
  cases r with
  | refuted l =>
    refine (Steady.onTrail fun _ _ h => h.mark ?_).bind fun _ _ => ?_
    · simpa using (hr l rfl).1
    · exact steady_traceReasons.bind fun _ _ => .pure trivial
  | consistent => exact (steady_saturate coreFirst).bind fun _ _ => .pure trivial

theorem steady_withdraw (hc : k.size c = some n) : Steady k E (withdraw c) fun _ => True := by
  have htake : Steady k E (literalOf c 0 >>= fun first => if first.isZero then pure () else
      ask (·.trail.reasonOf first.var) >>= fun r =>
        if r = some c then onTrail (·.unassign first) else pure ()) fun _ => True := by
    refine (steady_literalOf_zero hc).bind fun first hf => ?_
    refine Steady.ite (fun _ => .pure trivial) fun hz => ?_
    have hl := (hf (by simpa using hz)).1.1
    refine (Steady.ask (P := fun _ => True) (fun _ _ h => h.trail.reasonOf hl)
      fun _ _ _ _ _ => trivial).bind fun r _ => ?_
    exact .ite (fun _ => Steady.onTrail fun _ _ h => h.unassign hl) fun _ => .pure trivial
  refine (steady_watchable hc).bind fun b _ => Steady.ite (fun _ => ?_) fun _ => htake
  exact (steady_detach hc).bind fun _ _ => htake

theorem paired_check (hc : k.size c = some n)
    (hE : E (.lemmaNotImplied (k.rank j) given) (.lemmaNotImplied j given')) :
    Paired (Twin k) E (check coreFirst (k.rank j) given c) (check coreFirst j given' c)
      fun _ _ => True := by
  refine Paired.bind (V := fun _ _ => True) (Paired.look fun _ _ _ => trivial) fun _ _ _ => ?_
  refine (paired_emit _ _).bind fun _ _ _ => ?_
  refine (steady_followsByUnits hc).next fun b _ => Paired.ite (fun _ => ?_) fun _ => ?_
  · refine Paired.bind (V := fun _ _ => True) (fun _ _ h => ⟨trivial, { h with }⟩) fun _ _ _ => ?_
    exact (Steady.count fun v _ => by cases v <;> rfl).paired
  · exact .reject hE

theorem paired_undoStep (coreFirst : Bool) (hs : k.Knows step)
    (hE : E (.lemmaNotImplied (k.rank j) given) (.lemmaNotImplied j given')) :
    Paired (Twin k) E (undoStep coreFirst (k.rank j) given step)
      (undoStep coreFirst j given' step) fun _ _ => True := by
  cases step with
  | add c =>
    obtain ⟨n, hc, -⟩ := hs
    refine (steady_withdraw hc).next fun _ _ => ?_
    refine (steady_isCore hc).next fun b _ => Paired.ite (fun _ => ?_) fun _ => ?_
    · exact paired_check hc hE
    · exact (Steady.count fun v _ => by cases v <;> rfl).paired
  | delete c =>
    obtain ⟨n, hc, -⟩ := hs
    refine (steady_sortUnfalsified hc).next fun _ _ => ?_
    exact (steady_attach hc).paired
  | satisfied c => exact .pure trivial
  | ignored => exact .pure trivial

/-- Lines in common may be reported with the clauses that each run was given for them. -/
def Bond.Reports (k : Bond) (E : Rejection → Rejection → Prop) (given given' : Array Clause) :
    Prop :=
  ∀ j < k.lines, k.kept j = true →
    E (.lemmaNotImplied (k.rank j) (given.getD (k.rank j) []))
      (.lemmaNotImplied j (given'.getD j []))

theorem Bond.reports_matches {given given' : Array Clause}
    (hg : ∀ j < k.lines, k.kept j = true → given.getD (k.rank j) [] = given'.getD j []) :
    k.Reports k.Matches given given' := by
  intro j hj hk
  rw [hg j hj hk]
  exact ⟨rfl, by rintro _ ⟨⟩; exact hk⟩

theorem undoLine_of_getElem? {given : Array Clause} (hs : s.steps[i]? = some step) :
    undoLine coreFirst given i s = undoStep coreFirst i (given.getD i []) step s := by
  rw [undoLine, bind_of_ok (ask_of_ok (a := step) (by rw [hs]; rfl))]

theorem Twin.undoFrom {given given' : Array Clause} (h : Twin k s s')
    (hg : k.Reports E given given') (hn : n ≤ k.lines) :
    Together E (undoFrom coreFirst given (k.rank n)) (undoFrom coreFirst given' n) s s'
      fun _ t _ t' => Twin k t t' := by
  induction n generalizing s s' with
  | zero =>
    rw [Bond.rank, Nat.count_zero]
    exact h
  | succ n ih =>
    have hat := h.steps n hn
    by_cases hk : k.kept n = true
    · obtain ⟨step, hstep, hstep', hknown⟩ := h.steps.get hn hk
      have hundo := paired_undoStep coreFirst hknown (hg n hn hk) h
      rw [Bond.rank_succ hk]
      refine Together.bind (P := fun _ t _ t' => Twin k t t') ?_ fun _ _ _ _ ht => ih ht (by omega)
      rw [Together, undoLine_of_getElem? hstep, undoLine_of_getElem? hstep']
      exact hundo.mono fun _ _ _ _ hp => hp.2
    · rw [if_neg hk] at hat
      have hskip : undoFrom coreFirst given' (n + 1) s' = undoFrom coreFirst given' n s' :=
        bind_of_ok (undoLine_of_getElem? hat)
      rw [Bond.rank_succ_of_not hk, Together, hskip]
      exact ih h (by omega)

theorem Twin.justify {given given' : Array Clause} (h : Twin k s s')
    (hg : k.Reports E given given') (hj : j < k.lines) (hk : k.kept j = true) :
    Together E (justify coreFirst given (k.rank j)) (justify coreFirst given' j) s s'
      fun _ t _ t' => Twin k t t' := by
  refine (paired_emit _ _ h).bind fun _ _ _ _ hp => ?_
  refine (steady_fixProcessed hp.2).bind fun _ _ _ _ hp => ?_
  rw [← Bond.rank_succ hk]
  exact hp.2.undoFrom hg hj

end Back

section Conclusion

theorem Twin.selectCore (h : Twin k s s') {hs : List Handle} (hk : ∀ c ∈ hs, k.AtLeast 0 c) :
    {f f' : Formula} → f'.length = f.length →
      Both (selectCore s.arena f hs) (selectCore s'.arena f' hs) fun cs cs' =>
        ∃ kept, cs = f.select kept ∧ cs' = f'.select kept
  | [], [], _ => ⟨fun _ => false, rfl, rfl⟩
  | c :: f, c' :: f', hlen => by
    cases hs with
    | nil => exact ⟨fun _ => false, (Formula.select_none _).symm, (Formula.select_none _).symm⟩
    | cons d hs =>
      obtain ⟨n, hd, -⟩ := hk d List.mem_cons_self
      have hrest := h.selectCore (fun c hc => hk c (List.mem_cons_of_mem d hc))
        (Nat.succ_inj.mp hlen)
      rw [UnsatCore.selectCore, UnsatCore.selectCore, (h.arena.common d n hd).isCore]
      cases s.arena.isCore d with
      | error e => exact rfl
      | ok b =>
        rcases hrest.cases with ⟨cs, cs', hcs, hcs', kept, rfl, rfl⟩ | ⟨e, he, he'⟩
        · rw [hcs, hcs']
          cases b with
          | false => exact ⟨fun i => i ≠ 0 && kept (i - 1), rfl, rfl⟩
          | true => exact ⟨fun i => i = 0 || kept (i - 1), rfl, rfl⟩
        · rw [he, he']
          cases b <;> rfl

theorem paired_conclude {f f' : Formula} (hf : f'.length = f.length) :
    Paired (Twin k) E (conclude f) (conclude f') (Core.Matches k.scope f f') := by
  refine Paired.bind (V := fun cs cs' => ∃ kept, cs = f.select kept ∧ cs' = f'.select kept)
    (fun s s' h => ?_) ?_
  · rw [together_ask, h.origins]
    exact (h.selectCore h.known hf).mono fun _ _ hv => ⟨hv, h⟩
  rintro _ _ ⟨kept, rfl, rfl⟩
  refine Paired.bind (V := fun n n' => n'.within k.scope = n.within k.scope) (Paired.look ?_) ?_
  · intro s s' h
    have hc := congrArg (fun n : Counters => { n with coreSize := (f.select kept).length })
      h.counters
    rw [Formula.length_select hf]
    revert hc
    cases k.scope <;> exact id
  intro n n' hn
  refine (paired_emit _ _).bind fun _ _ _ => (paired_emit _ _).bind fun _ _ _ => .pure ?_
  exact ⟨rfl, hn, kept, rfl, rfl⟩

/-- What is done once the input is read. -/
def pursue (coreFirst : Bool) (f : Formula) (given : Array Clause) : CheckM Core := do
  match ← replay coreFirst with
  | .formula => conclude f
  | .step last =>
    justify coreFirst given last
    conclude f

theorem Twin.pursue {f f' : Formula} {given given' : Array Clause} (hf : f'.length = f.length)
    (hg : k.Reports E given given')
    (h : Together E (Engine.replay coreFirst) (Engine.replay coreFirst) s s'
      fun r t r' t' => k.Met r r' ∧ Twin k t t') :
    Together E (pursue coreFirst f given) (pursue coreFirst f' given') s s'
      fun core _ core' _ => Core.Matches k.scope f f' core core' := by
  have hend : ∀ {t t'}, Twin k t t' → Together E (conclude f) (conclude f') t t'
      fun core _ core' _ => Core.Matches k.scope f f' core core' := fun ht =>
    (paired_conclude hf ht).mono fun _ _ _ _ hp => hp.1
  refine h.bind ?_
  rintro r t r' t' ⟨hmet, ht⟩
  match r, r', hmet with
  | .formula, .formula, _ => exact hend ht
  | .step _, .step j, ⟨hj, hk, rfl⟩ =>
    exact (ht.justify hg hj hk).bind fun _ _ _ _ hu => hend hu

end Conclusion

end Engine

end UnsatCore
