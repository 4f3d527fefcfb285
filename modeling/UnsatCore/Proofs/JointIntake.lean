import UnsatCore.Proofs.Alignment
import UnsatCore.Proofs.Intake
import Mathlib.Logic.Function.Basic

/-! Two runs that read the same formula and some common lines, with room for different variables.
They come to twin states, or are rejected for the same clause. -/
namespace UnsatCore.Engine

open CheckM

variable {k : Bond} {E : Rejection → Rejection → Prop} {s s' t t' : State} {a : Arena} {h : Handle}
  {c c' x given given' : Clause} {i j n : Nat} {l : Literal} {f f' : Formula}
  {settings settings' : Settings} {line line' : Derivation.Line} {d : Derivation}

/-- More clauses in common. -/
def Bond.resize (k : Bond) (size : Handle → Option Nat) : Bond := { k with size }

/-- More lines in common. -/
def Bond.relength (k : Bond) (lines : Nat) : Bond := { k with lines }

section Storing

theorem reportRepeated_eq (part : Part) (i : Nat) (ls : Clause) (s : State) :
    ∃ log, reportRepeated part i ls s = .ok ((), { s with log }) := by
  induction ls generalizing s with
  | nil => exact ⟨s.log, rfl⟩
  | cons l ls ih => exact ih { s with log := s.log.push (.repeatedLiteral l part i) }

/-- The reports of repetitions may differ. -/
theorem paired_reportRepeated (part : Part) (i j : Nat) (ls ls' : Clause) :
    Paired (Twin k) E (reportRepeated part i ls) (reportRepeated part j ls') fun _ _ => True := by
  intro s s' h
  obtain ⟨log, hrun⟩ := reportRepeated_eq part i ls s
  obtain ⟨log', hrun'⟩ := reportRepeated_eq part j ls' s'
  rw [Together, hrun, hrun']
  exact ⟨trivial, { h with }⟩

theorem hasZero_congr (hd : c'.distinct = c.distinct) : c'.hasZero = c.hasZero := by
  have hmem : ∀ l, l ∈ c' ↔ l ∈ c := fun l => by
    rw [← Clause.mem_distinct, hd, Clause.mem_distinct]
  rw [Bool.eq_iff_iff]
  simp only [Clause.hasZero, List.any_eq_true, hmem]

theorem paired_normalize {part : Part} (hd : c'.distinct = c.distinct)
    (hr : c.hasZero = true → E (.zeroLiteral part i) (.zeroLiteral part j)) :
    Paired (Twin k) E (normalize part i c) (normalize part j c')
      fun x x' => x' = x ∧ x = c.distinct ∧ c.hasZero = false := by
  simp only [normalize, hasZero_congr hd, hd]
  refine Paired.ite (fun hz => .reject (hr hz)) fun hz => ?_
  refine (paired_reportRepeated part i j _ _).bind fun _ _ _ => .pure ⟨rfl, rfl, ?_⟩
  simpa using hz

theorem Bond.Aligned.resize {steps steps' : Array Step} {size : Handle → Option Nat}
    (hs : k.Aligned steps steps') (hsize : ∀ c, k.AtLeast 0 c → (k.resize size).AtLeast 0 c) :
    (k.resize size).Aligned steps steps' := by
  intro j hj
  by_cases hk : k.kept j = true
  · obtain ⟨step, hstep, hstep', hknown⟩ := hs.get hj hk
    refine (if_pos hk).mpr ⟨step, hstep, hstep', ?_⟩
    cases step <;> first | exact hsize _ hknown | trivial
  · have hat := hs j hj
    rw [if_neg hk] at hat
    exact (if_neg hk).mpr hat

/-- A clause was stored in both runs, which gave it the same handle. -/
theorem Twin.stored (ht : Twin k s s') (hx : k.exact) (hg : s.arena.Grown a h x)
    (hsmall : ∀ l ∈ x, l.var.index ≤ k.bound) :
    Twin (k.resize (Function.update k.size h (some x.length)))
      { s with arena := a, index := s.index.insert x h }
      { s' with arena := a, index := s'.index.insert x h } := by
  have hshared := ht.exact hx
  have hold : ∀ {c m}, k.size c = some m → c ≠ h := by
    rintro c m hc rfl
    exact hg.fresh (ht.arena.common c m hc).has
  have hmono : ∀ n c, k.AtLeast n c →
      (k.resize (Function.update k.size h (some x.length))).AtLeast n c := by
    rintro n c ⟨m, hc, hn⟩
    exact ⟨m, by simp [Bond.resize, Function.update_of_ne (hold hc), hc], hn⟩
  refine ⟨ht.trail.mono (hmono 1), ht.watches.mono (hmono 2), ⟨hg.wf, hg.wf, fun c m hc => ?_⟩,
    ht.origins, fun c hc => hmono 0 c (ht.known c hc), ht.steps.resize (hmono 0), ht.counters,
    fun _ => ⟨rfl, by rw [hshared.index], fun key d hd => ?_⟩, ht.whole⟩
  · have hnew : a.Has h := (hg.has h).mpr (Or.inr rfl)
    by_cases he : c = h
    · subst he
      simp only [Bond.resize, Function.update_self, Option.some.injEq] at hc
      refine ⟨hnew, hnew, rfl, rfl, by rw [hg.literals_new, hc], ?_⟩
      rw [hg.literals_new]
      exact hsmall
    · simp only [Bond.resize, Function.update_of_ne he] at hc
      have hcom := ht.arena.common c m hc
      have hhas : a.Has c := (hg.has c).mpr (Or.inl hcom.has)
      refine ⟨hhas, hhas, rfl, rfl, ?_, ?_⟩
      · rw [hg.literals c hcom.has, hcom.length]
      · rw [hg.literals c hcom.has]
        exact hcom.small
  · rw [ClauseIndex.insert, ClauseIndex.getD_modify] at hd
    split at hd
    · rcases Array.mem_push.mp hd with hd | rfl
      · exact hmono 0 d (hshared.listed _ d hd)
      · exact ⟨x.length, Function.update_self .., Nat.zero_le _⟩
    · exact hmono 0 d (hshared.listed key d hd)

theorem Twin.store (ht : Twin k s s') (hx : k.exact) (hz : x.hasZero = false)
    (hsmall : ∀ l ∈ x, l.var.index ≤ k.bound) :
    Together E (CheckM.store x) (CheckM.store x) s s' fun h t h' t' =>
      h' = h ∧ Twin (k.resize (Function.update k.size h (some x.length))) t t' := by
  rw [together_store, (ht.exact hx).arena]
  rcases ht.arena.wf.add hz with ⟨-, he⟩ | ⟨h, a, he, hg⟩
  · rw [he]
    rfl
  · rw [he]
    exact ⟨rfl, ht.stored hx hg hsmall⟩

end Storing

section Formula

theorem twin_initial {r r' : Nat} (hr : k.bound ≤ r) (hr' : k.bound ≤ r')
    (hs : k.size = fun _ => none) (hl : k.lines = 0) :
    Twin k (.initial r) (.initial r') where
  trail := {
    wf := ⟨r, hr, Trail.wf_blank r⟩
    wf' := ⟨r', hr', Trail.wf_blank r'⟩
    small := by simp [State.initial, Trail.blank, Trail.falsified]
    reasons := by simp [State.initial, Trail.blank, Trail.entries, Trail.falsified]
    entries := by simp [State.initial, Trail.blank, Trail.entries, Trail.falsified]
    marked := fun m => iff_of_false ((loaded_initial r' True).unmarked m)
      ((loaded_initial r True).unmarked m)
    processed := rfl
    forced := rfl }
  watches := {
    fits := ⟨r, hr, WatchTable.fits_blank r⟩
    fits' := ⟨r', hr', WatchTable.fits_blank r'⟩
    clauses := by simp [State.initial, WatchTable.watchers_blank]
    watchers := by simp [State.initial, WatchTable.watchers_blank] }
  arena := ⟨Arena.wf_empty, Arena.wf_empty, by simp [hs]⟩
  origins := rfl
  known := by simp [State.initial]
  steps := fun j hj => by omega
  counters := rfl
  exact := fun _ => ⟨rfl, rfl, by simp [State.initial, ClauseIndex.empty]⟩
  whole := fun _ => by simp [hl, Bond.rank, State.initial]

theorem steady_assignUnit (hl : k.Legal l) (hh : k.size h = some 1) :
    Steady k E (assignUnit i l h) fun _ => True := by
  refine (steady_isFalseNow hl.1).bind fun b _ => Steady.ite (fun _ => ?_) fun _ => ?_
  · exact (Steady.emit _).bind fun _ _ => .pure trivial
  · refine (steady_isTrueNow hl.1).bind fun b _ => Steady.ite (fun _ => .pure trivial) fun _ => ?_
    refine (Steady.onTrail fun _ _ ht => ht.assign hl.1 hl.2 ?_).bind fun _ _ => .pure trivial
    rintro d ⟨⟩
    exact ⟨1, hh, Nat.le_refl 1⟩

theorem steady_settleClause (hx : ∀ l ∈ x, k.Legal l) (hh : k.size h = some x.length) :
    Steady k E (settleClause i h x) fun _ => True := by
  match x with
  | [] => exact (Steady.emit _).bind fun _ _ => .pure trivial
  | [l] => exact steady_assignUnit (hx l (by simp)) hh
  | x :: y :: rest => exact (steady_attach hh).bind fun _ _ => .pure trivial

/-- One more clause in common, but for repetitions. -/
theorem Twin.readClause (ht : Twin k s s') (hx : k.exact) (hd : c'.distinct = c.distinct)
    (hE : E (.zeroLiteral .formula i) (.zeroLiteral .formula i))
    (hsmall : ∀ l ∈ c, l.var.index ≤ k.bound) :
    Together E (readClause i c) (readClause i c') s s' fun r t r' t' =>
      r' = r ∧ ∃ size, Twin (k.resize size) t t' := by
  refine (paired_normalize hd (fun _ => hE) ht).bind ?_
  rintro _ s₁ x s₁' ⟨⟨rfl, rfl, hz⟩, ht₁⟩
  have hsm : ∀ l ∈ c.distinct, l.var.index ≤ k.bound := fun l hl =>
    hsmall l (Clause.mem_distinct.mp hl)
  refine (ht₁.store hx (hasZero_distinct hz) hsm).bind ?_
  rintro _ s₂ h s₂' ⟨rfl, ht₂⟩
  have hnew : (k.resize (Function.update k.size h (some c.distinct.length))).size h =
      some c.distinct.length := Function.update_self ..
  refine Together.bind (P := fun _ t _ t' =>
    Twin (k.resize (Function.update k.size h (some c.distinct.length))) t t') ?_ ?_
  · refine { ht₂ with origins := congrArg (·.push h) ht₂.origins, known := fun d hd => ?_ }
    rw [Array.toList_push, List.mem_append, List.mem_singleton] at hd
    rcases hd with hd | rfl
    · exact ht₂.known d hd
    · exact ⟨_, hnew, Nat.zero_le _⟩
  intro _ s₃ _ s₃' ht₃
  refine (steady_settleClause (fun l hl => ?_) hnew ht₃).mono fun _ _ _ _ hp => ⟨hp.1.1, _, hp.2⟩
  exact ⟨hsm l hl, Clause.hasZero_eq_false.mp hz l (Clause.mem_distinct.mp hl)⟩

/-- Both runs read the same formula, but for repetitions. -/
theorem Twin.readFormula (ht : Twin k s s') (hx : k.exact)
    (hf : List.Forall₂ (fun c c' => c'.distinct = c.distinct) f f')
    (hE : ∀ i, E (.zeroLiteral .formula i) (.zeroLiteral .formula i))
    (hsmall : ∀ c ∈ f, ∀ l ∈ c, l.var.index ≤ k.bound) :
    Together E (readFormula i f) (readFormula i f') s s' fun r t r' t' =>
      r' = r ∧ ∃ size, Twin (k.resize size) t t' := by
  induction hf generalizing k i s s' with
  | nil => exact ⟨rfl, k.size, { ht with }⟩
  | @cons c c' f f' hd _ ih =>
    refine (ht.readClause hx hd (hE i) (hsmall c List.mem_cons_self)).bind ?_
    rintro _ s₁ r s₁' ⟨rfl, size, ht₁⟩
    cases r with
    | trivial => exact ⟨rfl, size, ht₁⟩
    | ready =>
      exact ih (k := k.resize size) ht₁ hx fun d hd => hsmall d (List.mem_cons_of_mem c hd)

end Formula

section Lines

variable {step : Step} {steps steps' : Array Step}

/-- What is pushed later does not matter to the lines before. -/
theorem getElem?_push_of_some {xs : Array Step} (h : xs[i]? = some step) (new : Step) :
    (xs.push new)[i]? = some step := by
  have hlt := (Array.getElem?_eq_some_iff.mp h).1
  rw [Array.getElem?_push, if_neg (by omega), h]

theorem Bond.Aligned.push (hs : k.Aligned steps steps') (hsize : steps.size = k.rank k.lines)
    (hsize' : steps'.size = k.lines) (hk : k.kept k.lines = true) (hknown : k.Knows step) :
    (k.relength (k.lines + 1)).Aligned (steps.push step) (steps'.push step) := by
  intro j hj
  rcases Nat.lt_succ_iff_lt_or_eq.mp hj with hlt | rfl
  · by_cases hkj : k.kept j = true
    · obtain ⟨old, hold, hold', hold₁⟩ := hs.get hlt hkj
      exact (if_pos hkj).mpr
        ⟨old, getElem?_push_of_some hold _, getElem?_push_of_some hold' _, hold₁⟩
    · have hat := hs j hlt
      rw [if_neg hkj] at hat
      exact (if_neg hkj).mpr (getElem?_push_of_some hat _)
  · refine (if_pos hk).mpr ⟨step, ?_, ?_, hknown⟩
    · exact hsize ▸ Array.getElem?_push_size
    · exact hsize' ▸ Array.getElem?_push_size

/-- More lines of the second run, which are not compared. -/
theorem Bond.Aligned.push_right (hs : k.Aligned steps steps') (step : Step) :
    k.Aligned steps (steps'.push step) := by
  intro j hj
  by_cases hkj : k.kept j = true
  · obtain ⟨old, hold, hold', hold₁⟩ := hs.get hj hkj
    exact (if_pos hkj).mpr ⟨old, hold, getElem?_push_of_some hold' _, hold₁⟩
  · have hat := hs j hj
    rw [if_neg hkj] at hat
    exact (if_neg hkj).mpr (getElem?_push_of_some hat _)

theorem Bond.Aligned.pass (hs : k.Aligned steps steps') (hsize' : steps'.size = k.lines)
    (hk : ¬ k.kept k.lines = true) :
    (k.relength (k.lines + 1)).Aligned steps (steps'.push .ignored) := by
  intro j hj
  rcases Nat.lt_succ_iff_lt_or_eq.mp hj with hlt | rfl
  · exact hs.push_right .ignored j hlt
  · refine (if_neg hk).mpr ?_
    exact hsize' ▸ Array.getElem?_push_size

/-- One more line in common. -/
theorem Twin.push (ht : Twin k s s') (hw : k.whole) (hk : k.kept k.lines = true)
    (hs : k.Knows step) :
    Twin (k.relength (k.lines + 1)) { s with steps := s.steps.push step }
      { s' with steps := s'.steps.push step } := by
  obtain ⟨hsize, hsize'⟩ := ht.whole hw
  refine { ht with steps := ht.steps.push hsize hsize' hk hs, whole := fun _ => ?_ }
  have hrank : (k.relength (k.lines + 1)).rank (k.lines + 1) = k.rank k.lines + 1 :=
    Bond.rank_succ hk
  exact ⟨by rw [Array.size_push, hsize]; exact hrank.symm, by rw [Array.size_push, hsize']; rfl⟩

/-- A line that the second run passes over. -/
theorem Twin.pass (ht : Twin k s s') (hw : k.whole) (hk : ¬ k.kept k.lines = true) :
    Twin (k.relength (k.lines + 1)) s { s' with steps := s'.steps.push .ignored } := by
  obtain ⟨hsize, hsize'⟩ := ht.whole hw
  refine { ht with steps := ht.steps.pass hsize' hk, whole := fun _ => ?_ }
  have hrank : (k.relength (k.lines + 1)).rank (k.lines + 1) = k.rank k.lines :=
    Bond.rank_succ_of_not hk
  exact ⟨by rw [hsize]; exact hrank.symm, by rw [Array.size_push, hsize']; rfl⟩

theorem steady_countDeletion : Steady k E (count Counters.countDeletion) fun _ => True :=
  Steady.count fun v _ => by cases v <;> rfl

theorem steady_countLemma : Steady k E (count Counters.countLemma) fun _ => True :=
  Steady.count fun v _ => by cases v <;> rfl

theorem Twin.readLemma (ht : Twin k s s') (hx : k.exact) (hw : k.whole)
    (hk : k.kept k.lines = true) (hz : x.hasZero = false)
    (hsmall : ∀ l ∈ x, l.var.index ≤ k.bound) :
    Together E (readLemma x) (readLemma x) s s' fun _ t _ t' =>
      ∃ size, Twin ((k.resize size).relength (k.lines + 1)) t t' := by
  refine (steady_countLemma ht).bind fun _ s₁ _ s₁' hp => ?_
  refine (hp.2.store hx hz hsmall).bind ?_
  rintro _ s₂ h s₂' ⟨rfl, ht₂⟩
  refine ⟨_, ht₂.push hw hk ?_⟩
  exact ⟨x.length, Function.update_self .., Nat.zero_le _⟩

/-- Where a deletion is not carried out although it matches nothing. -/
def Passes (settings : Settings) (s : State) (c : Clause) : Prop :=
  settings.ignoreDeletions = true ∨
    settings.strictDeletions = false ∧ s.index.lookup? s.arena c.distinct = none

/-- Settings that treat a line the same. -/
def Treats (settings settings' : Settings) (s : State) (c : Clause) : Prop :=
  settings' = settings ∨ settings'.ignoreDeletions = settings.ignoreDeletions ∧
    s.index.lookup? s.arena c.distinct ≠ none

theorem mem_of_lookup? {u : ClauseIndex} (hl : u.lookup? a x = some (i, h)) :
    h ∈ u.buckets.getD x.digest #[] := by
  simp only [ClauseIndex.lookup?] at hl
  split at hl
  · cases hl
  · simp only [Option.map_eq_some_iff, Prod.mk.injEq] at hl
    obtain ⟨h', hget, -, rfl⟩ := hl
    exact Array.mem_of_getElem? hget

theorem Twin.resolve (ht : Twin k s s') (hx : k.exact)
    (hE : E (.unmatchedDeletion (k.rank j) given) (.unmatchedDeletion j given'))
    (hset : Treats settings settings' s' c) :
    Together E (resolve settings (k.rank j) given c.distinct)
      (resolve settings' j given' c.distinct) s s' fun step t step' t' =>
        step' = step ∧ k.Knows step ∧ Twin k t t' := by
  have hshared := ht.exact hx
  have hig : settings'.ignoreDeletions = settings.ignoreDeletions := by
    rcases hset with rfl | hset
    · rfl
    · exact hset.1
  rw [Engine.resolve, Engine.resolve, hig]
  by_cases hi : settings.ignoreDeletions = true
  · rw [if_pos hi, if_pos hi]
    exact ⟨rfl, trivial, ht⟩
  rw [if_neg hi, if_neg hi]
  have hlook : s'.index.lookup? s'.arena c.distinct = s.index.lookup? s.arena c.distinct := by
    rw [hshared.arena, hshared.index]
  refine Together.bind (P := fun r t r' t' => r' = r ∧ t = s ∧ t' = s' ∧
    r = s.index.lookup? s.arena c.distinct) ⟨hlook, rfl, rfl, rfl⟩ ?_
  rintro _ _ r _ ⟨rfl, rfl, rfl, hr⟩
  cases r with
  | some found =>
    obtain ⟨i, h⟩ := found
    have hmem := hshared.listed _ h (mem_of_lookup? hr.symm)
    simp only [resolveMatch]
    by_cases hlen : c.distinct.length ≤ 1
    · simp only [if_pos hlen]
      exact ⟨rfl, trivial, { ht with }⟩
    · simp only [if_neg hlen]
      refine ⟨rfl, hmem, { ht with exact := fun _ => ⟨hshared.arena, ?_, fun key d hd => ?_⟩ }⟩
      · exact congrArg (·.removeAt c.distinct i) hshared.index
      · simp only [ClauseIndex.removeAt, ClauseIndex.getD_modify] at hd
        split at hd
        · refine hshared.listed c.distinct.digest d ?_
          rw [← Array.mem_toList_iff] at hd ⊢
          exact mem_of_mem_swapRemove hd
        · exact hshared.listed key d hd
  | none =>
    obtain rfl : settings' = settings := by
      rcases hset with rfl | hset
      · rfl
      · exact absurd (hlook.trans hr.symm) hset.2
    simp only [resolveUnmatched]
    by_cases hs : settings'.strictDeletions = true
    · simp only [if_pos hs]
      exact hE
    · simp only [if_neg hs]
      exact ⟨rfl, trivial, { ht with }⟩

theorem Twin.readDeletion (ht : Twin k s s') (hx : k.exact) (hw : k.whole)
    (hk : k.kept k.lines = true)
    (hE : E (.unmatchedDeletion (k.rank k.lines) given) (.unmatchedDeletion k.lines given'))
    (hset : Treats settings settings' s' c) :
    Together E (readDeletion settings (k.rank k.lines) given c.distinct)
      (readDeletion settings' k.lines given' c.distinct) s s' fun _ t _ t' =>
        Twin (k.relength (k.lines + 1)) t t' := by
  refine (steady_countDeletion ht).run.bind ?_
  rintro _ s₁ _ s₁' ⟨-, hcount, -, ht₁⟩
  have hset₁ : Treats settings settings' s₁' c := by
    cases hcount
    exact hset
  refine (ht₁.resolve hx hE hset₁).bind ?_
  rintro _ s₂ step s₂' ⟨rfl, hknown, ht₂⟩
  have hrecord : ∀ {t t'}, Twin k t t' → Together E (recordStep step) (recordStep step)
      t t' fun _ t _ t' => Twin (k.relength (k.lines + 1)) t t' := fun ht => ht.push hw hk hknown
  by_cases hstep : step = .ignored
  · simp only [if_pos hstep]
    exact (steady_countIgnored ht₂).bind fun _ _ _ _ hp => hrecord hp.2
  · simp only [if_neg hstep]
    exact hrecord ht₂

theorem readLine_last {b : Bool} (h : readLine settings j line s = .ok (b, t)) :
    b = true ↔ line = .add [] := by
  refine Ends.of_ok (F := True) (R := fun _ _ => True) (Q := fun b _ => b = true ↔ line = .add [])
    ?_ h
  simp only [readLine, ends_bind]
  refine ends_normalize (fun _ => trivial) fun _ log => ?_
  cases line with
  | delete c =>
    rw [ends_bind]
    exact ends_of_forall fun _ _ => by simp
  | add c =>
    rw [ends_bind]
    refine ends_of_forall fun _ _ => ?_
    rw [ends_when]
    refine ends_of_forall fun _ _ => ?_
    rw [ends_pure, List.isEmpty_iff, Derivation.Line.clause, Clause.distinct_eq_nil,
      Derivation.Line.add.injEq]

/-- A line of the same kind with the same literals, but for repetitions. -/
def Restates : Derivation.Line → Derivation.Line → Prop
  | .add c, .add c' | .delete c, .delete c' => c'.distinct = c.distinct
  | _, _ => False

theorem Restates.refl (line : Derivation.Line) : Restates line line := by
  cases line <;> rfl

theorem Restates.distinct (h : Restates line line') :
    line'.clause.distinct = line.clause.distinct := by
  cases line <;> cases line' <;> first | exact h | exact h.elim

/-- How the rejections of a line that both runs read are related. -/
structure Bond.Refuses (k : Bond) (E : Rejection → Rejection → Prop) (j : Nat)
    (line line' : Derivation.Line) : Prop where
  zero : E (.zeroLiteral .derivation (k.rank j)) (.zeroLiteral .derivation j)
  unmatched : E (.unmatchedDeletion (k.rank j) line.clause) (.unmatchedDeletion j line'.clause)

theorem Bond.refuses_matches (hk : k.kept j = true) : k.Refuses k.Matches j line line :=
  ⟨⟨rfl, by rintro _ ⟨⟩; exact hk⟩, ⟨rfl, by rintro _ ⟨⟩; exact hk⟩⟩

/-- A line that both runs read. -/
theorem Twin.readLine (ht : Twin k s s') (hx : k.exact) (hw : k.whole)
    (hk : k.kept k.lines = true) (ha : Restates line line') (hE : k.Refuses E k.lines line line')
    (hsmall : ∀ l ∈ line.clause, l.var.index ≤ k.bound)
    (hset : ∀ c, line = .delete c → Treats settings settings' s' c) :
    Together E (readLine settings (k.rank k.lines) line)
      (readLine settings' k.lines line') s s' fun b t b' t' =>
        b' = b ∧ ∃ size, Twin ((k.resize size).relength (k.lines + 1)) t t' := by
  refine (paired_normalize ha.distinct (fun _ => hE.zero) ht).run.bind ?_
  rintro _ s₁ x s₁' ⟨-, hrun', ⟨rfl, rfl, hz⟩, ht₁⟩
  obtain ⟨log, rfl⟩ : ∃ log, s₁' = { s' with log } :=
    (ends_normalize (F := True) (R := fun _ _ => True) (Q := fun _ t => ∃ log, t = { s' with log })
      (fun _ => trivial) fun _ log => ⟨log, rfl⟩).of_ok hrun'
  match line, line', ha with
  | .delete c, .delete c', hd =>
    refine (ht₁.readDeletion hx hw hk hE.unmatched (hset c rfl)).bind fun _ t _ t' ht₂ => ?_
    exact ⟨rfl, k.size, ht₂⟩
  | .add c, .add c', hd =>
    refine (ht₁.readLemma hx hw hk (hasZero_distinct hz)
      fun l hl => hsmall l (Clause.mem_distinct.mp hl)).bind ?_
    rintro _ t _ t' ⟨size, ht₂⟩
    by_cases he : (Derivation.Line.add c).clause.distinct.isEmpty = true
    · rw [if_pos he, if_pos he]
      exact ⟨rfl, size, { ht₂ with }⟩
    · rw [if_neg he, if_neg he]
      exact ⟨rfl, size, ht₂⟩

/-- A line that only the second run has. -/
theorem Twin.readPassed (ht : Twin k s s') (hw : k.whole) (hk : ¬ k.kept k.lines = true)
    (hv : k.scope ≠ .all) (hz : c.hasZero = false) (hp : Passes settings s' c) :
    ∃ t', Engine.readLine settings k.lines (.delete c) s' = .ok (false, t') ∧
      Twin (k.relength (k.lines + 1)) s t' := by
  have hpass : ∀ log n, n.within k.scope = s'.counters.within k.scope →
      Twin (k.relength (k.lines + 1)) s
        { s' with log, counters := n, steps := s'.steps.push .ignored } := fun log n hn =>
    { ht.pass hw hk with counters := hn.trans ht.counters }
  have hends : Ends False (fun _ _ => False) (Engine.readLine settings k.lines (.delete c)) s'
      fun b t' => b = false ∧ Twin (k.relength (k.lines + 1)) s t' := by
    simp only [Engine.readLine, ends_bind]
    refine ends_normalize (fun hc => ?_) fun _ log => ?_
    · rw [Derivation.Line.clause, hz] at hc
      cases hc
    simp only [Engine.readDeletion, Derivation.Line.clause, ends_bind, ends_count, ends_pure]
    have hend : ∀ log, Twin (k.relength (k.lines + 1)) s { s' with
        log, counters := s'.counters.countDeletion.countIgnored,
        steps := s'.steps.push .ignored } := by
      intro log
      refine hpass log _ ?_
      cases hs : k.scope with
      | all => exact absurd hs hv
      | lemmas | work => rfl
    by_cases hi : settings.ignoreDeletions = true
    · simp only [Engine.resolve, ends_ite, if_pos hi, ends_pure, if_true, ends_bind, ends_count,
        recordStep, ends_modify]
      exact ⟨trivial, hend log⟩
    · obtain ⟨hs, hl⟩ := hp.resolve_left hi
      simp only [Engine.resolve, ends_ite, if_neg hi, ends_bind, ends_look, hl, resolveUnmatched,
        hs, Bool.false_eq_true, if_false, ends_emit, ends_pure, if_true, ends_count, recordStep,
        ends_modify]
      exact ⟨trivial, hend _⟩
  obtain ⟨b, t', hrun, rfl, ht'⟩ := hends.exists_ok
  exact ⟨t', hrun, ht'⟩

end Lines

end UnsatCore.Engine
