import UnsatCore.Proofs.Framing
import UnsatCore.Proofs.Matching

/-! What is wrong with the input is found while it is read, and what comes first is reported: a
clause that ends the reading of the formula, and then a line that is objected to. -/
namespace UnsatCore

variable {settings : Settings} {f read rest : Formula} {d lines more : Derivation} {c k : Clause}
  {i j n : Nat} {l : Literal} {line : Derivation.Line} {r : Rejection}

/-- Number `i` is the first one with property `p`. -/
def First (p : Nat → Prop) (i : Nat) : Prop := p i ∧ ∀ j < i, ¬ p j

theorem First.unique {p : Nat → Prop} (h : First p i) (h' : First p j) : i = j := by
  rcases Nat.lt_trichotomy i j with hlt | rfl | hlt
  · exact (h'.2 i hlt h.1).elim
  · rfl
  · exact (h.2 j hlt h'.1).elim

/-- Reading ends with clause `i`: it has a 0, or it is empty, or it is a unit that clashes with an
earlier one. -/
def Formula.Stops (f : Formula) (i : Nat) : Prop :=
  ∃ c, f[i]? = some c ∧ (c.hasZero = true ∨ c = [] ∨
    ∃ l, c.Same [l] ∧ ∃ k ∈ f.take i, k.Same [-l])

namespace Formula

theorem Stops.lt (h : f.Stops i) : i < f.length := by
  obtain ⟨c, hc, -⟩ := h
  exact (List.getElem?_eq_some_iff.mp hc).1

theorem stops_iff : f.Stops i ↔ ∃ c ∈ f[i]?, c.hasZero = true ∨ c = [] ∨
    ∃ l ∈ c, c.Same [l] ∧ ∃ k ∈ f.take i, k.Same [-l] := by
  have hmem : ∀ (c : Clause) l, c.Same [l] → l ∈ c := fun c l h => (h l).mpr (by simp)
  constructor
  · rintro ⟨c, hc, hz | hnil | ⟨l, hl, hk⟩⟩
    · exact ⟨c, hc, Or.inl hz⟩
    · exact ⟨c, hc, Or.inr (Or.inl hnil)⟩
    · exact ⟨c, hc, Or.inr (Or.inr ⟨l, hmem c l hl, hl, hk⟩)⟩
  · rintro ⟨c, hc, hz | hnil | ⟨l, -, hl, hk⟩⟩
    · exact ⟨c, hc, Or.inl hz⟩
    · exact ⟨c, hc, Or.inr (Or.inl hnil)⟩
    · exact ⟨c, hc, Or.inr (Or.inr ⟨l, hl, hk⟩)⟩

instance (f : Formula) (i : Nat) : Decidable (f.Stops i) := decidable_of_iff _ stops_iff.symm

end Formula

/-- What is wrong with line `j`: it has a 0, or it is a deletion that has to match and does not. -/
def Derivation.objection (settings : Settings) (f : Formula) (d : Derivation) (j : Nat) :
    Option Rejection :=
  (d[j]?).bind fun line =>
    if line.clause.hasZero = true then some (.zeroLiteral .derivation j)
    else if settings.strictDeletions = true ∧ settings.ignoreDeletions = false ∧
        d.isMatched f j = false then some (.unmatchedDeletion j line.clause)
    else none

/-- Line `j` is the first one that is objected to, and it is read. -/
def Derivation.FirstObjection (settings : Settings) (f : Formula) (d : Derivation) (j : Nat) :
    Prop :=
  d.Reaches j ∧ First (fun j => d.objection settings f j ≠ none) j

/-- No line that is read is objected to. -/
def Derivation.Admitted (settings : Settings) (f : Formula) (d : Derivation) : Prop :=
  ∀ j, d.Reaches j → d.objection settings f j = none

/-- Found after the input was read: the derivation does not refute the formula. -/
def Rejection.Late (r : Rejection) : Prop :=
  r = .noConflict ∨ (∃ j, r = .conflictNotFound j) ∨ ∃ j c, r = .lemmaNotImplied j c

theorem Clause.distinct_eq_singleton_iff : c.distinct = [l] ↔ c.Same [l] := by
  constructor
  · exact fun h => c.distinct_same.symm.trans (h ▸ Same.refl [l])
  · intro h
    have hp := (c.distinct_same.trans h).perm c.nodup_distinct (List.nodup_singleton l)
    exact List.perm_singleton.mp hp

namespace Engine

open CheckM

variable {s t : State} {F : Prop}

section Formula

/-- Nothing is counted while the formula is read. -/
theorem keeps_readFormula (i : Nat) (f : Formula) : Keeps State.counters (readFormula i f) :=
  .readFormula i f

/-- A literal is false while the formula is read if there was a unit that says so. -/
theorem Loaded.mem_falsified_iff (hs : Loaded n F f d s) :
    l ∈ s.trail.falsified ↔ ∃ k ∈ f, k.Same [-l] := by
  constructor
  · intro hl
    rw [← Trail.map_literal_entries] at hl
    obtain ⟨e, he, rfl⟩ := List.mem_map.mp hl
    obtain ⟨h, hh, -, hlit⟩ := hs.forcing e he
    obtain ⟨k, hk, hgiven⟩ := hs.exists_given hh
    exact ⟨k, hk, Clause.distinct_eq_singleton_iff.mp (hgiven.symm.trans hlit)⟩
  · rintro ⟨k, hk, hsame⟩
    have hm : k.distinct ∈ s.origins.toList.map s.arena.literals := by
      rw [hs.origins]
      exact List.mem_map_of_mem hk
    obtain ⟨h, hh, hlit⟩ := List.mem_map.mp hm
    have hunit := hs.unit h hh (-l) (hlit.trans (Clause.distinct_eq_singleton_iff.mpr hsame))
    rwa [Literal.neg_neg] at hunit

theorem ends_settleClause_trivial (hs : Loaded n F read [] s) (ht : t.trail = s.trail)
    (hsm : ∀ l ∈ c, l.var.index ≤ n) (h : Handle) :
    Ends True (fun _ _ => True) (settleClause i h c.distinct) t fun r _ =>
      r = .trivial ↔ c = [] ∨ ∃ l, c.Same [l] ∧ ∃ k ∈ read, k.Same [-l] := by
  have hfal : ∀ l, c.Same [l] →
      ((∃ l, c.Same [l] ∧ ∃ k ∈ read, k.Same [-l]) ↔ l ∈ s.trail.falsified) := by
    intro l hl
    rw [hs.mem_falsified_iff]
    constructor
    · rintro ⟨m, hm, hk⟩
      obtain rfl : l = m := by simpa using (hl.symm.trans hm) l
      exact hk
    · exact fun hk => ⟨l, hl, hk⟩
  rcases hd : c.distinct with _ | ⟨x, _ | ⟨y, rest⟩⟩
  · simp only [settleClause, ends_bind, ends_emit, ends_pure]
    exact iff_of_true trivial (Or.inl (Clause.distinct_eq_nil.mp hd))
  · have hx := Clause.distinct_eq_singleton_iff.mp hd
    have hsmall : x.var.index ≤ n := hsm x ((hx x).mpr (by simp))
    have hne : c ≠ [] := by
      rintro rfl
      cases hd
    simp only [settleClause, assignUnit, isFalseNow, ends_bind, ends_ask, ht,
      hs.coherent.trail.isFalse hsmall, yields_ok, ends_ite, decide_eq_true_eq, ends_emit,
      ends_pure]
    split
    · rename_i hf
      exact iff_of_true trivial (Or.inr ((hfal x hx).mpr hf))
    · rename_i hf
      have hready : Intake.ready = .trivial ↔
          c = [] ∨ ∃ l, c.Same [l] ∧ ∃ k ∈ read, k.Same [-l] :=
        iff_of_false (by simp) (not_or.mpr ⟨hne, fun he => hf ((hfal x hx).mp he)⟩)
      refine ends_of_forall fun _ _ => ?_
      split
      · exact hready
      · exact ends_of_forall fun _ _ => hready
  · rw [settleClause, ends_bind]
    · refine ends_of_forall fun _ _ => iff_of_false (by simp) ?_
      rintro (rfl | ⟨l, hl, -⟩)
      · cases hd
      · rw [← Clause.distinct_eq_singleton_iff, hd] at hl
        cases hl
    · simp
    · simp

/-- How a clause of the formula ends the reading is told by the clauses alone. -/
theorem ends_readClause_trivial (hs : Loaded n F read [] s) (hsm : ∀ l ∈ c, l.var.index ≤ n) :
    Ends True (fun _ _ => True) (readClause i c) s fun r _ => c.hasZero = false ∧
      (r = .trivial ↔ c = [] ∨ ∃ l, c.Same [l] ∧ ∃ k ∈ read, k.Same [-l]) := by
  simp only [readClause, ends_bind]
  refine ends_normalize (fun _ => trivial) fun hz log => ?_
  refine ends_store_grown hs.coherent.stored.wf (hasZero_distinct hz) (fun _ => trivial)
    fun h a' hg => ?_
  simp only [recordOrigin, ends_modify]
  exact (ends_settleClause_trivial hs (t := { s with
    arena := a', index := s.index.insert c.distinct h, origins := s.origins.push h, log })
    rfl hsm h).mono fun _ _ hr => ⟨hz, hr⟩

/-- How reading the formula ends. -/
def Checked (n : Nat) (F : Prop) (f : Formula) (s : State) : Intake → Prop
  | .trivial => ∃ i c, First f.Stops i ∧ f[i]? = some c ∧ c.hasZero = false
  | .ready => (∀ i, ¬ f.Stops i) ∧ Loaded n F f [] s

theorem ends_readFormula_stops (read : Formula) (hfit : Fitting n F f d)
    (hs : Loaded n F read [] s) (hf : f = read ++ rest) (hno : ∀ i < read.length, ¬ f.Stops i) :
    Ends F (fun r _ => ∃ i c, First f.Stops i ∧ f[i]? = some c ∧ c.hasZero = true ∧
        r = .zeroLiteral .formula i)
      (readFormula read.length rest) s fun r s' => Checked n F f s' r := by
  induction rest generalizing read s with
  | nil =>
    rw [List.append_nil] at hf
    subst hf
    simp only [readFormula, reportFormula, ends_bind, ends_look, ends_emit, ends_pure]
    exact ⟨fun i hi => hno i hi.lt hi, hs.noted _ _⟩
  | cons c rest ih =>
    have hmem : c ∈ f ++ d.map Derivation.Line.clause := by simp [hf]
    have hlen : f.length = read.length + 1 + rest.length := by
      simp [hf]
      omega
    have hget : f[read.length]? = some c := by simp [hf]
    have htake : f.take read.length = read := by simp [hf]
    have hstops : f.Stops read.length ↔ c.hasZero = true ∨ c = [] ∨
        ∃ l, c.Same [l] ∧ ∃ k ∈ read, k.Same [-l] := by
      rw [Formula.Stops, hget, htake]
      simp
    have hclause := (ends_readClause (i := read.length)
      (R := fun r _ => c.hasZero = true ∧ r = .zeroLiteral .formula read.length) hs
      (hfit.small c hmem) (hfit.least c hmem) (fun hmany => hfit.many (by omega))
      fun hz _ => ⟨hz, rfl⟩).and (ends_readClause_trivial hs (hfit.small c hmem))
    simp only [readFormula, ends_bind]
    refine hclause.imp And.left ?_ ?_
    · rintro r s' ⟨⟨hz, rfl⟩, -⟩
      exact ⟨read.length, c, ⟨hstops.mpr (Or.inl hz), hno⟩, hget, hz, rfl⟩
    · rintro r s' ⟨hopened, hz, htrivial⟩
      cases r with
      | trivial =>
        exact ⟨read.length, c, ⟨hstops.mpr (Or.inr (htrivial.mp rfl)), hno⟩, hget, hz⟩
      | ready =>
        have hgoes : ¬ f.Stops read.length := by
          rw [hstops, hz]
          rintro (hz | hstop)
          · cases hz
          · cases htrivial.mpr hstop
        have hall : ∀ i < (read ++ [c]).length, ¬ f.Stops i := by
          rw [List.length_append, List.length_singleton]
          exact Nat.forall_lt_succ_right.mpr ⟨hno, hgoes⟩
        simpa using ih (read ++ [c]) hopened (by simp [hf]) hall

end Formula

section Lines

theorem objection_add (hj : d[j]? = some (.add c)) (hz : c.hasZero = false) :
    d.objection settings f j = none := by
  simp [Derivation.objection, Derivation.Line.clause, hj, hz, Derivation.isMatched]

theorem objection_delete (hj : d[j]? = some (.delete c)) (hz : c.hasZero = false) :
    d.objection settings f j =
      if settings.strictDeletions = true ∧ settings.ignoreDeletions = false ∧
        d.isMatched f j = false then some (.unmatchedDeletion j c) else none := by
  simp [Derivation.objection, Derivation.Line.clause, hj, hz]

/-- A deletion that is resolved is refused only if it has to match and does not. -/
theorem ends_resolve_objection (hl : Loaded n F f (d.take j) s)
    (hn : settings.ignoreDeletions = false → s.Names (Derivation.nameable f (d.take j)))
    (hj : d[j]? = some (.delete c)) (hz : c.hasZero = false) :
    Ends True (fun r _ => d.objection settings f j = some r) (resolve settings j c c.distinct) s
      fun _ _ => d.objection settings f j = none := by
  rw [objection_delete hj hz]
  by_cases hig : settings.ignoreDeletions = true
  · simp [resolve, hig]
  have hig : settings.ignoreDeletions = false := by simpa using hig
  have hlook := hl.lookup?_ne_none_iff (c := c) (hn hig)
  have hmatched : d.isMatched f j = true ↔
      ∃ k ∈ Derivation.nameable f (d.take j), c.Same k := by
    simp [Derivation.isMatched, hj]
  simp only [resolve, hig, Bool.false_eq_true, if_false, ends_bind, ends_look]
  cases hfind : s.index.lookup? s.arena c.distinct with
  | some found =>
    have hm := hmatched.mpr (hlook.mp (by simp [hfind]))
    simp only [hm, Bool.true_eq_false, and_false, if_false, resolveMatch, ends_ite, ends_bind,
      ends_emit, ends_modify, ends_pure, ite_self]
  | none =>
    have hm : d.isMatched f j = false := by
      rw [← Bool.not_eq_true, hmatched, ← hlook, hfind]
      simp
    simp only [resolveUnmatched, ends_ite, ends_bind, ends_emit, ends_pure, ends_reject]
    split <;> simp [*]

/-- What a line is refused for is told by the clauses and lines alone. -/
theorem ends_readLine_objection (hl : Loaded n F f (d.take j) s)
    (hn : settings.ignoreDeletions = false → s.Names (Derivation.nameable f (d.take j)))
    (hj : d[j]? = some line) :
    Ends True (fun r _ => d.objection settings f j = some r) (readLine settings j line) s
      fun _ _ => d.objection settings f j = none := by
  by_cases hz : line.clause.hasZero = true
  · simp only [readLine, ends_bind]
    refine ends_normalize (fun _ => ?_) fun hno _ => ?_
    · simp [Derivation.objection, hj, hz]
    · rw [hz] at hno
      cases hno
  · have hz : line.clause.hasZero = false := by simpa using hz
    cases line with
    | add c =>
      simp only [readLine, ends_bind]
      refine ends_normalize (fun hc => ?_) fun _ log => ?_
      · rw [hz] at hc
        cases hc
      simp only [readLemma, ends_bind, ends_count]
      refine ends_store_grown hl.coherent.stored.wf (hasZero_distinct hz) (fun _ => trivial)
        fun h a' hg => ?_
      rw [recordStep, ends_modify, ends_when]
      simp only [ends_ite, ends_emit, ends_pure, ite_self]
      exact objection_add hj hz
    | delete c =>
      refine ends_readLine_delete hz fun log => ?_
      have hl' := hl.noted log s.counters.countDeletion
      exact (ends_resolve_objection hl' hn hj hz).mono fun _ _ hnone _ => hnone

/-- The first line that is objected to ends the reading. -/
theorem ends_readLines_objection (settings : Settings) (lines : Derivation) (hfit : Fitting n F f d)
    (hl : Loaded n F f lines s) (hd : d = lines ++ more) (hno : .add [] ∉ lines)
    (hn : settings.ignoreDeletions = false → s.Names (Derivation.nameable f lines))
    (hclean : ∀ i < lines.length, ¬ d.objection settings f i ≠ none) :
    Ends F (fun r _ => ∃ j, d.FirstObjection settings f j ∧ d.objection settings f j = some r)
      (readLines settings lines.length more) s fun _ _ => d.Admitted settings f := by
  induction more generalizing lines s with
  | nil =>
    rw [List.append_nil] at hd
    subst hd
    intro j _
    rcases Nat.lt_or_ge j d.length with hj | hj
    · exact not_not.mp (hclean j hj)
    · simp [Derivation.objection, List.getElem?_eq_none hj]
  | cons line more ih =>
    have hj : d[lines.length]? = some line := by simp [hd]
    have htake : d.take lines.length = lines := by simp [hd]
    have hreach : d.Reaches lines.length := by
      intro i hi he
      rw [hd, List.getElem?_append_left hi] at he
      exact hno (List.mem_of_getElem? he)
    have hR : Objects settings f d fun _ _ => True := fun _ _ _ _ => trivial
    have hline := (ends_readLine hfit hR hl hd hno).and
      (ends_readLine_objection (htake.symm ▸ hl) (htake.symm ▸ hn) hj)
    simp only [readLines, ends_bind]
    refine hline.run.imp And.left ?_ ?_
    · rintro r s' ⟨-, hobj⟩
      exact ⟨lines.length, ⟨hreach, by simp [hobj], hclean⟩, hobj⟩
    · rintro last t ⟨hrun, ⟨hl', hlast⟩, hnone⟩
      have hall : ∀ i < (lines ++ [line]).length, ¬ d.objection settings f i ≠ none := by
        rw [List.length_append, List.length_singleton]
        exact Nat.forall_lt_succ_right.mpr ⟨hclean, not_not.mpr hnone⟩
      simp only [ends_ite, ends_pure]
      split
      · rename_i hend
        intro j hr
        refine not_not.mp (hall j ?_)
        by_contra hlt
        rw [List.length_append, List.length_singleton] at hlt
        exact hr lines.length (by omega) (hj.trans (congrArg some (hlast.mp hend)))
      · rename_i hgoes
        have hno' : .add [] ∉ lines ++ [line] := by
          rw [List.mem_append, List.mem_singleton]
          rintro (hm | rfl)
          · exact hno hm
          · exact hgoes (hlast.mpr rfl)
        have hn' : settings.ignoreDeletions = false →
            t.Names (Derivation.nameable f (lines ++ [line])) := fun hig =>
          (ends_readLine_names hl (hn hig) hig).of_ok hrun
        simpa using ih (lines ++ [line]) hl' (by simp [hd]) hno' hn' hall

end Lines

section Run

/-- What a run over a formula that was read is rejected for. -/
def Refused (settings : Settings) (f : Formula) (d : Derivation) (r : Rejection) : Prop :=
  (∃ j, d.FirstObjection settings f j ∧ d.objection settings f j = some r) ∨
  d.Admitted settings f ∧ r.Late

theorem ends_refute_refused (hfit : Fitting n F f d) (hs : Loaded n F f [] s) :
    Ends F (fun r _ => Refused settings f d r) (refute settings f d) s fun core _ =>
      d.Admitted settings f ∧ core.trivial = false := by
  have hR : Objects settings f d fun _ _ => True := fun _ _ _ _ => trivial
  have hlines := (ends_readLines hfit hR hs rfl List.not_mem_nil).and
    (ends_readLines_objection settings [] hfit hs rfl List.not_mem_nil
      (fun _ => hs.names) (by simp))
  simp only [refute, readDerivation, ends_bind, ends_look, ends_emit]
  refine hlines.imp And.left (fun r s' h => Or.inl h.2) ?_
  rintro - s₁ ⟨⟨lines, hread⟩, hno⟩
  have hl := hread.loaded.noted (s₁.log.push (.derivationRead s₁.steps.size d.length s₁.counters))
    s₁.counters
  have hb : hl.ledger.Blames fun r _ => Refused settings f d r :=
    ⟨fun i c s hu => Or.inr ⟨hno, Or.inr (Or.inl ⟨i, rfl⟩)⟩,
      fun i c s hu => Or.inr ⟨hno, Or.inr (Or.inr ⟨i, c, rfl⟩)⟩,
      fun s _ => Or.inr ⟨hno, Or.inl rfl⟩⟩
  refine (ends_replay hl hb).mono ?_
  rintro r s₂ ⟨past, A, hr, ha, hpast⟩
  cases r with
  | formula =>
    obtain rfl : past = [] := hpast
    exact (ends_conclude hl hread.head hr ha).mono fun core _ h => ⟨hno, h.1⟩
  | step last =>
    simp only [ends_bind]
    refine (ends_justify hb hr ha hpast ?_).mono ?_
    · intro i c hi
      have hd := Derivation.getElem?_of_isPrefix hread.head hi
      simp [hd, Derivation.Line.clause]
    · rintro - s₃ ⟨A', hr', ha'⟩
      exact (ends_conclude hl hread.head hr' ha').mono fun core _ h => ⟨hno, h.1⟩

theorem ends_run_outcome (settings : Settings) (hfit : Fitting n F f d) :
    Ends F (fun r _ =>
        (∃ i c, First f.Stops i ∧ f[i]? = some c ∧ c.hasZero = true ∧ r = .zeroLiteral .formula i) ∨
        (∀ i, ¬ f.Stops i) ∧ Refused settings f d r)
      (run settings f d) (.initial n) fun core _ =>
        (∃ i c, First f.Stops i ∧ f[i]? = some c ∧ c.hasZero = false ∧ core = ⟨true, [], {}⟩) ∨
        (∀ i, ¬ f.Stops i) ∧ d.Admitted settings f ∧ core.trivial = false := by
  have hformula := ends_readFormula_stops [] hfit
    ((loaded_initial n F).noted #[.started f.length d.length] {}) rfl (by simp)
  simp only [run, ends_bind, ends_emit]
  refine hformula.run.imp id (fun _ _ h => Or.inl h) ?_
  rintro r s ⟨hrun, hr⟩
  cases r with
  | trivial =>
    obtain ⟨i, c, hfirst, hi, hz⟩ := hr
    have hcount : s.counters = {} := keeps_readFormula _ _ hrun
    simp only [concludeTrivial, ends_bind, ends_emit, ends_look, ends_pure, hcount]
    exact Or.inl ⟨i, c, hfirst, hi, hz, trivial⟩
  | ready =>
    refine (ends_refute_refused hfit hr.2).imp id (fun _ _ h => Or.inr ⟨hr.1, h⟩) ?_
    exact fun core _ h => Or.inr ⟨hr.1, h⟩

end Run

end Engine

open Engine

/-- The result of a run that meets no fault. -/
theorem result_of_ends {R : Rejection → Prop} {Q : Core → Prop}
    (h : Ends False (fun r _ => R r) (run settings f d) (.initial (maxVar f d)) fun core _ =>
      Q core) :
    (∃ core, (extract settings f d).result = .ok core ∧ Q core) ∨
      ∃ r, (extract settings f d).result = .error (.rejected r) ∧ R r := by
  unfold Ends at h
  unfold extract
  split at h
  · rename_i core s he
    exact Or.inl ⟨core, by rw [he], h⟩
  · rename_i r s he
    exact Or.inr ⟨r, by rw [he], h⟩
  · exact h.elim

/-- The first thing that is wrong with the input is reported: what ends the reading of the formula
whatever the derivation is, and then a line, even if the formula is refuted without it. -/
theorem extract_loading (hl : ∀ c ∈ f ++ d.map Derivation.Line.clause, ∀ l ∈ c,
      l.val ≠ Int32.minValue) (hm : f.length + d.length < 2 ^ 31) (settings : Settings) :
    (∀ i c, First f.Stops i → f[i]? = some c → (extract settings f d).result =
      if c.hasZero = true then .error (.rejected (.zeroLiteral .formula i))
      else .ok ⟨true, [], {}⟩) ∧
    ((∀ i, ¬ f.Stops i) →
      (∀ j r, d.FirstObjection settings f j → d.objection settings f j = some r →
        (extract settings f d).result = .error (.rejected r)) ∧
      (d.Admitted settings f →
        (∃ core, (extract settings f d).result = .ok core ∧ core.trivial = false) ∨
        ∃ r, (extract settings f d).result = .error (.rejected r) ∧ r.Late)) := by
  have hfit : Fitting (maxVar f d) False f d :=
    fitting_maxVar hl fun hge => Nat.not_lt.mpr hge (Nat.lt_of_lt_of_eq hm (by decide))
  have hresult := result_of_ends (ends_run_outcome settings hfit)
  refine ⟨fun i c hfirst hi => ?_, fun hno => ⟨fun j r hj hr => ?_, fun had => ?_⟩⟩
  · have hsame : ∀ {i' c'}, First f.Stops i' → f[i']? = some c' → i' = i ∧ c' = c := by
      intro i' c' hfirst' hi'
      obtain rfl := hfirst'.unique hfirst
      exact ⟨rfl, Option.some_inj.mp (hi'.symm.trans hi)⟩
    rcases hresult with ⟨core, hok, ⟨i', c', hfirst', hi', hz, rfl⟩ | ⟨hno, -⟩⟩ |
      ⟨r, herr, ⟨i', c', hfirst', hi', hz, rfl⟩ | ⟨hno, -⟩⟩
    · obtain ⟨rfl, rfl⟩ := hsame hfirst' hi'
      rw [hok, hz]
      rfl
    · exact (hno i hfirst.1).elim
    · obtain ⟨rfl, rfl⟩ := hsame hfirst' hi'
      rw [herr, if_pos hz]
    · exact (hno i hfirst.1).elim
  · rcases hresult with ⟨core, hok, ⟨i, c, hfirst, -⟩ | ⟨-, had, -⟩⟩ |
      ⟨r', herr, ⟨i, c, hfirst, -⟩ | ⟨-, ⟨j', hj', hr'⟩ | ⟨had, -⟩⟩⟩
    · exact (hno i hfirst.1).elim
    · exact (hj.2.1 (had j hj.1)).elim
    · exact (hno i hfirst.1).elim
    · obtain rfl := hj'.2.unique hj.2
      rw [herr, Option.some_inj.mp (hr'.symm.trans hr)]
    · exact (hj.2.1 (had j hj.1)).elim
  · rcases hresult with ⟨core, hok, ⟨i, c, hfirst, -⟩ | ⟨-, -, htrivial⟩⟩ |
      ⟨r, herr, ⟨i, c, hfirst, -⟩ | ⟨-, ⟨j, hj, hr⟩ | ⟨-, hlate⟩⟩⟩
    · exact (hno i hfirst.1).elim
    · exact Or.inl ⟨core, hok, htrivial⟩
    · exact (hno i hfirst.1).elim
    · exact (hj.2.1 (had j hj.1)).elim
    · exact Or.inr ⟨r, herr, hlate⟩

/-- Two units clash, whatever comes later. A deletion that matches nothing is reported although the
formula is refuted by propagation, and although there is a 0 in the next line. -/
theorem extract_loading_clash :
    (extract {} [[⟨1⟩], [⟨-1⟩, ⟨-1⟩], [⟨0⟩]] [.add [⟨0⟩]]).result = .ok ⟨true, [], {}⟩ ∧
    (extract {} [[⟨1⟩], [⟨-1⟩, ⟨2⟩], [⟨-2⟩, ⟨-1⟩]] [.delete [⟨3⟩, ⟨1⟩], .add [⟨0⟩]]).result =
      .error (.rejected (.unmatchedDeletion 0 [⟨3⟩, ⟨1⟩])) := by
  constructor
  · exact (extract_loading (by decide) (by decide) {}).1 1 [⟨-1⟩, ⟨-1⟩]
      ⟨by decide, by decide⟩ rfl
  · have hgoes : ∀ i < 3, ¬ Formula.Stops [[⟨1⟩], [⟨-1⟩, ⟨2⟩], [⟨-2⟩, ⟨-1⟩]] i := by decide
    refine ((extract_loading (by decide) (by decide) {}).2 fun i hi => ?_).1 0 _
      ⟨nofun, by decide, nofun⟩ (by decide)
    exact hgoes i hi.lt hi

end UnsatCore
