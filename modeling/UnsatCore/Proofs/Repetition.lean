import UnsatCore.Proofs.Sifting

/-! Repeated literals are irrelevant: an input gives the same result as the one in which every
clause is reduced to the first occurrences of its literals. -/
namespace UnsatCore

variable {settings : Settings} {f : Formula} {d : Derivation} {c seen : Clause} {r r' : Rejection}

section Reducing

theorem Clause.distinctFrom_of_nodup (hc : c.Nodup) (hs : ∀ l ∈ c, l ∉ seen) :
    distinctFrom seen c = c := by
  induction c generalizing seen with
  | nil => rfl
  | cons m c ih =>
    obtain ⟨hm, hc⟩ := List.nodup_cons.mp hc
    rw [distinctFrom, if_neg (by simpa using hs m List.mem_cons_self), ih hc]
    intro l hl hseen
    rcases List.mem_cons.mp hseen with rfl | hseen
    · exact hm hl
    · exact hs l (List.mem_cons_of_mem m hl) hseen

theorem Clause.distinct_distinct (c : Clause) : c.distinct.distinct = c.distinct :=
  distinctFrom_of_nodup c.nodup_distinct fun _ _ => List.not_mem_nil

theorem Clause.maxVar_distinct (c : Clause) : c.distinct.maxVar = c.maxVar := by
  refine Nat.le_antisymm ?_ ?_
  · exact maxVar_le_iff.mpr fun l hl => index_le_maxVar (mem_distinct.mp hl)
  · exact maxVar_le_iff.mpr fun l hl => index_le_maxVar (mem_distinct.mpr hl)

/-- Every clause with the first occurrences of its literals only. -/
def Formula.reduced (f : Formula) : Formula := f.map Clause.distinct

theorem Formula.maxVar_reduced (f : Formula) : f.reduced.maxVar = f.maxVar := by
  induction f with
  | nil => rfl
  | cons c f ih =>
    calc Formula.maxVar (Formula.reduced (c :: f))
        = max c.distinct.maxVar (Formula.maxVar (Formula.reduced f)) := rfl
      _ = max c.maxVar (Formula.maxVar f) := by rw [c.maxVar_distinct, ih]

def Derivation.Line.reduced : Line → Line
  | add c => add c.distinct
  | delete c => delete c.distinct

def Derivation.reduced (d : Derivation) : Derivation := d.map Line.reduced

theorem Derivation.clauses_reduced (d : Derivation) :
    d.reduced.map Line.clause = Formula.reduced (d.map Line.clause) := by
  rw [reduced, Formula.reduced, List.map_map, List.map_map]
  refine List.map_congr_left fun line _ => ?_
  cases line <;> rfl

theorem maxVar_reduced (f : Formula) (d : Derivation) :
    maxVar f.reduced d.reduced = maxVar f d := by
  rw [maxVar, maxVar, Derivation.maxVar, Derivation.maxVar, d.clauses_reduced,
    Formula.maxVar_reduced, Formula.maxVar_reduced]

/-- A rejection that reports the clause without its repetitions. -/
def Rejection.reduced : Rejection → Rejection
  | unmatchedDeletion i c => unmatchedDeletion i c.distinct
  | lemmaNotImplied i c => lemmaNotImplied i c.distinct
  | zeroLiteral part i => zeroLiteral part i
  | noConflict => noConflict
  | conflictNotFound i => conflictNotFound i

/-- The clause that is reported is the one given in that line. -/
def Rejection.Quotes (d : Derivation) : Rejection → Prop
  | unmatchedDeletion i c => d[i]? = some (.delete c)
  | lemmaNotImplied i c => d[i]? = some (.add c)
  | zeroLiteral _ _ | noConflict | conflictNotFound _ => True

/-- A rejection without the clause that it reports. -/
def Rejection.unnamed : Rejection → Rejection
  | unmatchedDeletion i _ => unmatchedDeletion i []
  | lemmaNotImplied i _ => lemmaNotImplied i []
  | zeroLiteral part i => zeroLiteral part i
  | noConflict => noConflict
  | conflictNotFound i => conflictNotFound i

theorem Rejection.Warranted.quotes (h : r.Warranted settings f d) : r.Quotes d := by
  cases r with
  | unmatchedDeletion i c => exact h.2.2.2.1
  | lemmaNotImplied i c => exact h.2.1
  | zeroLiteral | noConflict | conflictNotFound => trivial

/-- The line tells which clause is reported. -/
theorem Rejection.eq_reduced (h : r'.unnamed = r.unnamed) (hr : r.Quotes d)
    (hr' : r'.Quotes d.reduced) : r' = r.reduced := by
  cases r with
  | unmatchedDeletion i c | lemmaNotImplied i c =>
    cases r' <;> simp only [unnamed, reduceCtorEq] at h
    cases h
    simp only [Quotes, Derivation.reduced, List.getElem?_map] at hr hr'
    rw [hr] at hr'
    cases hr'
    rfl
  | zeroLiteral | noConflict | conflictNotFound =>
    cases r' <;> simp_all [unnamed, reduced]

end Reducing

namespace Engine

open CheckM

variable {k : Bond} {s s' : State} {line : Derivation.Line} {rest : Derivation}

/-- Rejections for the same reason, whatever clause they report. -/
def SameReason (r r' : Rejection) : Prop := r'.unnamed = r.unnamed

theorem restates_reduced (line : Derivation.Line) : Restates line line.reduced := by
  cases line <;> exact Clause.distinct_distinct _

theorem Bond.Matches.sameReason (h : k.Matches r r') (hk : k.kept = fun _ => true) :
    SameReason r r' := by
  have hr : r' = r.renumber id := h.renumber fun j _ => Bond.rank_eq_self hk j
  rw [SameReason, hr, Rejection.renumber_id]

/-- Both runs read their derivations. -/
theorem Twin.readLines_reduced (ht : Twin k s s') (hx : k.exact) (hw : k.whole)
    (hk : k.kept = fun _ => true)
    (hsmall : ∀ line ∈ rest, ∀ l ∈ line.clause, l.var.index ≤ k.bound) :
    Together SameReason (Engine.readLines settings k.lines rest)
      (Engine.readLines settings k.lines (Derivation.reduced rest)) s s' fun _ t _ t' =>
        ∃ size lines, Twin ((k.resize size).relength lines) t t' := by
  induction rest generalizing k s s' with
  | nil => exact ⟨k.size, k.lines, ht⟩
  | cons line rest ih =>
    have hkept : k.kept k.lines = true := by rw [hk]
    have hrefuses : k.Refuses SameReason k.lines line line.reduced := by
      constructor
      · rw [Bond.rank_eq_self hk]
        rfl
      · rw [Bond.rank_eq_self hk]
        rfl
    have htreats : ∀ c, Treats settings settings s' c := fun _ => Or.inl rfl
    have hline := ht.readLine hx hw hkept (restates_reduced line) hrefuses
      (hsmall line List.mem_cons_self) fun c _ => htreats c
    rw [Bond.rank_eq_self hk] at hline
    refine hline.bind ?_
    rintro _ t b t' ⟨rfl, size, ht'⟩
    cases b with
    | true => exact ⟨size, _, ht'⟩
    | false => exact ih ht' hx hw hk fun line hl => hsmall line (List.mem_cons_of_mem _ hl)

theorem Bond.reports_sameReason (hk : k.kept = fun _ => true) (given given' : Array Clause) :
    k.Reports SameReason given given' := by
  intro j _ _
  rw [Bond.rank_eq_self hk]
  rfl

theorem Twin.refute_reduced (ht : Twin k s s') (hx : k.exact) (hw : k.whole)
    (hk : k.kept = fun _ => true) (hl : k.lines = 0)
    (hsmall : ∀ line ∈ d, ∀ l ∈ line.clause, l.var.index ≤ k.bound) :
    Together SameReason (UnsatCore.refute settings f d)
      (UnsatCore.refute settings f.reduced (Derivation.reduced d)) s s'
      fun core _ core' _ => Core.Matches k.scope f f.reduced core core' := by
  have hread : Together SameReason (Engine.readLines settings k.lines d)
      (Engine.readLines settings k.lines (Derivation.reduced d)) s s' _ :=
    ht.readLines_reduced hx hw hk hsmall
  rw [hl] at hread
  refine Together.bind (P := fun _ t _ t' => ∃ size lines,
    Twin ((k.resize size).relength lines) t t') ?_ ?_
  · refine hread.bind ?_
    rintro _ t _ t' ⟨size, lines, ht'⟩
    exact ⟨size, lines, { ht' with }⟩
  · rintro _ t _ t' ⟨size, lines, ht'⟩
    refine Twin.pursue (k := (k.resize size).relength lines) (List.length_map _)
      (Bond.reports_sameReason (k := (k.resize size).relength lines) hk _ _) ?_
    exact (ht'.replay_whole hw).imp (fun _ _ h => h.sameReason hk) fun _ _ _ _ h => h

/-- Two whole runs. -/
theorem together_run_reduced (settings : Settings) (f : Formula) (d : Derivation) :
    Together SameReason (run settings f d) (run settings f.reduced d.reduced)
      (.initial (maxVar f d)) (.initial (maxVar f.reduced d.reduced))
      fun core _ core' _ => Core.Matches .all f f.reduced core core' := by
  rw [maxVar_reduced]
  have hsmall := (fitting_excused f d).small
  have hstart := twin_initial (k := .start (maxVar f d) (fun _ => true) .all) (Nat.le_refl _)
    (Nat.le_refl _) rfl rfl
  refine Together.bind (P := fun _ t _ t' =>
    Twin (.start (maxVar f d) (fun _ => true) .all) t t') { hstart with } fun _ s _ s' ht => ?_
  have hdistinct : List.Forall₂ (fun c c' => c'.distinct = c.distinct) f f.reduced :=
    List.forall₂_map_right_iff.mpr (List.forall₂_same.mpr fun c _ => c.distinct_distinct)
  have hread : Together SameReason (readFormula 0 f) (readFormula 0 f.reduced) s s' _ :=
    ht.readFormula trivial hdistinct (fun _ => rfl) fun c hc =>
      hsmall c (List.mem_append_left _ hc)
  refine hread.bind ?_
  rintro _ t r t' ⟨rfl, size, ht'⟩
  cases r with
  | trivial =>
    exact ⟨rfl, ht'.counters, fun _ => false, f.select_none.symm, f.reduced.select_none.symm⟩
  | ready =>
    exact ht'.refute_reduced trivial trivial rfl rfl fun line hl =>
      hsmall _ (List.mem_append_right _ (List.mem_map_of_mem hl))

end Engine

open Engine

/-- Results for the same reason: the same fault, the same rejection but for the clause reported,
which is the one given, or cores of the clauses at the same positions with the same counters. -/
def Agree (f : Formula) (d : Derivation) : Except Failure Core → Except Failure Core → Prop
  | .ok core, .ok core' => core'.trivial = core.trivial ∧ core'.counters = core.counters ∧
      ∃ kept, core.clauses = f.select kept ∧ core'.clauses = f.reduced.select kept
  | .error (.rejected r), .error (.rejected r') => r.Quotes d ∧ r' = r.reduced
  | .error (.fault e), .error (.fault e') => e' = e
  | _, _ => False

/-- An input is handled as the one without repeated literals. -/
theorem extract_reduced (settings : Settings) (f : Formula) (d : Derivation) :
    Agree f d (extract settings f d).result (extract settings f.reduced d.reduced).result := by
  have hrun := ends_run settings (fitting_excused f d)
  have hrun' := ends_run settings (fitting_excused f.reduced d.reduced)
  have hboth := together_run_reduced settings f d
  simp only [extract]
  unfold Together at hboth
  split at hboth
  · rename_i he he'
    rw [he, he']
    exact hboth
  · rename_i he he'
    have hr := hrun.of_rejected he
    have hr' := hrun'.of_rejected he'
    rw [he, he']
    exact ⟨hr.1.quotes, Rejection.eq_reduced hboth hr.1.quotes hr'.1.quotes⟩
  · rename_i he he'
    rw [he, he']
    exact hboth.symm
  · exact hboth.elim

end UnsatCore
