import UnsatCore.Families.Signings
import UnsatCore.Proofs.Extraction
import Mathlib.Algebra.Group.Nat.Defs

/-! The verdict of the checker. What it accepts has no model, what follows line by line it accepts,
on words that have an opposite it never fails to give a verdict, and a line that it blames does not
follow. -/
namespace UnsatCore

open Engine

variable {f : Formula} {d : Derivation} {c : Clause} {l : Literal} {settings : Settings}
  {core : Core} {s : State}

/-- There is room for every variable of the input. -/
theorem fitting_maxVar {F : Prop}
    (hl : ∀ c ∈ f ++ d.map Derivation.Line.clause, ∀ l ∈ c, l.val = Int32.minValue → F)
    (hm : 2147483648 ≤ f.length + d.length → F) : Fitting (maxVar f d) F f d := by
  refine ⟨fun c hc l hlc => Nat.le_trans (Clause.index_le_maxVar hlc) ?_, hl, hm⟩
  rcases List.mem_append.mp hc with hc | hc
  · exact Nat.le_trans (Formula.maxVar_le hc) (Nat.le_max_left _ _)
  · exact Nat.le_trans (Formula.maxVar_le hc) (Nat.le_max_right _ _)

/-- Every input fits where all faults are excused. -/
theorem fitting_excused (f : Formula) (d : Derivation) : Fitting (maxVar f d) True f d :=
  fitting_maxVar (fun _ _ _ _ _ => trivial) fun _ => trivial

theorem extract_eq_ok_iff : (extract settings f d).result = .ok core ↔
    ∃ s, run settings f d (.initial (maxVar f d)) = .ok (core, s) := by
  unfold extract
  split <;> simp_all

/-- Whatever the input is, an accepted run is backed by a certificate. -/
theorem accepted_of_run (h : run settings f d (.initial (maxVar f d)) = .ok (core, s)) :
    Accepted f d core s :=
  (ends_run settings (fitting_excused f d)).of_ok h

/-- An input whose words have an opposite is accepted, or rejected for what is wrong with it. -/
theorem extract_ok_or_rejected (settings : Settings)
    (hl : ∀ c ∈ f ++ d.map Derivation.Line.clause, ∀ l ∈ c, l.val ≠ Int32.minValue)
    (hm : f.length + d.length < 2147483648) :
    (∃ core, (extract settings f d).result = .ok core) ∨
      ∃ r, (extract settings f d).result = .error (.rejected r) ∧ r.Warranted settings f d := by
  have hrun := ends_run settings
    (fitting_maxVar (F := False) hl fun hge => Nat.not_lt.mpr hge hm)
  unfold Ends at hrun
  unfold extract
  split at hrun
  · rename_i core s he
    exact Or.inl ⟨core, by rw [he]⟩
  · rename_i r s he
    exact Or.inr ⟨r, by rw [he], hrun.1⟩
  · exact hrun.elim

theorem Extracted.sublist {core : Formula} (h : Extracted f d core s) : core.Sublist f :=
  h.selected ▸ sublist_coreAmong _ _ _

theorem not_satisfiable_of_sublist {core : Formula} (hs : core.Sublist f)
    (hc : ¬ core.Satisfiable) : ¬ f.Satisfiable := by
  rintro ⟨σ, hσ⟩
  exact hc ⟨σ, fun c hm => hσ c (hs.subset hm)⟩

/-- What is accepted is unsatisfiable. The core has the clauses of the formula at the positions of
the handles that are marked, as they were given, and it is unsatisfiable too. -/
theorem extract_sound (h : (extract settings f d).result = .ok core) :
    ¬ f.Satisfiable ∧ (core.trivial = true → core.clauses = []) ∧
      (core.trivial = false → ¬ core.clauses.Satisfiable ∧
        ∃ s, run settings f d (.initial (maxVar f d)) = .ok (core, s) ∧
          s.origins.size = f.length ∧
          (∀ (i : Nat) (h : Handle) (c : Clause), s.origins[i]? = some h → f[i]? = some c →
            (s.arena.literals h).Perm c.distinct ∧ s.arena.isCore h = .ok (s.arena.inCore h)) ∧
          core.clauses =
            ((f.zip s.origins.toList).filter fun p => s.arena.inCore p.2).map Prod.fst) := by
  obtain ⟨s, hrun⟩ := extract_eq_ok_iff.mp h
  have hacc := accepted_of_run hrun
  unfold Accepted at hacc
  split at hacc
  · rename_i ht
    exact ⟨hacc.2, fun _ => hacc.1, fun hf => by simp [hf] at ht⟩
  · rename_i ht
    obtain ⟨lemmas, -, hcert⟩ := hacc.certificate
    have hno := hcert.not_satisfiable
    exact ⟨not_satisfiable_of_sublist hacc.sublist hno, fun hf => (ht hf).elim,
      fun _ => ⟨hno, s, hrun, hacc.size, hacc.stored, hacc.selected⟩⟩

theorem exists_ok_of_trivial {o : Outcome} {b : Bool}
    (h : o.result.toOption.map Core.trivial = some b) :
    ∃ core, o.result = .ok core ∧ core.trivial = b := by
  cases hr : o.result with
  | ok core => exact ⟨core, rfl, by simpa [hr, Except.toOption] using h⟩
  | error e => simp [hr, Except.toOption] at h

/-- The four clauses over two variables are refuted by way of a unit. -/
theorem extract_sound_signings : ∃ core,
    (extract {} (Signings.clauses 2) [.add [Signings.literal 1], .add []]).result = .ok core ∧
      ¬ Formula.Satisfiable (Signings.clauses 2) ∧ ¬ core.clauses.Satisfiable := by
  obtain ⟨core, h, ht⟩ := exists_ok_of_trivial (b := false)
    (o := extract {} (Signings.clauses 2) [.add [Signings.literal 1], .add []]) (by decide +kernel)
  exact ⟨core, h, (extract_sound h).1, ((extract_sound h).2.2 ht).1⟩

/-- Nothing is wrong with an input whose lemmas follow up to the first empty one, and whose
deletions match up to there if they have to. -/
theorem Rejection.not_warranted
    (hz : ∀ c ∈ f ++ d.map Derivation.Line.clause, ∀ l ∈ c, l.val ≠ 0)
    (hend : .add [] ∈ d)
    (hadd : ∀ (j : Nat) (c : Clause), d.Reaches j → d[j]? = some (.add c) →
      c.FollowsFrom (Derivation.live f (d.take j)))
    (hdel : settings.strictDeletions = true → settings.ignoreDeletions = false →
      ∀ (j : Nat) (c : Clause), d.Reaches j → d[j]? = some (.delete c) →
        ∃ k ∈ Derivation.live f (d.take j), c.Same k) (r : Rejection) :
    ¬ r.Warranted settings f d := by
  have hzero : ∀ c ∈ f ++ d.map Derivation.Line.clause, c.hasZero ≠ true := fun c hc =>
    Bool.eq_false_iff.mp (Clause.hasZero_eq_false.mpr (hz c hc))
  cases r with
  | zeroLiteral part i =>
    cases part with
    | formula =>
      rintro ⟨c, hi, hc⟩
      exact hzero c (List.mem_append_left _ (List.mem_of_getElem? hi)) hc
    | derivation =>
      rintro ⟨line, hi, hc⟩
      refine hzero line.clause (List.mem_append_right _ ?_) hc
      exact List.mem_map_of_mem (List.mem_of_getElem? hi)
  | unmatchedDeletion i c =>
    rintro ⟨hstrict, hign, hr, hi, hno⟩
    obtain ⟨k, hk, hsame⟩ := hdel hstrict hign i c hr hi
    exact hno k hk hsame
  | noConflict => exact fun hno => hno hend
  | conflictNotFound i =>
    rintro ⟨hr, c, hi, hno⟩
    exact hno (hadd i c hr hi)
  | lemmaNotImplied i c =>
    rintro ⟨hr, hi, hno⟩
    exact hno (hadd i c hr hi)

/-- A derivation is accepted if each lemma, up to the first empty one, follows by unit propagation
from the clauses that are live before it. Deletions have to match only where the settings say so. -/
theorem extract_complete
    (hl : ∀ c ∈ f ++ d.map Derivation.Line.clause, ∀ l ∈ c, l.Proper)
    (hm : f.length + d.length < 2 ^ 31) (hend : .add [] ∈ d)
    (hadd : ∀ (j : Nat) (c : Clause), d.Reaches j → d[j]? = some (.add c) →
      c.FollowsFrom (Derivation.live f (d.take j)))
    (settings : Settings)
    (hdel : settings.strictDeletions = true → settings.ignoreDeletions = false →
      ∀ (j : Nat) (c : Clause), d.Reaches j → d[j]? = some (.delete c) →
        ∃ k ∈ Derivation.live f (d.take j), c.Same k) :
    ∃ core, (extract settings f d).result = .ok core := by
  rcases extract_ok_or_rejected settings (fun c hc l hlc => (hl c hc l hlc).2)
    (Nat.lt_of_lt_of_eq hm (by decide)) with hok | ⟨r, -, hr⟩
  · exact hok
  · exact (Rejection.not_warranted (fun c hc l hlc => (hl c hc l hlc).1) hend hadd hdel r hr).elim

/-- The four clauses over two variables are refuted by way of two units, the first of which replaces
one of the clauses. -/
theorem extract_complete_signings : ∃ core,
    (extract {} (Signings.clauses 2) [.add [Signings.literal 1],
      .delete [Signings.literal 2, Signings.literal 1], .add [-Signings.literal 1],
      .add []]).result = .ok core := by
  refine extract_complete (by decide) (by decide) (by decide) ?_ {} ?_
  · intro j c _ hj
    match j with
    | 0 =>
      cases hj
      exact Clause.followsFrom_of_extensions (l := Signings.literal 2) (by decide) (by decide)
    | 1 => cases hj
    | 2 =>
      cases hj
      exact Clause.followsFrom_of_extensions (l := Signings.literal 2) (by decide) (by decide)
    | 3 =>
      cases hj
      exact Clause.followsFrom_of_extensions (l := Signings.literal 1) (by decide) (by decide)
    | j + 4 => cases hj
  · intro _ _ j c _ hj
    match j with
    | 0 => cases hj
    | 1 =>
      cases hj
      exact ⟨[Signings.literal 1, Signings.literal 2], by decide, by decide⟩
    | 2 => cases hj
    | 3 => cases hj
    | j + 4 => cases hj

/-- On words that have an opposite the checker comes to a verdict, however the input is made. -/
theorem extract_faultless
    (hl : ∀ c ∈ f ++ d.map Derivation.Line.clause, ∀ l ∈ c, l.val ≠ Int32.minValue)
    (hm : f.length + d.length < 2 ^ 31) (settings : Settings) :
    (∃ core, (extract settings f d).result = .ok core) ∨
      ∃ r, (extract settings f d).result = .error (.rejected r) := by
  rcases extract_ok_or_rejected settings hl (Nat.lt_of_lt_of_eq hm (by decide)) with
    hok | ⟨r, hr, -⟩
  · exact Or.inl hok
  · exact Or.inr ⟨r, hr⟩

/-- A tautology, repeated literals, a lemma that does not follow, a deletion of nothing and a 0. -/
theorem extract_faultless_malformed :
    (∃ core, (extract {} [[⟨1⟩, ⟨-1⟩], [⟨2⟩, ⟨2⟩], [⟨-2⟩, ⟨3⟩]]
      [.add [⟨1⟩, ⟨1⟩], .delete [⟨-1⟩, ⟨1⟩], .delete [⟨3⟩], .add [⟨0⟩]]).result = .ok core) ∨
    ∃ r, (extract {} [[⟨1⟩, ⟨-1⟩], [⟨2⟩, ⟨2⟩], [⟨-2⟩, ⟨3⟩]]
      [.add [⟨1⟩, ⟨1⟩], .delete [⟨-1⟩, ⟨1⟩], .delete [⟨3⟩], .add [⟨0⟩]]).result =
        .error (.rejected r) :=
  extract_faultless (by decide) (by decide) {}

def Outcome.rejection? (o : Outcome) : Option Rejection :=
  match o.result with
  | .error (.rejected r) => some r
  | .error (.fault _) | .ok _ => none

theorem Outcome.rejection?_eq_some_iff {o : Outcome} {r : Rejection} :
    o.rejection? = some r ↔ o.result = .error (.rejected r) := by
  unfold rejection?
  split <;> simp_all

theorem exists_run_of_rejected {r : Rejection}
    (h : (extract settings f d).result = .error (.rejected r)) :
    ∃ s, run settings f d (.initial (maxVar f d)) = .error (.rejected r s) := by
  unfold extract at h
  split at h <;> simp_all

/-- Whatever the input is, a line that is blamed is an addition, and its clause does not follow by
unit propagation from the clauses that stand before it. -/
theorem extract_blame {r : Rejection} (h : (extract settings f d).result = .error (.rejected r)) :
    ∃ s, run settings f d (.initial (maxVar f d)) = .error (.rejected r s) ∧
      (∀ (i : Nat) (c : Clause), r = .lemmaNotImplied i c → Groundless f d i c s) ∧
      ∀ i : Nat, r = .conflictNotFound i → ∃ c, Groundless f d i c s := by
  obtain ⟨s, hrun⟩ := exists_run_of_rejected h
  have hends := ends_run settings (fitting_maxVar (F := True) (f := f) (d := d)
    (fun _ _ _ _ _ => trivial) fun _ => trivial)
  simp only [Ends, hrun] at hends
  refine ⟨s, hrun, ?_, ?_⟩
  · rintro i c rfl
    exact hends.2
  · rintro i rfl
    exact hends.2

/-- Lemmas over a third variable are added, and then three clauses are deleted before a unit. -/
def undercut : Derivation :=
  [.add [⟨1⟩, ⟨3⟩], .add [⟨1⟩, ⟨-3⟩], .delete [⟨1⟩, ⟨2⟩], .delete [⟨1⟩, ⟨-2⟩], .delete [⟨1⟩, ⟨3⟩],
    .add [⟨1⟩], .add []]

/-- The unit follows from the four clauses over two variables, but not from what is left of them. -/
theorem extract_blame_deleted :
    (extract {} (Signings.clauses 2) undercut).result =
        .error (.rejected (.lemmaNotImplied 5 [⟨1⟩])) ∧
      ∃ s, Groundless (Signings.clauses 2) undercut 5 [⟨1⟩] s := by
  have hr : (extract {} (Signings.clauses 2) undercut).result =
      .error (.rejected (.lemmaNotImplied 5 [⟨1⟩])) :=
    Outcome.rejection?_eq_some_iff.mp (by decide +kernel)
  obtain ⟨s, -, hblame, -⟩ := extract_blame hr
  exact ⟨hr, s, hblame 5 [⟨1⟩] rfl⟩

end UnsatCore
