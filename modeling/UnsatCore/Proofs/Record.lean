import UnsatCore.Proofs.Justification
import Mathlib.Data.List.Forall2

/-! What the state keeps of the input throughout a run. Propagation turns the literals of a clause
around and lines are revised, but each clause stays the one that was given. -/
namespace UnsatCore.Engine

variable {n i : Nat} {F : Prop} {f : Formula} {d lines : Derivation} {s s₀ : State} {L : Ledger}
  {c : Clause} {h : Handle}

/-- The handles of the lemmas, those that were left out included. -/
def lemmasOf (steps : List Step) : List Handle :=
  steps.filterMap fun
    | .add h | .satisfied h => some h
    | .delete _ | .ignored => none

/-- What became of a line names the clause of the line, if it names one. -/
def Arena.Keeps (a : Arena) : Derivation.Line → Step → Prop
  | .add c, .add h | .add c, .satisfied h | .delete c, .delete h => (a.literals h).Perm c.distinct
  | .delete _, .ignored => True
  | .add _, .delete _ | .add _, .ignored | .delete _, .add _ | .delete _, .satisfied _ => False

/-- The clauses of `f` and the lines of `d` are stored, each clause with the literals it was given
with, once each and in some order. Nothing else is stored, and no two clauses share a handle. -/
structure Recorded (f : Formula) (d : Derivation) (s : State) : Prop where
  origins_size : s.origins.size = f.length
  origins : ∀ (i : Nat) (h : Handle) (c : Clause), s.origins[i]? = some h → f[i]? = some c →
    (s.arena.literals h).Perm c.distinct
  steps_size : s.steps.size = d.length
  steps : ∀ (i : Nat) (line : Derivation.Line) (step : Step), d[i]? = some line →
    s.steps[i]? = some step → Arena.Keeps s.arena line step
  nodup : (s.origins.toList ++ lemmasOf s.steps.toList).Nodup
  has : ∀ h, s.arena.Has h ↔ h ∈ s.origins.toList ++ lemmasOf s.steps.toList

theorem lemmasOf_eq_added {steps steps' : List Step} (hr : List.Forall₂ Revises steps steps')
    (hno : ∀ h, .satisfied h ∉ steps) : lemmasOf steps' = added steps := by
  induction hr with
  | nil => rfl
  | @cons orig step steps steps' hrev _ ih =>
    have ih := ih fun h hm => hno h (List.mem_cons_of_mem _ hm)
    simp only [lemmasOf, added] at ih ⊢
    cases hrev with
    | same =>
      cases orig with
      | satisfied h => exact (hno h List.mem_cons_self).elim
      | add | delete | ignored => simp [ih]
    | leftOut | held => simp [ih]

theorem mem_of_mem_standingAfter {origins : List Handle} {steps : List Step}
    (hm : h ∈ standingAfter origins steps) : h ∈ origins ++ lemmasOf steps := by
  induction steps using List.reverseRecOn with
  | nil => simpa [standingAfter, lemmasOf] using hm
  | append_singleton steps step ih =>
    rw [standingAfter_append_singleton] at hm
    rw [lemmasOf, List.filterMap_append, ← lemmasOf, ← List.append_assoc, List.mem_append]
    cases step with
    | add c | satisfied c =>
      rcases List.mem_cons.mp hm with rfl | hm
      · exact Or.inr (by simp)
      · exact Or.inl (ih hm)
    | delete c => exact Or.inl (ih (List.mem_of_mem_filter hm))
    | ignored => exact Or.inl (ih hm)

theorem mem_lemmasOf_of_take {origins : List Handle} {steps : List Step}
    (hm : h ∈ origins ++ lemmasOf (steps.take i)) : h ∈ origins ++ lemmasOf steps := by
  have hsub : (lemmasOf (steps.take i)).Sublist (lemmasOf steps) :=
    (List.take_sublist i steps).filterMap _
  exact (hsub.append_left origins).subset hm

/-- No line is read as one that was left out. -/
theorem Ledger.not_satisfied (L : Ledger) (h : Handle) : .satisfied h ∉ L.steps := by
  intro hm
  obtain ⟨i, hi⟩ := List.mem_iff_getElem?.mp hm
  have hlt : i < L.lines.length := by
    rw [← L.transcript.length]
    exact (List.getElem?_eq_some_iff.mp hi).1
  have hr := L.transcript.read i _ _ (List.getElem?_eq_getElem hlt) hi
  cases hl : L.lines[i] <;> simp [hl, ReadAs] at hr

namespace Ledger.Records

theorem forall₂ (hr : L.Records s) : List.Forall₂ Revises L.steps s.steps.toList := by
  rw [List.forall₂_iff_get]
  refine ⟨by rw [Array.length_toList, hr.size], fun i hi hi' => ?_⟩
  refine hr.revised i _ _ (List.getElem?_eq_getElem hi) ?_
  rw [← Array.getElem?_toList]
  exact List.getElem?_eq_getElem hi'

theorem lemmasOf_steps (hr : L.Records s) : lemmasOf s.steps.toList = added L.steps :=
  lemmasOf_eq_added hr.forall₂ L.not_satisfied

/-- A line keeps its clause, whatever becomes of it. -/
theorem keeps (hr : L.Records s) (hst : Stored L.bound L.excuse L.body s.arena)
    {line : Derivation.Line} {step : Step} (hl : L.lines[i]? = some line)
    (hs : s.steps[i]? = some step) : Arena.Keeps s.arena line step := by
  have hlt : i < L.steps.length := by
    rw [L.transcript.length]
    exact (List.getElem?_eq_some_iff.mp hl).1
  have horig := List.getElem?_eq_getElem hlt
  have hread := L.transcript.read i _ _ hl horig
  have hrev := hr.revised i _ _ horig hs
  have hadd : ∀ h, L.steps[i] = .add h → s.arena.Has h := fun h he =>
    (hr.has h).mpr (List.mem_append_right _ (mem_added.mpr (he ▸ List.getElem_mem hlt)))
  generalize L.steps[i] = orig at hread hrev hadd
  cases line with
  | add c =>
    cases orig with
    | add h =>
      have hp := hst.perm h (hadd h rfl)
      rw [show L.body h = c.distinct from hread] at hp
      cases hrev <;> exact hp
    | delete h => exact hread.elim
    | satisfied h => exact hread.elim
    | ignored => exact hread.elim
  | delete c =>
    cases orig with
    | add h => exact hread.elim
    | delete h =>
      cases hrev with
      | held => trivial
      | same =>
        obtain ⟨hal, hsame, -⟩ := hread
        have hh := (hr.has h).mpr (mem_added_of_take (mem_of_mem_aliveAfter hal))
        have hsame : (L.body h).Same c.distinct := hsame.symm.trans (Clause.distinct_same c).symm
        exact (hst.perm h hh).trans (hsame.perm (hst.nodup h hh) (Clause.nodup_distinct c))
    | satisfied h => exact hread.elim
    | ignored =>
      cases hrev
      trivial

end Ledger.Records

theorem Stocked.origins_size (hs : Stocked n F f s) : s.origins.size = f.length := by
  have hlen := congrArg List.length hs.origins
  simpa using hlen

theorem Stocked.literals_origin (hs : Stocked n F f s) (hi : s.origins[i]? = some h)
    (hc : f[i]? = some c) : s.arena.literals h = c.distinct := by
  have hget := congrArg (·[i]?) hs.origins
  simpa [hi, hc] using hget

/-- The input is on record in every state that still has it as it was read. -/
theorem Loaded.recorded (hl : Loaded n F f lines s₀) (hr : hl.ledger.Records s)
    (hst : Stored n F hl.ledger.body s.arena) : Recorded f lines s := by
  have hor : s.origins = s₀.origins := Array.toList_inj.mp hr.origins
  refine ⟨?_, ?_, ?_, fun i line step hl' hs => hr.keeps hst hl' hs, ?_, ?_⟩
  · rw [hor]
    exact hl.toStocked.origins_size
  · intro i h c hi hc
    have hh : h ∈ s₀.origins.toList := by
      rw [hor, ← Array.getElem?_toList] at hi
      exact List.mem_of_getElem? hi
    have hlit := hl.toStocked.literals_origin (hor ▸ hi) hc
    rw [← hlit]
    exact hst.perm h ((hr.has h).mpr (List.mem_append_left _ hh))
  · rw [hr.size]
    exact hl.transcript.length
  · rw [hr.lemmasOf_steps, hr.origins]
    exact hl.transcript.fresh
  · rw [hr.lemmasOf_steps, hr.origins]
    exact hr.has

end UnsatCore.Engine
