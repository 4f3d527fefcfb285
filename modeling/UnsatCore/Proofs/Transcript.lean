import UnsatCore.Proofs.Live
import Mathlib.Data.List.Induction
import Mathlib.Data.List.Nodup

/-! What the lines of a derivation are read as. An addition gets a handle of its own, and a deletion
that is carried out names a handle that is still there. -/
namespace UnsatCore.Engine

variable {body body' : Handle → Clause} {origins alive : List Handle} {f : Formula}
  {d : Derivation} {steps : List Step} {line : Derivation.Line} {step : Step} {h : Handle} {i : Nat}

/-- The handles of the lemmas. -/
def added (steps : List Step) : List Handle :=
  steps.filterMap fun
    | .add h => some h
    | _ => none

theorem mem_added : h ∈ added steps ↔ .add h ∈ steps := by
  simp only [added, List.mem_filterMap]
  constructor
  · rintro ⟨step, hs, he⟩
    cases step <;> simp_all
  · exact fun hs => ⟨_, hs, rfl⟩

@[simp] theorem added_append (steps steps' : List Step) :
    added (steps ++ steps') = added steps ++ added steps' := List.filterMap_append

/-- How a line is read while the handles of `alive` can be deleted. -/
def ReadAs (body : Handle → Clause) (alive : List Handle) : Derivation.Line → Step → Prop
  | .add c, .add h => body h = c.distinct
  | .delete c, .delete h => h ∈ alive ∧ c.Same (body h) ∧ 2 ≤ (body h).length
  | .delete _, .ignored => True
  | _, _ => False

/-- What a line may become: a lemma may be left out, and a deletion may be held back. -/
inductive Revises : Step → Step → Prop
  | same (step : Step) : Revises step step
  | leftOut (h : Handle) : Revises (.add h) (.satisfied h)
  | held (h : Handle) : Revises (.delete h) .ignored

structure Transcript (body : Handle → Clause) (origins : List Handle) (f : Formula)
    (d : Derivation) (steps : List Step) : Prop where
  length : steps.length = d.length
  fresh : (origins ++ added steps).Nodup
  read : ∀ i line step, d[i]? = some line → steps[i]? = some step →
    ReadAs body (aliveAfter origins (steps.take i)) line step
  nodup : ∀ i, (aliveAfter origins (steps.take i)).Nodup
  covers : ∀ i ≤ d.length,
    Covers body (aliveAfter origins (steps.take i)) (Derivation.live f (d.take i))

theorem mem_of_mem_aliveAfter (hm : h ∈ aliveAfter origins steps) :
    h ∈ origins ++ added steps := by
  induction steps using List.reverseRecOn with
  | nil => simpa [aliveAfter, added] using hm
  | append_singleton steps step ih =>
    rw [aliveAfter_append_singleton] at hm
    rw [added_append, ← List.append_assoc, List.mem_append]
    cases step with
    | add c =>
      rcases List.mem_cons.mp hm with rfl | hm
      · exact Or.inr (by simp [added])
      · exact Or.inl (ih hm)
    | delete c => exact Or.inl (ih (List.mem_of_mem_erase hm))
    | satisfied c => exact Or.inl (ih hm)
    | ignored => exact Or.inl (ih hm)

theorem mem_added_of_take (hm : h ∈ origins ++ added (steps.take i)) :
    h ∈ origins ++ added steps := by
  rw [← List.take_append_drop i steps, added_append]
  rcases List.mem_append.mp hm with hm | hm <;> simp [hm]

theorem Covers.congr (hv : Covers body alive f) (hb : ∀ h ∈ alive, body' h = body h) :
    Covers body' alive f := by
  intro k
  rw [List.countP_congr (q := fun h => k.Same (body h)) fun h hh => by rw [hb h hh]]
  exact hv k

theorem Covers.perm {alive' : List Handle} {f' : Formula} (hv : Covers body alive f)
    (ha : alive.Perm alive') (hf : f.Perm f') : Covers body alive' f' := by
  intro k
  rw [← ha.countP_eq, ← hf.countP_eq]
  exact hv k

theorem covers_nil (body : Handle → Clause) : Covers body [] [] := fun _ => Nat.le_refl _

namespace Transcript

theorem congr (ht : Transcript body origins f d steps)
    (hb : ∀ h ∈ origins ++ added steps, body' h = body h) :
    Transcript body' origins f d steps where
  length := ht.length
  fresh := ht.fresh
  read := by
    intro i line step hl hs
    have hr := ht.read i line step hl hs
    cases line <;> cases step <;> simp only [ReadAs] at hr ⊢
    case add.add c h =>
      rw [hb h (List.mem_append_right _ (mem_added.mpr (List.mem_of_getElem? hs)))]
      exact hr
    case delete.delete c h =>
      rw [hb h (mem_added_of_take (mem_of_mem_aliveAfter hr.1))]
      exact hr
  nodup := ht.nodup
  covers := fun i hi => (ht.covers i hi).congr fun h hh =>
    hb h (mem_added_of_take (mem_of_mem_aliveAfter hh))

/-- The clauses that are live after the last line have handles. -/
theorem covers_all (ht : Transcript body origins f d steps) :
    Covers body (aliveAfter origins steps) (Derivation.live f d) := by
  have hv := ht.covers d.length (Nat.le_refl _)
  rwa [← ht.length, List.take_length, ht.length, List.take_length] at hv

theorem nodup_snoc (ht : Transcript body origins f d steps)
    (hfresh : ∀ h, step = .add h → h ∉ origins ++ added steps) :
    (origins ++ added (steps ++ [step])).Nodup := by
  rw [added_append, ← List.append_assoc]
  cases step with
  | add h => exact List.nodup_append_comm.mp (List.nodup_cons.mpr ⟨hfresh h rfl, ht.fresh⟩)
  | delete h => simpa [added] using ht.fresh
  | satisfied h => simpa [added] using ht.fresh
  | ignored => simpa [added] using ht.fresh

theorem nodup_carryOut (ht : Transcript body origins f d steps)
    (hfresh : ∀ h, step = .add h → h ∉ origins ++ added steps) :
    (step.carryOut (aliveAfter origins steps)).Nodup := by
  have hnd := ht.nodup steps.length
  rw [List.take_length] at hnd
  cases step with
  | add h => exact List.nodup_cons.mpr ⟨fun hm => hfresh h rfl (mem_of_mem_aliveAfter hm), hnd⟩
  | delete h => exact hnd.erase h
  | satisfied h => exact hnd
  | ignored => exact hnd

theorem read_snoc (ht : Transcript body origins f d steps)
    (hread : ReadAs body (aliveAfter origins steps) line step) (i : Nat)
    (line' : Derivation.Line) (step' : Step) (hl : (d ++ [line])[i]? = some line')
    (hs : (steps ++ [step])[i]? = some step') :
    ReadAs body (aliveAfter origins ((steps ++ [step]).take i)) line' step' := by
  have hlen := ht.length
  rcases Nat.lt_or_ge i steps.length with hi | hi
  · rw [List.getElem?_append_left hi] at hs
    rw [List.getElem?_append_left (by omega)] at hl
    rw [List.take_append_of_le_length (by omega)]
    exact ht.read i line' step' hl hs
  · obtain rfl : i = steps.length := by
      have := (List.getElem?_eq_some_iff.mp hs).1
      simp at this
      omega
    rw [List.getElem?_concat_length] at hs
    rw [hlen, List.getElem?_concat_length] at hl
    cases hs
    cases hl
    rwa [List.take_left]

/-- One more line. -/
theorem snoc (ht : Transcript body origins f d steps)
    (hfresh : ∀ h, step = .add h → h ∉ origins ++ added steps)
    (hread : ReadAs body (aliveAfter origins steps) line step)
    (hcov : Covers body (step.carryOut (aliveAfter origins steps))
      (line.carryOut (Derivation.live f d))) :
    Transcript body origins f (d ++ [line]) (steps ++ [step]) where
  length := by simp [ht.length]
  fresh := ht.nodup_snoc hfresh
  read := ht.read_snoc hread
  nodup := by
    intro i
    rcases Nat.lt_or_ge steps.length i with hi | hi
    · rw [List.take_of_length_le (by simp; omega), aliveAfter_append_singleton]
      exact ht.nodup_carryOut hfresh
    · rw [List.take_append_of_le_length hi]
      exact ht.nodup i
  covers := by
    intro i hi
    have hlen := ht.length
    rw [List.length_append, List.length_singleton] at hi
    rcases Nat.lt_or_ge steps.length i with hlt | hle
    · rw [List.take_of_length_le (by simp; omega), aliveAfter_append_singleton,
        List.take_of_length_le (by simp; omega), Derivation.live_append_singleton]
      exact hcov
    · rw [List.take_append_of_le_length hle, List.take_append_of_le_length (by omega)]
      exact ht.covers i (by omega)

/-- One more clause of the formula, while no line is read yet. -/
theorem origin {c : Clause} (ht : Transcript body origins f [] []) (hh : h ∉ origins)
    (hs : (body h).Same c) : Transcript body (origins ++ [h]) (f ++ [c]) [] [] where
  length := rfl
  fresh := by
    have hf := ht.fresh
    simp only [added, List.filterMap_nil, List.append_nil] at hf ⊢
    exact List.nodup_append_comm.mp (List.nodup_cons.mpr ⟨hh, hf⟩)
  read := by simp
  nodup := by
    intro i
    have hf := ht.fresh
    simp only [added, List.filterMap_nil, List.append_nil] at hf
    simp only [List.take_nil, aliveAfter, List.foldl_nil]
    exact List.nodup_append_comm.mp (List.nodup_cons.mpr ⟨hh, hf⟩)
  covers := by
    intro i hi
    have hv := ht.covers 0 (Nat.zero_le _)
    simp only [List.take_nil, aliveAfter, List.foldl_nil, Derivation.live] at hv ⊢
    exact (hv.add hs).perm (List.perm_append_singleton h origins).symm
      (List.perm_append_singleton c f).symm

end Transcript

end UnsatCore.Engine
