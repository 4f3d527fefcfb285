import UnsatCore.Proofs.Independence
import UnsatCore.Proofs.ParallelIntake

/-! Whole runs of which one is found in the other. They have corresponding results. -/
namespace UnsatCore

open Engine Engine.CheckM

variable {g : Image} {settings : Settings} {f f' : Formula} {d d' : Derivation} {s s' : State}
  {given given' : Array Clause} {coreFirst : Bool}

namespace Engine

/-- Before anything is read, there is nothing to be found. -/
theorem mirrored_initial (hs : g.size = fun _ => none) (ha : ∀ n c, ¬ g.alien n c)
    (hr : g.read = []) (hr' : g.read' = []) :
    Mirrored g (.initial g.bound) (.initial g.bound') where
  trail := Trail.mirror_blank g
  watches := WatchTable.mirror_blank g
  arena := Arena.mirror_empty hs ha
  origins := by
    rw [hr, hr']
    exact .nil
  steps := by simp [State.initial]
  known := nofun
  counters := rfl

/-- Both runs read their inputs. -/
theorem Mirrored.load_common (h : Mirrored g s s') (hr : g.read = []) (hr' : g.read' = [])
    (hw : g.Merged f f' s.arena.words.size s'.arena.words.size) (hd : Plain g settings d) :
    Corresponds g.comparison (load settings f d)
      (load settings f' (d.map (Derivation.Line.image g.lit))) s s' fun r t r' t' =>
      r' = r ∧ ∃ size alien read read', Mirrored { g with size, alien, read, read' } t t' ∧
        (r = .ready → read = f ∧ read' = f') := by
  refine corresponds_left_ok rfl (corresponds_right_ok rfl ?_)
  have hstarted : Mirrored { g with
      size := g.size, alien := g.alien, read := g.read, read' := g.read' }
      { s with log := s.log.push (.started f.length d.length) }
      { s' with log := s'.log.push (.started f'.length
        (d.map (Derivation.Line.image g.lit)).length) } := { h with }
  refine (hstarted.readFormula hw 0 0).bind ?_
  rintro _ s₁ r s₁' ⟨rfl, size, alien, read, read', h₁, hready⟩
  cases r with
  | trivial => exact ⟨rfl, size, alien, read, read', h₁, by simp⟩
  | ready =>
    obtain ⟨rfl, rfl, hplaced⟩ := hready rfl
    refine (h₁.readDerivation hd hplaced).bind ?_
    rintro _ t _ t' ⟨size, ht⟩
    exact ⟨rfl, size, alien, _, _, ht, by simp [hr, hr']⟩

/-- What comes after the first pass corresponds if the first pass does. -/
theorem corresponds_pursue
    (hgiven : ∀ i, given'.getD i [] = (given.getD i []).map g.lit)
    (h : Corresponds g.comparison (replay coreFirst) (replay coreFirst) s s' fun r t r' t' =>
      r' = r ∧ ∃ clear, Mirrored { g with read := f, read' := f', clear } t t' ∧
        ∀ last, r = .step last → clear) :
    Corresponds g.comparison (pursue coreFirst f given) (pursue coreFirst f' given') s s'
      fun core _ core' _ => SameCore g core core' := by
  refine h.bind ?_
  rintro _ t r t' ⟨rfl, clear, ht, hclear⟩
  cases r with
  | formula => exact (parallel_conclude ht).mono fun _ _ _ _ hcore => hcore.1
  | step last =>
    refine (parallel_justify (g := { g with read := f, read' := f', clear }) (hclear last rfl)
      coreFirst last hgiven ht).bind ?_
    rintro _ u _ u' ⟨-, hu⟩
    exact (parallel_conclude hu).mono fun _ _ _ _ hcore => hcore.1

/-- Both runs read their inputs, and then the first passes correspond. -/
theorem Mirrored.run_common (h : Mirrored g s s') (hr : g.read = []) (hr' : g.read' = [])
    (hw : g.Merged f f' s.arena.words.size s'.arena.words.size) (hd : Plain g settings d)
    (hreplay : ∀ ⦃size alien t t'⦄, load settings f d s = .ok (.ready, t) →
      load settings f' (d.map (Derivation.Line.image g.lit)) s' = .ok (.ready, t') →
      Mirrored { g with size, alien, read := f, read' := f' } t t' →
      Corresponds g.comparison (replay settings.coreFirst) (replay settings.coreFirst) t t'
        fun r u r' u' => r' = r ∧ ∃ clear,
          Mirrored { g with size, alien, read := f, read' := f', clear } u u' ∧
            ∀ last, r = .step last → clear) :
    Corresponds g.comparison (run settings f d)
      (run settings f' (d.map (Derivation.Line.image g.lit))) s s'
      fun core _ core' _ => SameCore g core core' := by
  rw [run_eq_load, run_eq_load]
  refine (h.load_common hr hr' hw hd).run.bind ?_
  rintro _ t r t' ⟨hload, hload', rfl, size, alien, read, read', ht, hready⟩
  cases r with
  | trivial => exact (parallel_concludeTrivial ht).mono fun _ _ _ _ hcore => hcore.1
  | ready =>
    obtain ⟨rfl, rfl⟩ := hready rfl
    refine corresponds_pursue (g := { g with size, alien }) (fun i => ?_) (hreplay hload hload' ht)
    simp only [Array.getD_eq_getD_getElem?, List.getElem?_toArray, List.getElem?_map,
      Option.map_map]
    cases d[i]? with
    | none => rfl
    | some line => exact Derivation.Line.clause_image g.lit line

end Engine

/-- Two corresponding runs have corresponding results. -/
theorem result_of_corresponds
    (h : Corresponds g.comparison (run settings f d) (run settings f' d')
      (.initial (maxVar f d)) (.initial (maxVar f' d')) fun core _ core' _ => SameCore g core core')
    (hf : g.exact = false → ∀ cause, (extract settings f d).result ≠ .error (.fault cause) ∧
      (extract settings f' d').result ≠ .error (.fault cause)) :
    (extract settings f' d').result.map (Core.tally g.exact) =
      ((extract settings f d).result.map fun core => (core.image g.lit).tally g.exact).mapError
        (Failure.image g.lit g.handle) := by
  have hlax : g.comparison.lax → ∀ cause, (extract settings f d).result ≠ .error (.fault cause) ∧
      (extract settings f' d').result ≠ .error (.fault cause) := hf
  simp only [extract] at hlax ⊢
  unfold Corresponds at h
  split at h
  · rename_i hrun hrun'
    simp only [hrun, hrun', Except.map, Except.mapError]
    exact congrArg Except.ok h
  · rename_i hrun hrun'
    simp only [hrun, hrun', Except.map, Except.mapError]
    exact congrArg Except.error h.symm
  · rename_i hrun hrun'
    simp only [hrun, hrun', Except.map, Except.mapError] at hlax ⊢
    rcases h with h | h
    · exact ((hlax h _).1 rfl).elim
    · exact congrArg Except.error h.symm
  · rename_i hrun _
    simp only [hrun] at hlax
    exact ((hlax h _).1 rfl).elim
  · rename_i hrun' _
    simp only [hrun'] at hlax
    exact ((hlax h _).2 rfl).elim
  · exact h.elim

end UnsatCore
