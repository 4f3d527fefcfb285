import UnsatCore.Proofs.ParallelRuns
import UnsatCore.Proofs.Verdict
import Mathlib.Data.Set.Function

/-! A run does not depend on what the variables are called, nor on which of its two literals is the
positive one: on an input with other names it does the same under these names. -/
namespace UnsatCore

open Engine

namespace Literal

variable {a b l : Literal}

/-- `a` and `b` change places, and so do their opposites. -/
def exchange (a b l : Literal) : Literal :=
  if l = a then b else if l = b then a else if l = -a then -b else if l = -b then -a else l

theorem exchange_exchange (ha : a.Proper) (hb : b.Proper) (hv : a.var ≠ b.var) (l : Literal) :
    exchange a b (exchange a b l) = l := by
  have hne : a ≠ b := fun h => hv (congrArg _ h)
  have hneg : a ≠ -b := fun h => hv (by rw [h, var_neg])
  grind [exchange, ha.neg_ne, hb.neg_ne, neg_neg, neg_inj]

theorem exchange_neg (ha : a.Proper) (hb : b.Proper) (hv : a.var ≠ b.var) (l : Literal) :
    exchange a b (-l) = -exchange a b l := by
  have hne : a ≠ b := fun h => hv (congrArg _ h)
  have hneg : a ≠ -b := fun h => hv (by rw [h, var_neg])
  grind [exchange, ha.neg_ne, hb.neg_ne, neg_neg, neg_inj]

theorem Proper.exchange (ha : a.Proper) (hb : b.Proper) (hl : l.Proper) :
    (Literal.exchange a b l).Proper := by
  unfold Literal.exchange
  split_ifs <;> simp_all [proper_neg_iff]

end Literal

/-- Other names for all literals. Opposite literals get opposite names. -/
structure Renaming where
  name : Literal → Literal
  bijOn : Set.BijOn name {l | l.Proper} {l | l.Proper}
  name_neg : ∀ l, l.Proper → name (-l) = -name l

def Formula.rename (ρ : Renaming) (f : Formula) : Formula := f.map (List.map ρ.name)

def Derivation.rename (ρ : Renaming) (d : Derivation) : Derivation := d.map (Line.image ρ.name)

/-- The same outcome for an input with other names. -/
def Renaming.result (ρ : Renaming) (r : Except Failure Core) : Except Failure Core :=
  (r.map (Core.image ρ.name)).mapError (Failure.image ρ.name id)

namespace Renaming

/-- A run on an input with variables up to `n` is found under the new names, which are up to `n'`,
in the run on the renamed input. There is nothing else in that run. -/
def image (ρ : Renaming) (n n' : Nat) : Image where
  lit := ρ.name
  handle := id
  legal l := l.Proper ∧ l.var.index ≤ n ∧ (ρ.name l).var.index ≤ n'
  own _ := true
  down _ := False
  bound := n
  bound' := n'
  size _ := none
  alien _ _ := False
  read := []
  read' := []
  exact := true
  clear := True
  proper h := h.1
  small h := h.2.1
  legal_neg {l} h := by
    rw [Literal.proper_neg_iff, Literal.var_neg, ρ.name_neg l h.1, Literal.var_neg]
    exact h
  lit_neg h := ρ.name_neg _ h.1
  lit_inj h h' he := ρ.bijOn.injOn h.1 h'.1 he
  lit_proper h := ρ.bijOn.mapsTo h.1
  lit_small h := h.2.2
  own_lit _ := rfl
  own_neg := rfl
  down_or h := by cases h

theorem merged {g : Image} {f : Formula} (hf : ∀ c ∈ f, ∀ l ∈ c, g.legal l)
    (hh : g.handle = id) (n : Nat) : g.Merged f (f.map (List.map g.lit)) n n := by
  induction f generalizing n with
  | nil => exact .nil fun k => by rw [hh, id]
  | cons c f ih =>
    refine .common (hf c List.mem_cons_self) (by rw [hh, id]) ?_
    exact ih (fun x hx => hf x (List.mem_cons_of_mem c hx)) _

/-- Two literals of different variables change their names. -/
def exchange {a b : Literal} (ha : a.Proper) (hb : b.Proper) (hv : a.var ≠ b.var) : Renaming where
  name := Literal.exchange a b
  bijOn := by
    have hinv := Literal.exchange_exchange ha hb hv
    have hmaps : Set.MapsTo (Literal.exchange a b) {l | l.Proper} {l | l.Proper} :=
      fun _ hl => ha.exchange hb hl
    exact Set.InvOn.bijOn ⟨fun l _ => hinv l, fun l _ => hinv l⟩ hmaps hmaps
  name_neg l _ := Literal.exchange_neg ha hb hv l

end Renaming

/-- A renamed input has the renamed outcome: the core or the clause that is rejected is the one of
the original input under the new names, and all numbers are the same. -/
theorem extract_rename (ρ : Renaming) (settings : Settings) {f : Formula} {d : Derivation}
    (hl : ∀ c ∈ f ++ d.map Derivation.Line.clause, ∀ l ∈ c, l.Proper)
    (hd : settings.ignoreDeletions = true ∨ ∀ line ∈ d, line.isDeletion = false) :
    (extract settings (f.rename ρ) (d.rename ρ)).result =
      ρ.result (extract settings f d).result := by
  let g := ρ.image (maxVar f d) (maxVar (f.rename ρ) (d.rename ρ))
  have hsmall := (fitting_excused f d).small
  have hsmall' := (fitting_excused (f.rename ρ) (d.rename ρ)).small
  have hlegal : ∀ c ∈ f ++ d.map Derivation.Line.clause, ∀ l ∈ c, g.legal l := by
    intro c hc l hlc
    refine ⟨hl c hc l hlc, hsmall c hc l hlc,
      hsmall' (c.map ρ.name) ?_ _ (List.mem_map_of_mem hlc)⟩
    rcases List.mem_append.mp hc with hc | hc
    · exact List.mem_append_left _ (List.mem_map_of_mem hc)
    · obtain ⟨line, hline, rfl⟩ := List.mem_map.mp hc
      refine List.mem_append_right _ (List.mem_map.mpr ⟨line.image ρ.name, ?_, ?_⟩)
      · exact List.mem_map_of_mem hline
      · exact Derivation.Line.clause_image _ _
  have hplain : Plain g settings d := plain_of
    (fun line hline => hlegal _ (List.mem_append_right _ (List.mem_map_of_mem hline))) hd
  have hmerged := Renaming.merged (g := g) (f := f)
    (fun c hc => hlegal c (List.mem_append_left _ hc)) rfl 0
  have hrun := (mirrored_initial (g := g) rfl (fun _ _ => id) rfl rfl).run_common rfl rfl hmerged
    hplain fun size alien t t' _ _ ht => (parallel_replay trivial settings.coreFirst ht).mono
      fun r u r' u' hu => ⟨hu.1, True, hu.2, fun _ _ => trivial⟩
  have hresult := result_of_corresponds hrun (by simp [g, Renaming.image])
  have htally : ∀ x : Except Failure Core, x.map (Core.tally true) = x := by
    rintro (e | core) <;> rfl
  rwa [show g.exact = true from rfl, htally] at hresult

/-- The first variable and the opposite of the second one exchange their names. -/
def Renaming.turned : Renaming :=
  exchange (a := ⟨1⟩) (b := ⟨-2⟩) (by decide) (by decide) (by decide)

/-- The clauses of the core are told by other names, and a clause that is not needed stays out. -/
theorem extract_rename_turned :
    (extract {} (Formula.rename .turned ([[⟨3⟩]] ++ Signings.clauses 2))
      (Derivation.rename .turned [.add [⟨1⟩], .add []])).result =
        Renaming.turned.result
          (extract {} ([[⟨3⟩]] ++ Signings.clauses 2) [.add [⟨1⟩], .add []]).result ∧
    (extract {} ([[⟨3⟩]] ++ Signings.clauses 2) [.add [⟨1⟩], .add []]).result.toOption.map
      Core.clauses = some [[⟨1⟩, ⟨2⟩], [⟨1⟩, ⟨-2⟩], [⟨-1⟩, ⟨2⟩], [⟨-1⟩, ⟨-2⟩]] ∧
    (extract {} (Formula.rename .turned ([[⟨3⟩]] ++ Signings.clauses 2))
      (Derivation.rename .turned [.add [⟨1⟩], .add []])).result.toOption.map Core.clauses =
        some [[⟨-2⟩, ⟨-1⟩], [⟨-2⟩, ⟨1⟩], [⟨2⟩, ⟨-1⟩], [⟨2⟩, ⟨1⟩]] :=
  ⟨extract_rename .turned {} (by decide) (Or.inr (by decide)), by decide +kernel,
    by decide +kernel⟩

end UnsatCore
