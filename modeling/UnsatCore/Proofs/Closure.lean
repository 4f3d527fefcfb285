import UnsatCore.Semantics.Assignment
import UnsatCore.Semantics.Closure
import UnsatCore.Proofs.Literal
import Mathlib.Tactic.Common

/-! Unit propagation as a closure: it does not depend on how clauses are written down, it follows
from the clauses, and it is confined to what is true once each clause is quiet. -/
namespace UnsatCore

variable {f g : Formula} {c d : Clause} {l m : Literal} {start start' : Literal → Prop}
  {σ : Assignment} {fs : List Literal}

/-- Two clauses with the same literals, whatever their order and repetitions. -/
def Clause.Same (c d : Clause) : Prop := ∀ l, l ∈ c ↔ l ∈ d

/-- Each clause of `f` is in `g`, up to the order and the repetitions of its literals. -/
def Formula.Within (f g : Formula) : Prop := ∀ c ∈ f, ∃ d ∈ g, c.Same d

theorem Implied.within (h : Implied f start l) (hf : f.Within g) (hs : ∀ l, start l → start' l) :
    Implied g start' l := by
  induction h with
  | given h => exact .given (hs _ h)
  | unit hc hl _ ih =>
    obtain ⟨d, hd, he⟩ := hf _ hc
    exact .unit hd ((he _).mp hl) fun m hm hne => ih m ((he m).mpr hm) hne

theorem Conflicting.within (h : Conflicting f start) (hf : f.Within g)
    (hs : ∀ l, start l → start' l) : Conflicting g start' := by
  obtain ⟨c, hc, hall⟩ := h
  obtain ⟨d, hd, he⟩ := hf c hc
  exact ⟨d, hd, fun l hl => (hall l ((he l).mpr hl)).within hf hs⟩

theorem Clause.FollowsFrom.within (h : c.FollowsFrom f) (hf : f.Within g) (hc : c.Same d) :
    d.FollowsFrom g := by
  rcases h with ⟨l, hl, hn⟩ | h
  · exact Or.inl ⟨l, (hc l).mp hl, (hc (-l)).mp hn⟩
  · exact Or.inr (h.within hf fun l hl => (hc (-l)).mp hl)

/-- A clause follows from its two extensions by a literal. -/
theorem Clause.followsFrom_of_extensions (h : c ++ [l] ∈ f) (h' : c ++ [-l] ∈ f) :
    c.FollowsFrom f := by
  have hneg : ∀ m ∈ c, Implied f c.negated (-m) := fun m hm =>
    .given (by rwa [negated, Literal.neg_neg])
  have hl : Implied f c.negated l := by
    refine .unit h (by simp) fun m hm hne => ?_
    rcases List.mem_append.mp hm with hm | hm
    · exact hneg m hm
    · exact (hne (List.mem_singleton.mp hm)).elim
  refine Or.inr ⟨_, h', fun m hm => ?_⟩
  rcases List.mem_append.mp hm with hm | hm
  · exact hneg m hm
  · rw [List.mem_singleton.mp hm, Literal.neg_neg]
    exact hl

section Semantics

/-- What unit propagation derives holds wherever the clauses and the start hold. -/
theorem Implied.holds (h : Implied f start l) (hp : ∀ c ∈ f, ∀ l ∈ c, l.Proper) (hf : f.Holds σ)
    (hs : ∀ l, start l → l.Holds σ) : l.Holds σ := by
  induction h with
  | given h => exact hs _ h
  | @unit c l hc hl _ ih =>
    obtain ⟨m, hm, hσ⟩ := hf c hc
    by_cases he : m = l
    · exact he ▸ hσ
    · exact ((hp c hc m hm).holds_neg.mp (ih m hm he) hσ).elim

theorem Conflicting.not_holds (h : Conflicting f start) (hp : ∀ c ∈ f, ∀ l ∈ c, l.Proper)
    (hs : ∀ l, start l → l.Holds σ) : ¬ f.Holds σ := by
  intro hf
  obtain ⟨c, hc, hall⟩ := h
  obtain ⟨l, hl, hσ⟩ := hf c hc
  exact (hp c hc l hl).holds_neg.mp ((hall l hl).holds hp hf hs) hσ

theorem Clause.FollowsFrom.holds (h : c.FollowsFrom f) (hp : ∀ c ∈ f, ∀ l ∈ c, l.Proper)
    (hc : ∀ l ∈ c, l.Proper) (hf : f.Holds σ) : c.Holds σ := by
  rcases h with ⟨l, hl, hn⟩ | h
  · by_cases hσ : l.Holds σ
    · exact ⟨l, hl, hσ⟩
    · exact ⟨-l, hn, (hc l hl).holds_neg.mpr hσ⟩
  · by_contra hno
    apply h.not_holds hp ?_ hf
    intro l hl
    have hnl : ¬ (-l).Holds σ := fun hσ => hno ⟨-l, hl, hσ⟩
    rw [← Literal.neg_neg l]
    exact (hc (-l) hl).holds_neg.mpr hnl

end Semantics

/-- A clause in which unit propagation finds nothing new: one of its literals is true, or two are
not false. -/
def Quiet (fs : List Literal) (c : Clause) : Prop :=
  (∃ l ∈ c, -l ∈ fs) ∨ ∃ l ∈ c, ∃ m ∈ c, l ≠ m ∧ l ∉ fs ∧ m ∉ fs

theorem Quiet.same (h : Quiet fs c) (hs : c.Same d) : Quiet fs d := by
  rcases h with ⟨l, hl, ht⟩ | ⟨l, hl, m, hm, hq⟩
  · exact Or.inl ⟨l, (hs l).mp hl, ht⟩
  · exact Or.inr ⟨l, (hs l).mp hl, m, (hs m).mp hm, hq⟩

/-- A quiet clause has a literal apart from any given one that is not false, or the given one is
true. -/
theorem Quiet.forces (h : Quiet fs c) (hfs : ∀ l ∈ fs, -l ∉ fs)
    (hc : ∀ m ∈ c, m ≠ l → m ∈ fs) : -l ∈ fs := by
  rcases h with ⟨m, hm, ht⟩ | ⟨m, hm, k, hk, hne, hmf, hkf⟩
  · by_cases he : m = l
    · exact he ▸ ht
    · exact (hfs m (hc m hm he) ht).elim
  · by_cases he : m = l
    · exact (hkf (hc k hk fun hkl => hne (he.trans hkl.symm))).elim
    · exact (hmf (hc m hm he)).elim

theorem Quiet.not_all_false (h : Quiet fs c) (hfs : ∀ l ∈ fs, -l ∉ fs) : ¬ ∀ l ∈ c, l ∈ fs := by
  intro hall
  rcases h with ⟨m, hm, ht⟩ | ⟨m, hm, -, -, -, hmf, -⟩
  · exact hfs m (hall m hm) ht
  · exact hmf (hall m hm)

/-- Among quiet clauses unit propagation never leaves what is true already. -/
theorem Implied.mem_of_quiet (h : Implied f start l) (hfs : ∀ l ∈ fs, -l ∉ fs)
    (hq : ∀ c ∈ f, Quiet fs c) (hs : ∀ l, start l → -l ∈ fs) : -l ∈ fs := by
  induction h with
  | given h => exact hs _ h
  | unit hc _ _ ih =>
    exact (hq _ hc).forces hfs fun m hm hne => by simpa using ih m hm hne

theorem not_conflicting_of_quiet (hfs : ∀ l ∈ fs, -l ∉ fs) (hq : ∀ c ∈ f, Quiet fs c)
    (hs : ∀ l, start l → -l ∈ fs) : ¬ Conflicting f start := by
  rintro ⟨c, hc, hall⟩
  apply (hq c hc).not_all_false hfs
  intro l hl
  simpa using (hall l hl).mem_of_quiet hfs hq hs

/-- A clause whose literals are all false does not follow from quiet clauses. -/
theorem not_followsFrom_of_quiet (hfs : ∀ l ∈ fs, -l ∉ fs) (hq : ∀ c ∈ f, Quiet fs c)
    (hc : ∀ l ∈ c, l ∈ fs) : ¬ c.FollowsFrom f := by
  rintro (⟨l, hl, hn⟩ | h)
  · exact hfs l (hc l hl) (hc (-l) hn)
  · exact not_conflicting_of_quiet hfs hq (fun l hl => hc (-l) hl) h

end UnsatCore
