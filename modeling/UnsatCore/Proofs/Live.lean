import UnsatCore.Derivation
import UnsatCore.Engine.State
import UnsatCore.Settings
import UnsatCore.Proofs.Closure
import Mathlib.Data.List.Perm.Subperm

/-! The clauses that are live before a line of a derivation, as sets of literals. An addition brings
a clause in and a deletion takes one equal copy out, if there is one. -/
namespace UnsatCore

variable {c d k : Clause} {f : Formula} {l : Literal} {seen : Clause}

namespace Clause

theorem mem_distinctFrom : l ∈ distinctFrom seen c ↔ l ∈ c ∧ l ∉ seen := by
  induction c generalizing seen with
  | nil => simp [distinctFrom]
  | cons m c ih =>
    simp only [distinctFrom, List.contains_eq_mem, decide_eq_true_eq]
    split
    · rw [ih, List.mem_cons]
      constructor
      · exact fun h => ⟨Or.inr h.1, h.2⟩
      · rintro ⟨rfl | h, hs⟩
        · contradiction
        · exact ⟨h, hs⟩
    · rw [List.mem_cons, ih, List.mem_cons, List.mem_cons]
      by_cases he : l = m
      · simp_all
      · simp [he]

theorem nodup_distinctFrom (seen c : Clause) : (distinctFrom seen c).Nodup := by
  induction c generalizing seen with
  | nil => simp [distinctFrom]
  | cons m c ih =>
    simp only [distinctFrom]
    split
    · exact ih seen
    · exact List.nodup_cons.mpr ⟨fun h => (mem_distinctFrom.mp h).2 (by simp), ih _⟩

theorem mem_distinct : l ∈ c.distinct ↔ l ∈ c := by
  simp [distinct, mem_distinctFrom]

theorem nodup_distinct (c : Clause) : c.distinct.Nodup := nodup_distinctFrom [] c

theorem distinct_eq_nil : c.distinct = [] ↔ c = [] := by
  simp only [List.eq_nil_iff_forall_not_mem, mem_distinct]

theorem Same.refl (c : Clause) : c.Same c := fun _ => Iff.rfl

theorem Same.symm (h : c.Same d) : d.Same c := fun l => (h l).symm

theorem Same.trans (h : c.Same d) (h' : d.Same k) : c.Same k := fun l => (h l).trans (h' l)

theorem distinct_same (c : Clause) : c.distinct.Same c := fun _ => mem_distinct

theorem same_iff : c.Same d ↔ (∀ l ∈ c, l ∈ d) ∧ ∀ l ∈ d, l ∈ c :=
  ⟨fun h => ⟨fun l => (h l).mp, fun l => (h l).mpr⟩, fun h l => ⟨h.1 l, h.2 l⟩⟩

instance (c d : Clause) : Decidable (c.Same d) := decidable_of_iff _ same_iff.symm

theorem Same.perm (h : c.Same d) (hc : c.Nodup) (hd : d.Nodup) : c.Perm d :=
  (List.perm_ext_iff_of_nodup hc hd).mpr h

end Clause

/-- The live clauses after one more line. -/
def Derivation.Line.carryOut (f : Formula) : Line → Formula
  | add c => c :: f
  | delete c => f.eraseP fun d => c.Same d

/-- The clauses that are live after the lines of a derivation, if those of `f` were before it. -/
def Derivation.live (f : Formula) (d : Derivation) : Formula := d.foldl Line.carryOut f

theorem Derivation.live_append_singleton (f : Formula) (d : Derivation) (line : Line) :
    Derivation.live f (d ++ [line]) = line.carryOut (Derivation.live f d) := by
  simp [live]

/-- The lines before `i` are all read: none of them is the empty lemma. -/
def Derivation.Reaches (d : Derivation) (i : Nat) : Prop := ∀ j < i, d[j]? ≠ some (.add [])

/-- What a rejection says about a formula and a derivation. -/
def Rejection.Warranted (settings : Settings) (f : Formula) (d : Derivation) : Rejection → Prop
  | zeroLiteral .formula i => ∃ c, f[i]? = some c ∧ c.hasZero = true
  | zeroLiteral .derivation i => ∃ line, d[i]? = some line ∧ line.clause.hasZero = true
  | unmatchedDeletion i c => settings.strictDeletions = true ∧ settings.ignoreDeletions = false ∧
      d.Reaches i ∧ d[i]? = some (.delete c) ∧
      ∀ k ∈ Derivation.live f (d.take i), ¬ c.Same k
  | noConflict => .add [] ∉ d
  | conflictNotFound i => d.Reaches i ∧
      ∃ c, d[i]? = some (.add c) ∧ ¬ c.FollowsFrom (Derivation.live f (d.take i))
  | lemmaNotImplied i c => d.Reaches i ∧ d[i]? = some (.add c) ∧
      ¬ c.FollowsFrom (Derivation.live f (d.take i))

/-- Found while the input is read, before anything is propagated. -/
def Rejection.AtReading : Rejection → Prop
  | zeroLiteral _ _ | unmatchedDeletion _ _ => True
  | noConflict | conflictNotFound _ | lemmaNotImplied _ _ => False

namespace Engine

variable {body : Handle → Clause} {alive : List Handle} {h : Handle}

/-- The handles that deletions can name after one more line. -/
def Step.carryOut (alive : List Handle) : Step → List Handle
  | add h => h :: alive
  | delete h => alive.erase h
  | satisfied _ | ignored => alive

def aliveAfter (origins : List Handle) (steps : List Step) : List Handle :=
  steps.foldl Step.carryOut origins

theorem aliveAfter_append_singleton (origins : List Handle) (steps : List Step) (step : Step) :
    aliveAfter origins (steps ++ [step]) = step.carryOut (aliveAfter origins steps) := by
  simp [aliveAfter]

/-- The clauses that stand after one more line. A lemma stands even where it was left out, and only
a deletion that was carried out takes a clause away. -/
def Step.stand (hs : List Handle) : Step → List Handle
  | add h | satisfied h => h :: hs
  | delete h => hs.filter (· ≠ h)
  | ignored => hs

def standingAfter (origins : List Handle) (steps : List Step) : List Handle :=
  steps.foldl Step.stand origins

theorem standingAfter_append_singleton (origins : List Handle) (steps : List Step) (step : Step) :
    standingAfter origins (steps ++ [step]) = step.stand (standingAfter origins steps) := by
  simp [standingAfter]

/-- For each copy of a live clause there is a handle. -/
def Covers (body : Handle → Clause) (alive : List Handle) (f : Formula) : Prop :=
  ∀ k : Clause, f.countP (fun d => k.Same d) ≤ alive.countP fun h => k.Same (body h)

theorem Covers.exists_same (hv : Covers body alive f) (hc : c ∈ f) :
    ∃ h ∈ alive, c.Same (body h) := by
  have hpos : 0 < f.countP fun d => c.Same d :=
    List.countP_pos_iff.mpr ⟨c, hc, by simpa using Clause.Same.refl c⟩
  obtain ⟨h, hh, hs⟩ := List.countP_pos_iff.mp (Nat.lt_of_lt_of_le hpos (hv c))
  exact ⟨h, hh, by simpa using hs⟩

theorem Covers.add (hv : Covers body alive f) (hs : (body h).Same c) :
    Covers body (h :: alive) (c :: f) := by
  intro k
  have hiff : k.Same c ↔ k.Same (body h) := ⟨fun hk => hk.trans hs.symm, fun hk => hk.trans hs⟩
  simp only [List.countP_cons, hiff]
  exact Nat.add_le_add_right (hv k) _

theorem Covers.ignore (hv : Covers body alive f) (c : Clause) :
    Covers body alive (f.eraseP fun d => c.Same d) := fun k =>
  Nat.le_trans (List.eraseP_sublist.countP_le) (hv k)

theorem Covers.delete (hv : Covers body alive f) (hh : h ∈ alive) (hs : (body h).Same c) :
    Covers body (alive.erase h) (f.eraseP fun d => c.Same d) := by
  intro k
  have hle := hv k
  rw [(List.perm_cons_erase hh).countP_eq, List.countP_cons] at hle
  by_cases hk : k.Same c
  · have hb : k.Same (body h) := hk.trans hs.symm
    simp only [hb, decide_true, if_true] at hle
    by_cases hex : ∃ d ∈ f, c.Same d
    · obtain ⟨d, hd, hcd⟩ := hex
      obtain ⟨d', f₁, f₂, -, hcd', he, herase⟩ := List.exists_of_eraseP hd (p := fun d => c.Same d)
        (by simpa using hcd)
      have hkd : k.Same d' := hk.trans (by simpa using hcd')
      rw [he] at hle
      rw [herase]
      simp only [List.countP_append, List.countP_cons, hkd, decide_true, if_true] at hle ⊢
      omega
    · have hzero : (f.eraseP fun d => c.Same d).countP (fun d => k.Same d) = 0 := by
        rw [List.countP_eq_zero]
        intro d hd hkd
        exact hex ⟨d, List.mem_of_mem_eraseP hd, hk.symm.trans (by simpa using hkd)⟩
      omega
  · have hb : ¬ k.Same (body h) := fun hkb => hk (hkb.trans hs)
    simp only [hb, decide_false, Bool.false_eq_true, if_false, Nat.add_zero] at hle
    exact Nat.le_trans (List.eraseP_sublist.countP_le) hle

end Engine

end UnsatCore
