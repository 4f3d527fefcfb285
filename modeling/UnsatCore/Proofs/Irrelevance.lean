import UnsatCore.Proofs.ParallelRuns
import UnsatCore.Proofs.Verdict

/-! Satisfiable clauses over variables of their own do not matter to a refutation. Their units are
propagated with those of the formula, but once that has come to its end they are fixed, and from
then on both runs do the same. -/
namespace UnsatCore

open Engine Engine.CheckM

variable {g : Image} {settings : Settings} {f a b m : Formula} {d : Derivation} {s s' : State}
  {n n' : Nat} {σ : Assignment} {handle handle' : Handle → Handle}

/-- The elements of two lists in one list, in which those of each are in order. -/
inductive Interleaves {α : Type} : List α → List α → List α → Prop
  | nil : Interleaves [] [] []
  | left {xs ys zs : List α} (x : α) : Interleaves xs ys zs → Interleaves (x :: xs) ys (x :: zs)
  | right {xs ys zs : List α} (y : α) : Interleaves xs ys zs → Interleaves xs (y :: ys) (y :: zs)

namespace Interleaves

variable {α : Type} {xs ys zs : List α} {x : α}

theorem mem_iff (h : Interleaves xs ys zs) : x ∈ zs ↔ x ∈ xs ∨ x ∈ ys := by
  induction h with
  | nil => simp
  | left y _ ih => rw [List.mem_cons, List.mem_cons, ih, or_assoc]
  | right y _ ih => rw [List.mem_cons, List.mem_cons, ih, or_left_comm]

theorem length_le (h : Interleaves xs ys zs) : xs.length ≤ zs.length := by
  induction h with
  | nil => exact Nat.le_refl 0
  | left y _ ih => exact Nat.succ_le_succ ih
  | right y _ ih => exact Nat.le_succ_of_le ih

end Interleaves

/-- A variable occurs in a formula. -/
def Formula.Mentions (f : Formula) (v : Var) : Prop := ∃ c ∈ f, ∃ l ∈ c, l.var = v

instance (f : Formula) (v : Var) : Decidable (f.Mentions v) :=
  inferInstanceAs (Decidable (∃ c ∈ f, ∃ l ∈ c, l.var = v))

/-- All numbers but that of the propagations. -/
def Core.withoutPropagations (core : Core) : Core :=
  { core with counters := { core.counters with propagations := 0 } }

theorem Core.image_id (core : Core) : core.image id = core := by
  cases core
  simp [image]

theorem Rejection.image_id (r : Rejection) : r.image id = r := by
  cases r <;> simp [image]

namespace Image

/-- The places of the clauses matter from `n` on only. -/
theorem Merged.congr (h : Merged { g with handle } a m n n')
    (hh : ∀ h : Handle, n ≤ h.header → handle' h = handle h) :
    Merged { g with handle := handle' } a m n n' := by
  induction h with
  | nil hplace =>
    refine .nil fun k => ?_
    rw [← hplace k]
    exact hh _ (Nat.le_add_right _ _)
  | common hc hplace _ ih =>
    refine .common hc ?_ (ih fun h hle => hh h (Nat.le_of_add_right_le hle))
    rw [← hplace]
    exact hh _ (Nat.le_refl _)
  | alien hx hclear hf hs _ ih => exact .alien hx hclear (fun l hl => { hf l hl with }) hs (ih hh)

/-- Wherever the clauses of both formulas are put, there are names for those in common. -/
theorem exists_merged (h : Interleaves a b m) (hx : g.exact = false) (hclear : ¬ g.clear)
    (hlit : g.lit = id) (ha : ∀ c ∈ a, ∀ l ∈ c, g.legal l) (hb : ∀ c ∈ b, ∀ l ∈ c, g.Foreign l)
    (hs : ∀ c ∈ b, ∃ l ∈ c, ¬ g.down l) (n n' : Nat) :
    ∃ handle, Merged { g with handle } a m n n' := by
  induction h generalizing n n' with
  | nil => exact ⟨fun h => ⟨n' + (h.header - n)⟩, .nil fun k => by simp⟩
  | @left a b m c _ ih =>
    obtain ⟨handle, hrest⟩ := ih (fun x hx => ha x (List.mem_cons_of_mem c hx)) hb hs
      (n + (c.distinct.length + 2)) (n' + (c.distinct.length + 2))
    let handle' : Handle → Handle := fun h => if h.header = n then ⟨n'⟩ else handle h
    have hplace : handle' ⟨n⟩ = ⟨n'⟩ := if_pos rfl
    have hmerged : Merged { g with handle := handle' } (c :: a) (c.map g.lit :: m) n n' :=
      .common (ha c List.mem_cons_self) hplace (hrest.congr fun h hle => if_neg (by omega))
    have hc : c.map g.lit = c := by rw [hlit, List.map_id]
    rw [hc] at hmerged
    exact ⟨handle', hmerged⟩
  | @right a b m c _ ih =>
    obtain ⟨handle, hrest⟩ := ih ha (fun x hx => hb x (List.mem_cons_of_mem c hx))
      (fun x hx => hs x (List.mem_cons_of_mem c hx)) n (n' + (c.distinct.length + 2))
    refine ⟨handle, .alien hx hclear (fun l hl => ?_) (hs c List.mem_cons_self) hrest⟩
    exact { hb c List.mem_cons_self l hl with }

end Image

namespace Engine

/-- Once all is fixed, what is not fixed is in common. -/
theorem Mirrored.cleared (h : Mirrored g s s') (hf : s'.trail.forced = s'.trail.assigned) :
    Mirrored { g with clear := True } s s' := by
  refine ⟨h.trail.amend (fun _ => id) fun _ l hl => ?_, h.watches.amend (fun _ => id) fun _ => id,
    h.arena.amend _ _ True, h.origins.amend (fun _ => id) fun _ => id, h.steps, h.known, h.counters⟩
  rw [hf, ← Trail.length_falsified, List.drop_length] at hl
  cases hl

/-- The first pass of both runs, without detours. -/
theorem Mirrored.replay_all (h : Mirrored g s s') (hx : g.exact = false) (hclear : ¬ g.clear) :
    Corresponds g.comparison (replay false) (replay false) s s' fun r t r' t' =>
      r' = r ∧ ∃ clear, Mirrored { g with clear } t t' ∧ ∀ last, r = .step last → clear := by
  refine (h.saturate_all hx hclear).bind ?_
  rintro _ t r t' ⟨rfl, ht, hdrained⟩
  cases r with
  | conflict => exact ⟨rfl, g.clear, { ht with }, by simp⟩
  | drained =>
    refine corresponds_left_ok rfl (corresponds_right_ok rfl ?_)
    refine corresponds_left_ok rfl (corresponds_right_ok rfl ?_)
    have hfixed : Mirrored g { t with trail := { t.trail with forced := t.trail.processed } }
        { t' with trail := { t'.trail with forced := t'.trail.processed } } :=
      { ht with trail := ht.trail.fixed }
    refine ((hfixed.cleared (hdrained rfl)).replayFrom trivial false).mono ?_
    rintro r u _ u' ⟨rfl, hu⟩
    exact ⟨rfl, True, hu, fun _ _ => trivial⟩

/-- No clause is in the core yet, so the first pass can be taken without detours. -/
theorem replay_of_load (h : load settings f d (.initial (maxVar f d)) = .ok (.ready, s)) :
    replay settings.coreFirst s = replay false s := by
  obtain ⟨lines, hread⟩ := read_of_load (after_eq_some_iff.mpr h)
  have heq := hread.loaded.replay_coreFirst
  cases settings.coreFirst <;> simp [heq]

end Engine

/-- The run on `f` alone is found in the run on more clauses: the variables of `f` and `d` are those
in common, and `σ` makes the other clauses true. -/
def Assignment.image (σ : Assignment) (f : Formula) (n n' : Nat)
    (hn : ∀ v, f.Mentions v → v.index ≤ n) (hn' : ∀ v, f.Mentions v → v.index ≤ n') : Image where
  lit := id
  handle := id
  legal l := l.Proper ∧ f.Mentions l.var
  own l := decide (f.Mentions l.var)
  down l := ¬ l.Holds σ
  bound := n
  bound' := n'
  size _ := none
  alien _ _ := False
  read := []
  read' := []
  exact := false
  clear := False
  proper h := h.1
  small h := hn _ h.2
  legal_neg h := by rwa [Literal.proper_neg_iff, Literal.var_neg]
  lit_neg _ := rfl
  lit_inj _ _ := id
  lit_proper h := h.1
  lit_small h := hn' _ h.2
  own_lit h := decide_eq_true h.2
  own_neg {l} := by rw [Literal.var_neg]
  down_or {l} _ hp := by
    rw [hp.holds_neg]
    tauto

/-- The run on the formula alone is found in the run on more clauses. -/
theorem exists_corresponds (hl : ∀ c ∈ a ++ d.map Derivation.Line.clause, ∀ l ∈ c, l.Proper)
    (hd : settings.ignoreDeletions = true ∨ ∀ line ∈ d, line.isDeletion = false)
    (hb : ∀ c ∈ b, ∀ l ∈ c,
      l.Proper ∧ ¬ Formula.Mentions (a ++ d.map Derivation.Line.clause) l.var)
    (hm : Interleaves a b m) (hσ : b.Holds σ) : ∃ g : Image, g.exact = false ∧ g.lit = id ∧
    Corresponds g.comparison (run settings a d) (run settings m d) (.initial (maxVar a d))
      (.initial (maxVar m d)) fun core _ core' _ => SameCore g core core' := by
  have hsmall := (fitting_excused m d).small
  have hn : ∀ v, Formula.Mentions (a ++ d.map Derivation.Line.clause) v →
      v.index ≤ maxVar a d := by
    rintro v ⟨c, hc, l, hlc, rfl⟩
    exact (fitting_excused a d).small c hc l hlc
  have hn' : ∀ v, Formula.Mentions (a ++ d.map Derivation.Line.clause) v →
      v.index ≤ maxVar m d := by
    rintro v ⟨c, hc, l, hlc, rfl⟩
    refine hsmall c (List.mem_append.mpr ((List.mem_append.mp hc).imp_left fun ha => ?_)) l hlc
    exact hm.mem_iff.mpr (Or.inl ha)
  let g₀ := σ.image (a ++ d.map Derivation.Line.clause) (maxVar a d) (maxVar m d) hn hn'
  have hlegal : ∀ c ∈ a ++ d.map Derivation.Line.clause, ∀ l ∈ c, g₀.legal l :=
    fun c hc l hlc => ⟨hl c hc l hlc, c, hc, l, hlc, rfl⟩
  have hforeign : ∀ c ∈ b, ∀ l ∈ c, g₀.Foreign l := fun c hc l hlc =>
    ⟨decide_eq_false (hb c hc l hlc).2, (hb c hc l hlc).1,
      hsmall c (List.mem_append_left _ (hm.mem_iff.mpr (Or.inr hc))) l hlc⟩
  have hstanding : ∀ c ∈ b, ∃ l ∈ c, ¬ g₀.down l := by
    intro c hc
    obtain ⟨l, hlc, htrue⟩ := hσ c hc
    exact ⟨l, hlc, fun hdown => hdown htrue⟩
  obtain ⟨handle, hmerged⟩ := Image.exists_merged (g := g₀) hm rfl id rfl
    (fun c hc => hlegal c (List.mem_append_left _ hc)) hforeign hstanding 0 0
  let g : Image := { g₀ with handle }
  have hplain : Plain g settings d := plain_of
    (fun line hline => hlegal _ (List.mem_append_right _ (List.mem_map_of_mem hline))) hd
  have hid : d.map (Derivation.Line.image g.lit) = d := by
    refine List.map_id'' (fun line => ?_) d
    cases line <;> exact congrArg _ (List.map_id _)
  have hrun := (mirrored_initial (g := g) rfl (fun _ _ => id) rfl rfl).run_common rfl rfl hmerged
    hplain fun size alien t t' hload hload' ht =>
      corresponds_congr (replay_of_load hload) (replay_of_load (hid ▸ hload'))
        (ht.replay_all rfl id)
  rw [hid] at hrun
  exact ⟨g, rfl, rfl, hrun⟩

theorem result_ne_fault (settings : Settings)
    (hl : ∀ c ∈ f ++ d.map Derivation.Line.clause, ∀ l ∈ c, l.Proper)
    (hlen : f.length + d.length < 2147483648) (cause : Fault) :
    (extract settings f d).result ≠ .error (.fault cause) := by
  rcases extract_ok_or_rejected settings (fun c hc l hlc => (hl c hc l hlc).2) hlen with
    ⟨core, h⟩ | ⟨r, h, -⟩ <;> simp [h]

theorem subset_of_extract {core : Core} (h : (extract settings f d).result = .ok core) :
    core.clauses ⊆ f := by
  obtain ⟨s, hrun⟩ := extract_eq_ok_iff.mp h
  have hacc := accepted_of_run hrun
  unfold Accepted at hacc
  split at hacc
  · simp [hacc.1]
  · exact hacc.sublist.subset

/-- Clauses over other variables that can be satisfied do not matter, wherever they stand: the
rejection is the same, or the core is, in which there are none of them, and so are all numbers but
that of the propagations. -/
theorem extract_irrelevant (settings : Settings)
    (hl : ∀ c ∈ a ++ d.map Derivation.Line.clause, ∀ l ∈ c, l.Proper)
    (hd : settings.ignoreDeletions = true ∨ ∀ line ∈ d, line.isDeletion = false)
    (hb : ∀ c ∈ b, ∀ l ∈ c,
      l.Proper ∧ ¬ Formula.Mentions (a ++ d.map Derivation.Line.clause) l.var)
    (hsat : b.Satisfiable) (hm : Interleaves a b m) (hlen : m.length + d.length < 2147483648) :
    (extract settings m d).result.map Core.withoutPropagations =
        (extract settings a d).result.map Core.withoutPropagations ∧
      ∀ core, (extract settings m d).result = .ok core → ∀ c ∈ core.clauses, c ∉ b := by
  obtain ⟨σ, hσ⟩ := hsat
  have hl' : ∀ c ∈ m ++ d.map Derivation.Line.clause, ∀ l ∈ c, l.Proper := by
    intro c hc l hlc
    rcases List.mem_append.mp hc with hc | hc
    · rcases hm.mem_iff.mp hc with hc | hc
      · exact hl c (List.mem_append_left _ hc) l hlc
      · exact (hb c hc l hlc).1
    · exact hl c (List.mem_append_right _ hc) l hlc
  have hfault := result_ne_fault settings hl
    (Nat.lt_of_le_of_lt (Nat.add_le_add_right hm.length_le _) hlen)
  have hfault' := result_ne_fault settings hl' hlen
  obtain ⟨g, hx, hid, hrun⟩ := exists_corresponds hl hd hb hm hσ
  have hresult := result_of_corresponds hrun fun _ cause => ⟨hfault cause, hfault' cause⟩
  have hsame : (extract settings m d).result.map Core.withoutPropagations =
      (extract settings a d).result.map Core.withoutPropagations := by
    rw [hx, hid] at hresult
    refine Eq.trans (hresult : _ = _) ?_
    cases he : (extract settings a d).result with
    | ok core => exact congrArg (fun c : Core => Except.ok c.withoutPropagations) core.image_id
    | error e =>
      cases e with
      | fault cause => exact (hfault cause he).elim
      | rejected r => exact congrArg (fun r => Except.error (Failure.rejected r)) r.image_id
  refine ⟨hsame, fun core hcore c hc hcb => ?_⟩
  -- A clause of the core is one of `a`, and those of `b` are neither empty nor about its variables.
  have hca : c ∈ a := by
    rw [hcore] at hsame
    cases he : (extract settings a d).result with
    | error e => simp [he, Except.map] at hsame
    | ok core' =>
      rw [he] at hsame
      have hclauses := congrArg Core.clauses (Except.ok.inj hsame)
      exact subset_of_extract he (hclauses ▸ hc)
  obtain ⟨l, hlc, -⟩ := hσ c hcb
  exact (hb c hcb l hlc).2 ⟨c, List.mem_append_left _ hca, l, hlc, rfl⟩

/-- Two more clauses are propagated in the formula and stay out of the core. -/
theorem extract_irrelevant_units :
    ((extract {} ([[⟨4⟩]] ++ Signings.clauses 2 ++ [[⟨-4⟩, ⟨3⟩]]) [.add [⟨1⟩], .add []]).result.map
        Core.withoutPropagations =
      (extract {} (Signings.clauses 2) [.add [⟨1⟩], .add []]).result.map
        Core.withoutPropagations) ∧
    (extract {} ([[⟨4⟩]] ++ Signings.clauses 2 ++ [[⟨-4⟩, ⟨3⟩]])
      [.add [⟨1⟩], .add []]).result.toOption.map
        (fun core => (core.clauses, core.counters.propagations)) = some (Signings.clauses 2, 3) ∧
    (extract {} (Signings.clauses 2) [.add [⟨1⟩], .add []]).result.toOption.map
        (fun core => (core.clauses, core.counters.propagations)) =
      some (Signings.clauses 2, 2) := by
  have hm : Interleaves (Signings.clauses 2) [[⟨4⟩], [⟨-4⟩, ⟨3⟩]]
      ([[⟨4⟩]] ++ Signings.clauses 2 ++ [[⟨-4⟩, ⟨3⟩]]) :=
    .right _ (.left _ (.left _ (.left _ (.left _ (.right _ .nil)))))
  have hsat : Formula.Satisfiable [[⟨4⟩], [⟨-4⟩, ⟨3⟩]] := by
    refine ⟨fun _ => true, ?_⟩
    simp only [Formula.Holds, Clause.Holds, Literal.Holds]
    decide
  refine ⟨(extract_irrelevant {} (by decide) (Or.inr (by decide)) (by decide) hsat hm
    (by decide)).1, ?_, ?_⟩
  · decide +kernel
  · decide +kernel

end UnsatCore
