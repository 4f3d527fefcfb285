import UnsatCore.Proofs.Propagation

/-! What the explanation of a conflict does. It puts the clauses that the conflict depends on into
the core, tells their watchers and counts each of them once, and takes the trail back to what is
fixed. -/
namespace UnsatCore

open Engine Engine.CheckM

variable {settings : Settings} {f : Formula} {d : Derivation} {s s' s₁ : State} {n line : Nat}
  {b : Bool} {F G : Prop} {R : Rejection → State → Prop} {body : Handle → Clause} {A C : Set Handle}
  {c k : Handle} {l : Literal} {L : Ledger}

/-- The clauses that a conflict in `c` depends on: the clause itself, with it the reasons of the
variables of its literals, and with a reason those of the variables of its literals but the first,
which is the one that it forced. -/
inductive Implicated (s : State) (c : Handle) : Handle → Prop
  | conflict : Implicated s c c
  | falsified {l : Literal} {k : Handle} (hl : l ∈ s.arena.literals c)
      (hr : s.trail.reasonAt l.var = some k) : Implicated s c k
  | forced {r k : Handle} {l : Literal} (h : Implicated s c r)
      (hl : l ∈ (s.arena.literals r).tail) (hr : s.trail.reasonAt l.var = some k) :
      Implicated s c k

/-- What the explanation of a conflict in `c` does from `s` to `s'`. The clauses that the conflict
depends on are in the core, their watchers know it, and each was counted once; no clause changes and
no watcher moves. Of the trail the part that is fixed stays, without marks. -/
structure Explained (c : Handle) (s s' : State) : Prop where
  has : ∀ k, s'.arena.Has k ↔ s.arena.Has k
  literals : ∀ k, s.arena.Has k → s'.arena.literals k = s.arena.literals k
  inCore : ∀ k, s.arena.Has k →
    (s'.arena.inCore k = true ↔ s.arena.inCore k = true ∨ Implicated s c k)
  watchers : ∀ l, List.Forall₂
    (fun w w' => w'.clause = w.clause ∧ (w'.core = true ↔ w.core = true ∨ Implicated s c w.clause))
    (s.watches.watchers l) (s'.watches.watchers l)
  watched : ∀ k, Implicated s c k → 2 ≤ (s.arena.literals k).length → ∀ l,
    ⟨k, true⟩ ∈ s'.watches.watchers l ↔ l ∈ (s.arena.literals k).take 2
  falsified : s'.trail.falsified = s.trail.falsified.take s.trail.forced
  fixed : ∀ l ∈ s'.trail.falsified, s'.trail.statusOf l = .ok .falsified ∧
    s'.trail.reasonOf l.var = s.trail.reasonOf l.var
  dropped : ∀ l ∈ s.trail.falsified.drop s.trail.forced, s'.trail.statusOf l = .ok .unset ∧
    s'.trail.reasonOf l.var = .ok none
  assigned : s'.trail.assigned = s.trail.forced
  processed : s'.trail.processed = s.trail.forced
  forced : s'.trail.forced = s.trail.forced
  counters : ∃ ks : List Handle, ks.Nodup ∧ (∀ k, k ∈ ks ↔ Implicated s c k) ∧
    s'.counters = { s.counters with resolutions := s.counters.resolutions + ks.length }

section Closure

/-- Only what a literal that takes part was forced by is implicated. -/
theorem Implicated.of_reached (hum : ∀ m, ¬ s.trail.Marked m)
    (h : Reached s.arena s.trail.entries (fun m => m ∈ s.arena.literals c ∨ s.trail.Marked m) l)
    (hr : s.trail.reasonAt l.var = some k) : Implicated s c k := by
  induction h generalizing k with
  | marked hl => exact .falsified (hl.resolve_right (hum _)) hr
  | forced he hr' _ hl ih => exact .forced (ih ((Trail.mem_entries_reason he).trans hr')) hl hr

/-- The walk down the trail finds all clauses that the conflict depends on. -/
theorem Engine.Coherent.mem_dependency_iff (h : Coherent n F body A s)
    (hum : ∀ m, ¬ s.trail.Marked m) (hc : ∀ l ∈ s.arena.literals c, l ∈ s.trail.falsified) :
    k ∈ Dependency c s ↔ Implicated s c k := by
  have hentry {l k} (hl : l ∈ s.trail.falsified) (hr : s.trail.reasonAt l.var = some k) :
      ⟨l, some k⟩ ∈ s.trail.entries := List.mem_map.mpr ⟨l, hl, by rw [hr]⟩
  constructor
  · rintro (rfl | ⟨e, he, hr, hreach⟩)
    · exact .conflict
    · exact .of_reached hum hreach ((Trail.mem_entries_reason he).trans hr)
  · intro hk
    induction hk with
    | conflict => exact Or.inl rfl
    | falsified hl hr => exact Or.inr ⟨_, hentry (hc _ hl) hr, rfl, .marked (Or.inl hl)⟩
    | @forced r k l _ hl hr ih =>
      rcases ih with rfl | ⟨e, he, hre, hreach⟩
      · have hl := List.mem_of_mem_tail hl
        exact Or.inr ⟨_, hentry (hc _ hl) hr, rfl, .marked (Or.inl hl)⟩
      · -- What a reason was forced from lies below it, so the walk still comes to it.
        obtain ⟨pre, post, hsplit⟩ := List.append_of_mem he
        have hlow := h.grounded.lower hsplit hre hl
        have hmem : l ∈ s.trail.falsified := by
          rw [← Trail.map_literal_entries, hsplit, List.map_append]
          exact List.mem_append_left _ hlow
        exact Or.inr ⟨_, hentry hmem hr, rfl, .forced he hre hreach hl⟩

end Closure

section Effect

/-- No watcher moves, and those of the needed clauses are told. -/
theorem Engine.Entered.forall₂_watchers (h : Entered C s s') (hs : Coherent n F body A s)
    (hs' : Coherent n F body A s') (l : Literal) : List.Forall₂
      (fun w w' => w'.clause = w.clause ∧ (w'.core = true ↔ w.core = true ∨ w.clause ∈ C))
      (s.watches.watchers l) (s'.watches.watchers l) := by
  have hclauses : (s'.watches.watchers l).map Watcher.clause =
      (s.watches.watchers l).map Watcher.clause := congrFun h.clauses l
  have hlen := congrArg List.length hclauses
  simp only [List.length_map] at hlen
  refine List.forall₂_iff_get.mpr ⟨hlen.symm, fun i hi hi' => ?_⟩
  have hclause : ((s'.watches.watchers l).get ⟨i, hi'⟩).clause =
      ((s.watches.watchers l).get ⟨i, hi⟩).clause := by
    have hget := congrArg (·[i]?) hclauses
    simpa [hi, hi'] using hget
  obtain ⟨hA, hcore, -⟩ := (hs.watched.mem_iff l _).mp (List.get_mem _ ⟨i, hi⟩)
  obtain ⟨-, hcore', -⟩ := (hs'.watched.mem_iff l _).mp (List.get_mem _ ⟨i, hi'⟩)
  refine ⟨hclause, ?_⟩
  rw [hcore', hclause, hcore]
  exact h.enlarged.inCore _ (hs.attached _ hA).1

theorem Engine.Backtracked.falsified (h : Backtracked s s') :
    s'.trail.falsified = s.trail.falsified.take s.trail.forced := by
  rw [← Trail.map_literal_entries, h.entries, Trail.take_falsified]

theorem Engine.Backtracked.fixed (h : Backtracked s s') (hs : s.trail.Wf n) (hs' : s'.trail.Wf n)
    (hl : l ∈ s'.trail.falsified) : s'.trail.statusOf l = .ok .falsified ∧
      s'.trail.reasonOf l.var = s.trail.reasonOf l.var := by
  have hsmall := hs'.small l hl
  have hentry : ⟨l, s'.trail.reasonAt l.var⟩ ∈ s'.trail.entries :=
    List.mem_map.mpr ⟨l, hl, rfl⟩
  rw [h.entries] at hentry
  have hreason := Trail.mem_entries_reason (List.mem_of_mem_take hentry)
  refine ⟨hs'.statusOf_of_mem hl (h.unmarked l hl), ?_⟩
  rw [hs.reasonOf hsmall, hs'.reasonOf hsmall]
  exact congrArg _ hreason.symm

theorem Engine.Backtracked.dropped (h : Backtracked s s') (hs : s.trail.Wf n)
    (hs' : s'.trail.Wf n) (hl : l ∈ s.trail.falsified.drop s.trail.forced) :
    s'.trail.statusOf l = .ok .unset ∧ s'.trail.reasonOf l.var = .ok none := by
  have hmem := List.mem_of_mem_drop hl
  have hsmall := hs.small l hmem
  have hgone : l ∉ s'.trail.falsified := fun hno =>
    hs.not_mem_drop (h.falsified ▸ hno) hl
  refine ⟨hs'.statusOf_of_not_mem hsmall hgone, ?_⟩
  rw [hs'.reasonOf hsmall, hs'.reasonAt_eq_none fun m hm hv => hgone ?_]
  have hm' : m ∈ s.trail.falsified := List.mem_of_mem_take (h.falsified ▸ hm)
  exact List.inj_on_of_nodup_map hs.nodup hm' hmem hv ▸ hm

/-- Where unit propagation meets a conflict, the explanation succeeds. -/
theorem Engine.Blocked.ends_explained (h : Blocked n F body A s c s₁)
    (ha : Anchored body A s.trail.entries) (hf : s.trail.forced ≤ s.trail.assigned)
    (hum : ∀ m, ¬ s.trail.Marked m) :
    Ends G R (explain c) s₁ fun _ s' => Explained c s₁ s' := by
  have hs := h.coherent
  have ha₁ := h.grew.anchored ha
  have hf₁ := h.grew.forced_le hf
  refine (Engine.ends_explain hs ha₁ hf₁ h.attached h.falsified).mono ?_
  rintro - s' ⟨hs', hb, hent⟩
  have hdep : ∀ k, k ∈ Dependency c s₁ ↔ Implicated s₁ c k := fun k =>
    hs.mem_dependency_iff (fun m hm => hum m (h.grew.marked m hm)) h.falsified
  have hattached : ∀ k, Implicated s₁ c k → 2 ≤ (s₁.arena.literals k).length →
      s₁.arena.Has k ∧ k ∈ A := by
    intro k hk hlen
    rcases (hdep k).mpr hk with rfl | ⟨e, he, hr, -⟩
    · exact ⟨(hs.attached k h.attached).1, h.attached⟩
    · have hhas := hs.grounded.has he hr
      exact ⟨hhas, ha₁ e he k hr (hs.stored.length hhas ▸ hlen)⟩
  rw [show Dependency c s₁ = {k | Implicated s₁ c k} from Set.ext hdep] at hent
  refine ⟨hent.enlarged.has, hent.enlarged.literals, hent.enlarged.inCore,
    hent.forall₂_watchers hs hs', ?_, hb.falsified, fun l => hb.fixed hs.trail hs'.trail,
    fun l => hb.dropped hs.trail hs'.trail, ?_, hb.processed, hb.forced, hent.counters⟩
  · intro k hk hlen l
    obtain ⟨hhas, hA⟩ := hattached k hk hlen
    rw [hs'.watched.mem_iff, hent.enlarged.literals k hhas,
      (hent.enlarged.inCore k hhas).mpr (Or.inr hk)]
    simp [hA]
  · rw [← Trail.length_entries, hb.entries, List.length_take, Trail.length_entries]
    exact Nat.min_eq_left hf₁

end Effect

section Calls

/-- The first pass at a lemma whose literals are all false, up to its call of unit propagation. -/
def Engine.voidLemma (c : Handle) : CheckM Bool := do
  let view ← sortUnfalsified c
  if view.satisfied then return false
  else
    attachLong c
    return decide (view.size = 0)

/-- The first pass calls unit propagation where `voidLemma` leaves it. -/
theorem replayLemma_of_voidLemma {i : Nat} (h : voidLemma c s = .ok (true, s₁)) :
    replayLemma b i c s = replayEmpty b i s₁ := by
  obtain ⟨view, s₂, hsort, h⟩ := bind_eq_ok_iff.mp h
  rw [replayLemma, bind_of_ok hsort]
  by_cases hsat : view.satisfied = true
  · rw [if_pos hsat] at h
    cases h
  rw [if_neg hsat] at h ⊢
  obtain ⟨⟨⟩, s₃, hattach, h⟩ := bind_eq_ok_iff.mp h
  obtain ⟨hsize, rfl⟩ := Prod.mk.inj (Except.ok.inj h)
  rw [bind_of_ok hattach, of_decide_eq_true hsize]
  rfl

/-- The state in which the first pass calls unit propagation for the lemma of a line whose literals
are all false, if the run comes to it. -/
def stateAtVoid (settings : Settings) (f : Formula) (d : Derivation) (line : Nat) :
    Option State :=
  (stateAt settings f d (.forth line)).bind fun s =>
    match s.steps[line]? with
    | some (.add c) => after (voidLemma c) true s
    | _ => none

/-- The states in which a run calls unit propagation. -/
inductive CalledAt (settings : Settings) (f : Formula) (d : Derivation) (s : State) : Prop
  | call {call : Call} (h : stateAtCall settings f d call = some s)
  | void {line : Nat} (h : stateAtVoid settings f d line = some s)

/-- Where all literals of a lemma are false, all is as before the line but for its watchers. -/
theorem coherent_of_stateAtVoid (h : stateAtVoid settings f d line = some s) :
    ∃ body A, Coherent (maxVar f d) True body A s ∧ s.trail.forced = s.trail.assigned ∧
      s.trail.processed = s.trail.assigned ∧ ∀ m, ¬ s.trail.Marked m := by
  obtain ⟨sf, hsf, h⟩ := Option.bind_eq_some_iff.mp h
  obtain ⟨s₀, hload, hsf⟩ := Option.bind_eq_some_iff.mp hsf
  obtain ⟨lines, hread⟩ := read_of_load hload
  obtain ⟨past, A, rfl, hf, -⟩ := hread.loaded.forward_of_forth hsf
  obtain ⟨c, hs, hrun⟩ := exists_add h
  rw [hf.getElem?_steps] at hs
  obtain ⟨view, s₁, hsort, hrun⟩ := bind_eq_ok_iff.mp hrun
  by_cases hsat : view.satisfied = true
  · rw [if_pos hsat] at hrun
    cases hrun
  rw [if_neg hsat] at hrun
  obtain ⟨⟨⟩, s₂, hattach, hrun⟩ := bind_eq_ok_iff.mp hrun
  obtain ⟨hf₁, -, hco, heq⟩ := hf.placed hs hsort hattach
  obtain ⟨-, rfl⟩ := Prod.mk.inj (Except.ok.inj hrun)
  have htrail : s₂.trail = s₁.trail := by rw [heq]
  rw [htrail]
  exact ⟨_, _, hco, hf₁.restored.forced, hf₁.restored.processed, hf₁.restored.unmarked⟩

theorem idle_of_stateAtVoid (h : stateAtVoid settings f d line = some s) :
    ∃ n, s.trail.Wf n ∧ s.trail.processed = s.trail.assigned := by
  obtain ⟨body, A, hco, -, hp, -⟩ := coherent_of_stateAtVoid h
  exact ⟨_, hco.trail, hp⟩

/-- Where nothing is left to propagate, no conflict is met. -/
theorem not_stop_of_idle (hw : s.trail.Wf n) (hp : s.trail.processed = s.trail.assigned) :
    (Search.saturate b).run s ≠ .ok (.error c, s₁) := by
  intro hstop
  have hrun := saturate_idle b hw hp
  rw [← Search.explained_saturate, Search.explained_of_stop hstop] at hrun
  obtain ⟨⟨⟩, s₂, -, hrun⟩ := bind_eq_ok_iff.mp hrun
  cases hrun

end Calls

/-- Wherever a run calls unit propagation, a conflict that is met is explained without a fault, by
exactly the clauses that it depends on, and only so does unit propagation end in a conflict. -/
theorem saturate_explains (h : CalledAt settings f d s) :
    (∀ c s₁, (Search.saturate b).run s = .ok (.error c, s₁) → ∃ s',
      explain c s₁ = .ok ((), s') ∧ saturate b s = .ok (.conflict, s') ∧ Explained c s₁ s') ∧
    ∀ s', saturate b s = .ok (.conflict, s') → ∃ c s₁,
      (Search.saturate b).run s = .ok (.error c, s₁) ∧ explain c s₁ = .ok ((), s') := by
  cases h with
  | call h =>
    obtain ⟨lines, s₀, hread, A, hp⟩ := primed_of_stateAtCall h
    have hfinds : Finds _ (fun _ _ => True) (Blocked _ _ _ A s) (Search.saturate b) s _ :=
      finds_saturate hp.coherent hp.forced hp.processed hp.poised
    refine ⟨fun c s₁ hstop => ?_, fun s' hrun => ?_⟩
    · have hblocked := hfinds.of_stop hstop
      have hends : Ends False (fun _ _ => False) (explain c) s₁ fun _ s' => Explained c s₁ s' :=
        hblocked.ends_explained hp.anchored hp.forced hp.unmarked
      obtain ⟨⟨⟩, s', hrun, hexp⟩ := hends.exists_ok
      refine ⟨s', hrun, ?_, hexp⟩
      rw [← Search.explained_saturate, Search.explained_of_stop hstop]
      exact bind_of_ok hrun
    · rw [← Search.explained_saturate] at hrun
      exact hfinds.exists_stop hrun
  | void h =>
    obtain ⟨n, hw, hp⟩ := idle_of_stateAtVoid h
    refine ⟨fun c s₁ hstop => (not_stop_of_idle hw hp hstop).elim, fun s' hrun => ?_⟩
    have hends : Ends False (fun _ _ => False) (saturate b) s fun r s' => r = .drained ∧ s' = s :=
      ends_saturate_idle hw hp
    cases (hends.of_ok hrun).1

/-- A conflict is explained above a literal that is fixed. -/
theorem saturate_explains_denied : ∃ s c s₁ s', stateAtCall {}
    ([Signings.literal 3] :: Signings.clauses 2) [.add [Signings.literal 1], .add []]
      (.denied 0 0) = some s ∧ (Search.saturate true).run s = .ok (.error c, s₁) ∧
      explain c s₁ = .ok ((), s') ∧ Explained c s₁ s' := by
  obtain ⟨s, ⟨c, s₁⟩, hs, hstop⟩ := exists_of_isSome_bind
    (o := stateAtCall {} ([Signings.literal 3] :: Signings.clauses 2)
      [.add [Signings.literal 1], .add []] (.denied 0 0))
    (g := (Search.saturate true).stopped?) (by decide +kernel)
  have hstop := Search.stopped?_eq_some_iff.mp hstop
  obtain ⟨s', hrun, -, hexp⟩ := (saturate_explains (.call hs)).1 c s₁ hstop
  exact ⟨s, c, s₁, s', hs, hstop, hrun, hexp⟩

end UnsatCore
