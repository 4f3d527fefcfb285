import UnsatCore.Engine.Intake
import UnsatCore.Engine.Justification
import UnsatCore.Proofs.Search

/-! What a computation leaves as it is. An observation of the state that no step of a computation
changes is the same after it. -/
namespace UnsatCore.Engine

open CheckM

variable {α β γ : Type} {f : State → γ} {m m' : CheckM α} {k : α → CheckM β}

/-- `f` observes the same after `m` as before, whether `m` gives a value or is rejected. -/
structure Keeps (f : State → γ) (m : CheckM α) : Prop where
  ends : ∀ s, Ends True (fun _ t => f t = f s) m s fun _ t => f t = f s

namespace Keeps

theorem of_ok (h : Keeps f m) ⦃s : State⦄ ⦃a : α⦄ ⦃t : State⦄ (hrun : m s = .ok (a, t)) :
    f t = f s := (h.ends s).of_ok hrun

/-- Applied to a run that gives a value. -/
instance : CoeFun (Keeps f m) fun _ => ∀ ⦃s a t⦄, m s = .ok (a, t) → f t = f s := ⟨of_ok⟩

theorem pure (a : α) : Keeps f (Pure.pure a : CheckM α) := ⟨fun _ => rfl⟩

theorem bind (h : Keeps f m) (hk : ∀ a, Keeps f (k a)) : Keeps f (m >>= k) where
  ends s := by
    rw [ends_bind]
    refine (h.ends s).mono fun a t ht => ?_
    rw [← ht]
    exact (hk a).ends t

theorem ite {p : Prop} [Decidable p] (h : Keeps f m) (h' : Keeps f m') :
    Keeps f (if p then m else m') := by
  split
  · exact h
  · exact h'

theorem fault (e : Fault) : Keeps f (CheckM.fault e : CheckM α) := ⟨fun _ => trivial⟩

theorem reject (r : Rejection) : Keeps f (CheckM.reject r : CheckM α) := ⟨fun _ => rfl⟩

theorem look (q : State → α) : Keeps f (CheckM.look q) := ⟨fun _ => rfl⟩

theorem ask (q : State → Except Fault α) : Keeps f (CheckM.ask q) :=
  ⟨fun _ => ends_ask.mpr (yields_of_forall fun _ _ => rfl)⟩

theorem emit (e : Event) (hf : ∀ s log, f { s with log } = f s := by intros; rfl) :
    Keeps f (CheckM.emit e) := ⟨fun s => hf s _⟩

theorem count (q : Counters → Counters)
    (hf : ∀ s, f { s with counters := q s.counters } = f s := by intros; rfl) :
    Keeps f (CheckM.count q) := ⟨fun s => hf s⟩

theorem modify {q : State → State} (hf : ∀ s, f (q s) = f s := by intros; rfl) :
    Keeps f (modify q : CheckM Unit) := ⟨fun s => hf s⟩

theorem onArena_of_ok {q : Arena → Except Fault Arena}
    (hf : ∀ s a, q s.arena = .ok a → f { s with arena := a } = f s) :
    Keeps f (CheckM.onArena q) :=
  ⟨fun s => ends_onArena.mpr (yields_of_forall (hf s))⟩

theorem onArena (q : Arena → Except Fault Arena)
    (hf : ∀ s arena, f { s with arena } = f s := by intros; rfl) : Keeps f (CheckM.onArena q) :=
  onArena_of_ok fun s a _ => hf s a

theorem onWatches (q : WatchTable → Except Fault WatchTable)
    (hf : ∀ s watches, f { s with watches } = f s := by intros; rfl) :
    Keeps f (CheckM.onWatches q) :=
  ⟨fun s => ends_onWatches.mpr (yields_of_forall fun t _ => hf s t)⟩

theorem onTrail_of_ok {q : Trail → Except Fault Trail}
    (hf : ∀ s u, q s.trail = .ok u → f { s with trail := u } = f s) :
    Keeps f (CheckM.onTrail q) :=
  ⟨fun s => ends_onTrail.mpr (yields_of_forall (hf s))⟩

theorem onTrail (q : Trail → Except Fault Trail)
    (hf : ∀ s trail, f { s with trail } = f s := by intros; rfl) : Keeps f (CheckM.onTrail q) :=
  onTrail_of_ok fun s u _ => hf s u

theorem markCore (c : Handle) (hf : ∀ s arena, f { s with arena } = f s := by intros; rfl) :
    Keeps f (CheckM.markCore c) :=
  ⟨fun s => ends_markCore.mpr (yields_of_forall fun r _ => hf s r.2)⟩

theorem attach (c : Handle) (hf : ∀ s watches, f { s with watches } = f s := by intros; rfl) :
    Keeps f (attach c) :=
  .bind (.bind (.ask _) fun _ => .ite (.pure _) (.fault _)) fun _ => .bind (.ask _) fun _ =>
    .bind (.ask _) fun _ => .bind (.onWatches _ hf) fun _ => .bind (.ask _) fun _ => .onWatches _ hf

theorem store (c : Clause)
    (hf : ∀ s arena index, f { s with arena, index } = f s := by intros; rfl) :
    Keeps f (CheckM.store c) :=
  ⟨fun s => ends_store.mpr (yields_of_forall fun r _ => hf s r.2 _)⟩

theorem normalize (part : Part) (i : Nat) (c : Clause)
    (hf : ∀ s log, f { s with log } = f s := by intros; rfl) : Keeps f (normalize part i c) := by
  refine .ite (.reject _) (.bind ?_ fun _ => .pure _)
  induction c.repeated with
  | nil => exact .pure _
  | cons l ls ih => exact .bind (.emit _ hf) fun _ => ih

theorem settleClause (i : Nat) (h : Handle) (x : Clause)
    (hl : ∀ s log, f { s with log } = f s := by intros; rfl)
    (ha : ∀ l c, Keeps f (CheckM.onTrail (·.assign l c)) := by
      intros
      exact Keeps.onTrail _)
    (hw : ∀ s watches, f { s with watches } = f s := by intros; rfl) :
    Keeps f (settleClause i h x) := by
  match x with
  | [] => exact .bind (.emit _ hl) fun _ => .pure _
  | [l] =>
    refine .bind (.ask _) fun _ => .ite (.bind (.emit _ hl) fun _ => .pure _) ?_
    refine .bind (.ask _) fun _ => .ite (.pure _) ?_
    exact .bind (ha _ _) fun _ => .pure _
  | x :: y :: rest => exact .bind (.attach h hw) fun _ => .pure _

theorem readFormula (i : Nat) (g : Formula)
    (hl : ∀ s log, f { s with log } = f s := by intros; rfl)
    (hs : ∀ s arena index, f { s with arena, index } = f s := by intros; rfl)
    (ho : ∀ s origins, f { s with origins } = f s := by intros; rfl)
    (ha : ∀ l c, Keeps f (CheckM.onTrail (·.assign l c)) := by
      intros
      exact Keeps.onTrail _)
    (hw : ∀ s watches, f { s with watches } = f s := by intros; rfl) :
    Keeps f (readFormula i g) := by
  induction g generalizing i with
  | nil =>
    exact .bind (.bind (.look _) fun _ => .bind (.look _) fun _ => .emit _ hl) fun _ => .pure _
  | cons c g ih =>
    have hclause : Keeps f (readClause i c) :=
      .bind (.normalize .formula i c hl) fun x => .bind (.store x hs) fun h =>
        .bind (.modify fun s => ho s _) fun _ => .settleClause i h x hl ha hw
    refine .bind hclause fun r => ?_
    cases r with
    | trivial => exact .pure _
    | ready => exact ih (i + 1)

end Keeps

/-- An observation that does not see how clauses are stored and watched. -/
structure Apart (f : State → γ) : Prop where
  arena : ∀ s arena, f { s with arena } = f s
  watches : ∀ s watches, f { s with watches } = f s

namespace Apart

theorem bringBack (h : Apart f) (l : Literal) (c : Handle) (first : Literal) :
    Keeps f (bringBack l c first) := by
  refine .ite (.bind (.onArena _ h.arena) fun _ => ?_) ?_
  all_goals exact .bind (.ask _) fun _ => .ite (.pure _) (.fault _)

theorem moveWatcher (h : Apart f) (l : Literal) (i : Nat) (c : Handle) (j : Nat) (x : Literal) :
    Keeps f (moveWatcher l i c j x) :=
  .bind (.onArena _ h.arena) fun _ => .bind (.ask _) fun _ =>
    .bind (.onWatches _ h.watches) fun _ => .onWatches _ h.watches

theorem detach (h : Apart f) (c : Handle) : Keeps f (detach c) :=
  .bind (.bind (.ask _) fun _ => .ite (.pure _) (.fault _)) fun _ => .bind (.ask _) fun _ =>
    .bind (.onWatches _ h.watches) fun _ => .bind (.ask _) fun _ => .onWatches _ h.watches

theorem sortFrom (h : Apart f) (c : Handle) (rest : Clause) (i : Nat) (view : View) :
    Keeps f (sortFrom c rest i view) := by
  induction rest generalizing i view with
  | nil => exact .pure _
  | cons l rest ih =>
    exact .bind (.ask _) fun _ => .ite (ih _ _) <| .bind (.ask _) fun _ =>
      .bind (.onArena _ h.arena) fun _ => ih _ _

theorem sortUnfalsified (h : Apart f) (c : Handle) : Keeps f (sortUnfalsified c) :=
  .bind (.ask _) fun _ => h.sortFrom _ _ _ _

theorem undoDelete (h : Apart f) (c : Handle) : Keeps f (undoDelete c) :=
  .bind (h.sortUnfalsified c) fun _ => .attach c h.watches

end Apart

/-- An observation that sees neither how clauses are stored and watched nor what is written down
when a clause is needed. -/
structure Aloof (f : State → γ) : Prop extends Apart f where
  resolved : ∀ s, f { s with counters := s.counters.countResolution } = f s
  mark : ∀ l, Keeps f (onTrail (·.mark l))

namespace Aloof

theorem markLiterals (h : Aloof f) (ls : Clause) : Keeps f (markLiterals ls) := by
  induction ls with
  | nil => exact .pure _
  | cons l ls ih => exact (h.mark l).bind fun _ => ih

theorem enterCore (h : Aloof f) (c : Handle) : Keeps f (enterCore c) := by
  refine .bind (.markCore c h.arena) fun _ => .ite ?_ (.pure _)
  refine .bind (.ask _) fun _ => .ite ?_ (.pure _)
  exact .bind (.ask _) fun _ => .bind (.onWatches _ h.watches) fun _ =>
    .bind (.ask _) fun _ => .onWatches _ h.watches

theorem need (h : Aloof f) (c : Handle) (skip : Nat) : Keeps f (need c skip) :=
  .bind (.count _ h.resolved) fun _ => (h.enterCore c).bind fun _ => .bind (.ask _) fun ls =>
    h.markLiterals ls

theorem needReason (h : Aloof f) (l : Literal) : Keeps f (needReason l) := by
  refine .bind (.ask _) fun r => ?_
  cases r with
  | none => exact .pure _
  | some c => exact h.need c 1

end Aloof

namespace Keeps

variable {x y : Search α} {g : α → Search β}

theorem run_pure (a : α) : Keeps f (Pure.pure a : Search α).run := .pure _

theorem run_lift (h : Keeps f m) : Keeps f (liftM m : Search α).run := .bind h fun _ => .pure _

/-- Two steps that are kept together, though neither may be kept alone. -/
theorem run_lift_pair {m₁ m₂ : CheckM Unit} (h : Keeps f (m₁ >>= fun _ => m₂)) (a : α) :
    Keeps f (liftM m₁ >>= fun _ => liftM m₂ >>= fun _ => Pure.pure a : Search α).run := by
  have heq : (liftM m₁ >>= fun _ => liftM m₂ >>= fun _ => Pure.pure a : Search α).run =
      (m₁ >>= fun _ => m₂) >>= fun _ => Pure.pure (.ok a) := by
    simp only [Search.run_bind, Search.run_lift, Search.run_pure, bind_assoc, pure_bind]
  rw [heq]
  exact h.bind fun _ => .pure _

theorem run_bind (h : Keeps f x.run) (hg : ∀ a, Keeps f (g a).run) : Keeps f (x >>= g).run := by
  refine .bind h fun r => ?_
  cases r with
  | ok a => exact hg a
  | error c => exact .pure _

theorem run_ite {p : Prop} [Decidable p] (h : Keeps f x.run) (h' : Keeps f y.run) :
    Keeps f (if p then x else y).run := by
  split
  · exact h
  · exact h'

/-- What a search keeps, and the explanation of a conflict, is kept by both together. -/
theorem explained (h : Keeps f x.run) (he : ∀ c, Keeps f (explain c)) (r : α) :
    Keeps f (x.explained r) := by
  refine .bind h fun found => ?_
  cases found with
  | ok a => exact .pure _
  | error c => exact .bind (he c) fun _ => .pure _

end Keeps

/-- An observation that does not see what a search does to the state before it ends: it moves
watchers and makes literals true. -/
structure Beside (f : State → γ) : Prop extends Apart f where
  log : ∀ s log, f { s with log } = f s
  derive : ∀ l c, Keeps f do
    onTrail (·.assign l c)
    count Counters.countPropagation

namespace Beside

variable {s t : State} {c : Handle} {scan : Scan} {n : Nat} {b : Bool}

theorem deriveFirst (h : Beside f) (l : Literal) (c : Handle) :
    Keeps f (Search.deriveFirst l c).run := by
  refine .run_bind (.run_lift (.ask _)) fun _ => .run_bind (.run_lift (.ask _)) fun _ =>
    .run_ite ?_ ?_
  · exact .run_bind (.run_lift (.emit _ h.log)) fun _ => .pure _
  · exact .run_bind (.run_lift (.emit _ h.log)) fun _ => .run_lift_pair (h.derive _ _) _

theorem rewatch (h : Beside f) (l : Literal) (i : Nat) (c : Handle) :
    Keeps f (Search.rewatch l i c).run := by
  refine .run_bind (.run_lift (.ask _)) fun r => ?_
  cases r with
  | none => exact h.deriveFirst l c
  | some p => exact .run_bind (.run_lift (h.moveWatcher _ _ _ _ _)) fun _ => .run_pure _

theorem visit (h : Beside f) (l : Literal) (i : Nat) (c : Handle) :
    Keeps f (Search.visit l i c).run :=
  .run_bind (.run_lift (.ask _)) fun _ => .run_bind (.run_lift (.ask _)) fun _ =>
    .run_bind (.run_lift (.ask _)) fun _ => .run_ite (.run_pure _) <|
      .run_bind (.run_lift (h.bringBack _ _ _)) fun _ => h.rewatch _ _ _

theorem sweepFrom (h : Beside f) (pass : Pass) (l : Literal) (n i : Nat) :
    Keeps f (Search.sweepFrom pass l n i).run := by
  induction n generalizing i with
  | zero => exact .run_pure _
  | succ n ih =>
    refine .run_bind (.run_lift (.ask _)) fun w => .run_ite ?_ (ih _)
    refine .run_bind (h.visit _ _ _) fun v => ?_
    cases v with
    | kept => exact ih _
    | moved => exact ih _
    | derived => exact .run_ite (.run_pure _) (ih _)
    | conflict => exact .run_pure _

theorem sweepRound (h : Beside f) (scan : Scan) : Keeps f (Search.sweepRound scan).run := by
  refine .run_bind (.run_lift (.ask _)) fun l => .run_bind ?_ fun swept => ?_
  · exact .run_bind (.run_lift (.ask _)) fun _ => h.sweepFrom _ _ _ _
  · cases swept <;> exact .run_pure _

/-- Only the round that ends a search changes what is propagated. -/
theorem round (h : Beside f) {r : Except Handle Round}
    (hrun : (Search.round scan).run s = .ok (r, t)) (hr : ∀ result, r ≠ .ok (.done result)) :
    f t = f s := by
  obtain ⟨r₁, s₁, ⟨⟩, hrun⟩ := bind_eq_ok_iff.mp hrun
  simp only at hrun
  split at hrun
  · exact h.sweepRound scan hrun
  · obtain ⟨next, s₂, hend, hrun⟩ := bind_eq_ok_iff.mp hrun
    cases hrun
    unfold endPass at hend
    split at hend
    · cases hend
      rfl
    · cases hend
      exact (hr _ rfl).elim
    · cases hend
      exact (hr _ rfl).elim

theorem rounds_of_stop (h : Beside f) (hstop : (Search.rounds n scan).run s = .ok (.error c, t)) :
    f t = f s := by
  induction n generalizing s scan with
  | zero => cases hstop
  | succ n ih =>
    obtain ⟨r, s₁, hround, hrest⟩ := bind_eq_ok_iff.mp hstop
    match r with
    | .error d =>
      cases hrest
      exact h.round hround (by simp)
    | .ok (.done result) => cases hrest
    | .ok (.onward next) => exact (ih hrest).trans (h.round hround (by simp))

/-- Where a search stops at a conflict, the observation is as it was. -/
theorem search_of_stop (h : Beside f) (hstop : (Search.saturate b).run s = .ok (.error c, t)) :
    f t = f s := by
  obtain ⟨r₁, s₁, ⟨⟩, hstop⟩ := bind_eq_ok_iff.mp hstop
  obtain ⟨r₂, s₂, ⟨⟩, hstop⟩ := bind_eq_ok_iff.mp hstop
  exact h.rounds_of_stop hstop

section Search

variable (h : Beside f)
  (hd : Keeps f (onTrail fun t => .ok { t with processed := t.assigned }))
include h hd

theorem keeps_round (scan : Scan) : Keeps f (Search.round scan).run := by
  refine .run_bind (.run_lift (.look _)) fun _ => .run_ite (h.sweepRound scan) (.run_lift ?_)
  unfold endPass
  split
  · exact .pure _
  · exact .bind hd fun _ => .pure _
  · exact .bind hd fun _ => .pure _

theorem keeps_rounds (n : Nat) (scan : Scan) : Keeps f (Search.rounds n scan).run := by
  induction n generalizing scan with
  | zero => exact .run_lift (.fault _)
  | succ n ih =>
    refine .run_bind (h.keeps_round hd scan) fun r => ?_
    cases r with
    | onward scan => exact ih scan
    | done result => exact .run_pure _

theorem search (coreFirst : Bool) : Keeps f (Search.saturate coreFirst).run :=
  .run_bind (.run_lift (.look _)) fun _ => .run_bind (.run_lift (.look _)) fun _ =>
    h.keeps_rounds hd _ _

end Search

end Beside

/-- An observation that sees neither how clauses are stored and watched nor the trail. -/
structure Detached (f : State → γ) : Prop extends Apart f where
  trail : ∀ s trail, f { s with trail } = f s

namespace Detached

theorem assume (h : Detached f) (ls : Clause) : Keeps f (assume ls) := by
  induction ls with
  | nil => exact .pure _
  | cons l ls ih =>
    exact .bind (.ask _) fun _ => .ite ih <| .bind (.ask _) fun _ => .ite (.pure _) <|
      .bind (.onTrail _ h.trail) fun _ => ih

theorem withdraw (h : Detached f) (c : Handle) : Keeps f (withdraw c) := by
  have hrest : Keeps f (do
      let first ← literalOf c 0
      unless first.isZero do
        if (← CheckM.ask (·.trail.reasonOf first.var)) = some c then
          CheckM.onTrail (·.unassign first)) :=
    .bind (.ask _) fun _ => .ite (.pure _) <|
      .bind (.ask _) fun _ => .ite (.onTrail _ h.trail) (.pure _)
  exact .bind (.ask _) fun _ => .ite (.bind (h.detach c) fun _ => hrest) hrest

end Detached

/-- An observation that does not see what a search does to the state. -/
structure Aside (f : State → γ) : Prop extends Detached f where
  log : ∀ s log, f { s with log } = f s
  propagated : ∀ s, f { s with counters := s.counters.countPropagation } = f s

namespace Aside

theorem beside (h : Aside f) : Beside f :=
  ⟨h.toApart, h.log, fun _ _ => .bind (.onTrail _ h.trail) fun _ => .count _ h.propagated⟩

theorem search (h : Aside f) (coreFirst : Bool) : Keeps f (Search.saturate coreFirst).run :=
  h.beside.search (.onTrail _ h.trail) coreFirst

section Explanation

variable (h : Aside f) (hr : ∀ s, f { s with counters := s.counters.countResolution } = f s)
include h hr

theorem aloof : Aloof f := ⟨h.toApart, hr, fun _ => .onTrail _ h.trail⟩

theorem traceFrom (forced n : Nat) : Keeps f (traceFrom forced n) := by
  induction n with
  | zero => exact .pure _
  | succ n ih =>
    exact .bind (.ask _) fun _ => .bind ((h.aloof hr).needReason _) fun _ =>
      .ite (.bind (.onTrail _ h.trail) fun _ => ih) ih

theorem traceReasons : Keeps f traceReasons :=
  .bind (.look _) fun _ => .bind (.look _) fun _ => .bind (h.traceFrom hr _ _) fun _ =>
    .bind (.onTrail _ h.trail) fun _ => .onTrail _ h.trail

theorem explain (c : Handle) : Keeps f (explain c) :=
  .bind ((h.aloof hr).need c 0) fun _ => h.traceReasons hr

theorem saturate (coreFirst : Bool) : Keeps f (saturate coreFirst) := by
  rw [← Search.explained_saturate]
  exact .explained (h.search coreFirst) (h.explain hr) _

theorem followsByUnits (coreFirst : Bool) (c : Handle) : Keeps f (followsByUnits coreFirst c) := by
  refine .bind (.ask _) fun _ => .bind (h.assume _) fun r => ?_
  cases r with
  | refuted l =>
    exact .bind (.onTrail _ h.trail) fun _ => .bind (h.traceReasons hr) fun _ => .pure _
  | consistent => exact .bind (h.saturate hr _) fun _ => .pure _

end Explanation

end Aside

end UnsatCore.Engine
