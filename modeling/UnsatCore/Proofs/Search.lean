import UnsatCore.Engine.Saturation
import UnsatCore.Proofs.Endings

/-! Unit propagation up to a conflict. A search does what unit propagation does, but stops where a
conflict is to be explained, with the clause that is false. Unit propagation is the search and the
explanation of the conflict that it meets. -/
namespace UnsatCore.Engine

open CheckM

variable {α β : Type} {F : Prop} {R : Rejection → State → Prop} {H H' : Handle → State → Prop}
  {s s' : State}

/-- A computation that may stop at a conflict, with the clause that is false. -/
structure Search (α : Type) where
  run : CheckM (Except Handle α)

namespace Search

/-- Stops at a conflict in `c`. -/
def stop (c : Handle) : Search α := ⟨pure (.error c)⟩

instance : Monad Search where
  pure a := ⟨pure (.ok a)⟩
  bind x k := ⟨do
    match ← x.run with
    | .ok a => (k a).run
    | .error c => return .error c⟩

instance : MonadLift CheckM Search where
  monadLift m := ⟨do return .ok (← m)⟩

variable {m : CheckM α} {x : Search α} {k : α → Search β} {P : α → State → Prop}
  {Q : β → State → Prop} {a : α} {b : β}

/-- Explains the conflict at which a search stops; the result is `r` then. -/
def explained (x : Search α) (r : α) : CheckM α := do
  match ← x.run with
  | .ok a => return a
  | .error c =>
    explain c
    return r

/-- Where a search stops, and the state there, if it stops. -/
def stopped? (x : Search α) (s : State) : Option (Handle × State) :=
  match x.run s with
  | .ok (.error c, s') => some (c, s')
  | _ => none

theorem stopped?_eq_some_iff {c : Handle} :
    x.stopped? s = some (c, s') ↔ x.run s = .ok (.error c, s') := by
  unfold stopped?
  split <;> simp_all

theorem explained_of_stop {c : Handle} {r : α} (h : x.run s = .ok (.error c, s')) :
    x.explained r s = (do explain c; return r : CheckM α) s' := bind_of_ok h

section Functions

def deriveFirst (l : Literal) (c : Handle) : Search Visit := do
  let unit ← literalOf c 0
  if ← isFalseNow unit then
    emit (.conflict c (-l))
    stop c
  else
    emit (.propagated unit c)
    onTrail (·.assign unit (some c))
    count Counters.countPropagation
    return .derived

def rewatch (l : Literal) (i : Nat) (c : Handle) : Search Visit := do
  match ← ask (replacement c) with
  | some (k, other) =>
    moveWatcher l i c k other
    return .moved
  | none => deriveFirst l c

def visit (l : Literal) (i : Nat) (c : Handle) : Search Visit := do
  let first ← literalOf c 0
  let second ← literalOf c 1
  if ← ask (eitherTrue first second) then return .kept
  else
    bringBack l c first
    rewatch l i c

def sweepFrom (pass : Pass) (l : Literal) : (n i : Nat) → Search Swept
  | 0, _ => pure .finished
  | n + 1, i => do
    let w ← ask (·.watches.watcher l i)
    if pass.visits w then
      match ← visit l i w.clause with
      | .kept => sweepFrom pass l n (i + 1)
      | .moved => sweepFrom pass l n i
      | .derived => if pass.pauses then return .paused (i + 1) else sweepFrom pass l n (i + 1)
      | .conflict => return .conflict
    else sweepFrom pass l n (i + 1)

def sweep (pass : Pass) (l : Literal) (i : Nat) : Search Swept := do
  let size ← ask (·.watches.length l)
  sweepFrom pass l (size - i) i

def sweepRound (scan : Scan) : Search Round := do
  let l ← ask (·.trail.literalAt scan.cursor)
  match ← sweep scan.pass l scan.offset with
  | .finished => return .onward scan.advance
  | .paused next => return .onward (scan.detour next)
  | .conflict => return .done .conflict

def round (scan : Scan) : Search Round := do
  if scan.cursor < (← look (·.trail.assigned)) then sweepRound scan else endPass scan

def rounds : (n : Nat) → Scan → Search Saturation
  | 0, _ => (fault .exhausted : CheckM Saturation)
  | n + 1, scan => do
    match ← round scan with
    | .onward scan => rounds n scan
    | .done result => return result

/-- Propagates all literals of the trail that are not propagated yet, up to a conflict. -/
def saturate (coreFirst : Bool) : Search Saturation := do
  let slots ← look (·.trail.status.size)
  rounds (2 * slots) (.start coreFirst (← look (·.trail.processed)))

end Functions

section Explained

@[simp] theorem run_pure (a : α) : (pure a : Search α).run = pure (.ok a) := rfl

@[simp] theorem run_stop (c : Handle) : (stop c : Search α).run = pure (.error c) := rfl

theorem run_lift (m : CheckM α) : (liftM m : Search α).run = (do return .ok (← m)) := rfl

theorem run_bind (x : Search α) (k : α → Search β) :
    (x >>= k).run = x.run >>= fun
      | .ok a => (k a).run
      | .error c => pure (.error c) := rfl

theorem explained_pure (a r : α) : explained (pure a) r = pure a := by
  simp [explained]

theorem explained_stop (c : Handle) (r : α) :
    explained (stop c) r = (do explain c; return r) := by
  simp [explained]

theorem explained_lift (m : CheckM α) (r : α) : explained (liftM m) r = m := by
  simp [explained, run_lift]

theorem explained_lift_bind (m : CheckM α) (k : α → Search β) (r : β) :
    explained (liftM m >>= k) r = m >>= fun a => explained (k a) r := by
  simp [explained, run_bind, run_lift]

/-- The explanation of a conflict in the first part ends the second part as well. -/
theorem explained_bind {g : α → CheckM β} (hx : explained x a = m)
    (hk : ∀ a, explained (k a) b = g a) (hg : g a = pure b) :
    explained (x >>= k) b = m >>= g := by
  obtain rfl := hx
  simp only [explained, run_bind, bind_assoc]
  refine bind_congr fun r => ?_
  cases r with
  | ok r => simpa [explained] using hk r
  | error c => simp [hg]

theorem explained_deriveFirst (l : Literal) (c : Handle) :
    (deriveFirst l c).explained .conflict = Engine.deriveFirst l c := by
  simp only [deriveFirst, Engine.deriveFirst, explained_lift_bind]
  refine bind_congr fun unit => bind_congr fun b => ?_
  split
  · simp only [explained_lift_bind, explained_stop]
  · simp only [explained_lift_bind, explained_pure]

theorem explained_rewatch (l : Literal) (i : Nat) (c : Handle) :
    (rewatch l i c).explained .conflict = Engine.rewatch l i c := by
  simp only [rewatch, Engine.rewatch, explained_lift_bind]
  refine bind_congr fun other => ?_
  cases other with
  | none => exact explained_deriveFirst l c
  | some other => simp only [explained_lift_bind, explained_pure]

theorem explained_visit (l : Literal) (i : Nat) (c : Handle) :
    (visit l i c).explained .conflict = Engine.visit l i c := by
  simp only [visit, Engine.visit, explained_lift_bind]
  refine bind_congr fun first => bind_congr fun second => bind_congr fun b => ?_
  split
  · exact explained_pure ..
  · simp only [explained_lift_bind, explained_rewatch]

theorem explained_sweepFrom (pass : Pass) (l : Literal) (n i : Nat) :
    (sweepFrom pass l n i).explained .conflict = Engine.sweepFrom pass l n i := by
  induction n generalizing i with
  | zero => exact explained_pure ..
  | succ n ih =>
    simp only [sweepFrom, Engine.sweepFrom, explained_lift_bind]
    refine bind_congr fun w => ?_
    split
    · refine explained_bind (explained_visit ..) (fun v => ?_) rfl
      cases v with
      | kept => exact ih (i + 1)
      | moved => exact ih i
      | derived =>
        simp only
        split
        · exact explained_pure ..
        · exact ih (i + 1)
      | conflict => exact explained_pure ..
    · exact ih (i + 1)

theorem explained_sweep (pass : Pass) (l : Literal) (i : Nat) :
    (sweep pass l i).explained .conflict = Engine.sweep pass l i := by
  simp only [sweep, Engine.sweep, explained_lift_bind, explained_sweepFrom]

theorem explained_sweepRound (scan : Scan) :
    (sweepRound scan).explained (.done .conflict) = Engine.sweepRound scan := by
  simp only [sweepRound, Engine.sweepRound, explained_lift_bind]
  refine bind_congr fun l => ?_
  refine explained_bind (explained_sweep ..) (fun r => ?_) rfl
  cases r <;> exact explained_pure ..

theorem explained_round (scan : Scan) :
    (round scan).explained (.done .conflict) = Engine.round scan := by
  simp only [round, Engine.round, explained_lift_bind]
  refine bind_congr fun assigned => ?_
  split
  · exact explained_sweepRound scan
  · exact explained_lift ..

theorem explained_rounds (n : Nat) (scan : Scan) :
    (rounds n scan).explained .conflict = Engine.rounds n scan := by
  induction n generalizing scan with
  | zero => exact explained_lift ..
  | succ n ih =>
    refine explained_bind (explained_round scan) (fun r => ?_) rfl
    cases r with
    | onward scan => exact ih scan
    | done result => exact explained_pure ..

/-- Unit propagation is the search for a conflict and its explanation. -/
theorem explained_saturate (coreFirst : Bool) :
    (saturate coreFirst).explained .conflict = Engine.saturate coreFirst := by
  simp only [saturate, Engine.saturate, explained_lift_bind, explained_rounds]

end Explained

end Search

open Search

variable {m : CheckM α} {x : Search α} {k : α → Search β} {P Q : α → State → Prop}
  {T : β → State → Prop} {a r : α} {c : Handle}

/-- Run from `s`, the search `x` gives a value and a state in `Q`, or stops in `H`, or ends early as
in `Ends`. -/
def Finds (F : Prop) (R : Rejection → State → Prop) (H : Handle → State → Prop) (x : Search α)
    (s : State) (Q : α → State → Prop) : Prop :=
  Ends F R x.run s fun r s' =>
    match r with
    | .ok a => Q a s'
    | .error c => H c s'

@[simp] theorem finds_pure : Finds F R H (pure a) s Q ↔ Q a s := Iff.rfl

@[simp] theorem finds_stop : Finds F R H (stop c) s Q ↔ H c s := Iff.rfl

@[simp] theorem finds_bind :
    Finds F R H (x >>= k) s T ↔ Finds F R H x s fun a s' => Finds F R H (k a) s' T := by
  rw [Finds, Finds, run_bind, ends_bind]
  refine iff_of_eq (congrArg (Ends F R x.run s) ?_)
  funext r s'
  cases r <;> rfl

@[simp] theorem finds_lift : Finds F R H (liftM m) s Q ↔ Ends F R m s Q := by
  rw [Finds, run_lift, ends_bind]
  rfl

@[simp] theorem finds_ite {p : Prop} [Decidable p] {x' : Search α} :
    Finds F R H (if p then x else x') s Q ↔
      if p then Finds F R H x s Q else Finds F R H x' s Q := by
  split <;> rfl

theorem Finds.mono (h : Finds F R H x s P) (hh : ∀ c s', H c s' → H' c s')
    (hq : ∀ a s', P a s' → Q a s') : Finds F R H' x s Q := by
  refine Ends.mono h fun r s' hr => ?_
  cases r with
  | ok a => exact hq a s' hr
  | error c => exact hh c s' hr

theorem Finds.of_stop (h : Finds F R H x s Q) (hrun : x.run s = .ok (.error c, s')) : H c s' :=
  Ends.of_ok h hrun

/-- What is known where the search stops is what the explanation starts from. -/
theorem Finds.explained (h : Finds F R H x s fun a s' => a ≠ r ∧ Q a s')
    (hc : ∀ c s', H c s' → Ends F R (explain c) s' fun _ t => Q r t) :
    Ends F R (x.explained r) s Q := by
  rw [Search.explained, ends_bind]
  refine Ends.mono h fun r s' hr => ?_
  cases r with
  | ok a => exact hr.2
  | error c =>
    rw [ends_bind]
    exact hc c s' hr

/-- Only a conflict that was explained has the result of one. -/
theorem Finds.exists_stop (h : Finds F R H x s fun a s' => a ≠ r ∧ Q a s')
    (hrun : x.explained r s = .ok (r, s')) :
    ∃ c s₁, x.run s = .ok (.error c, s₁) ∧ explain c s₁ = .ok ((), s') := by
  obtain ⟨found, s₁, hx, hrun⟩ := bind_eq_ok_iff.mp hrun
  cases found with
  | ok a =>
    cases hrun
    exact ((Ends.of_ok h hx).1 rfl).elim
  | error c =>
    obtain ⟨⟨⟩, s₂, hexp, hrun⟩ := bind_eq_ok_iff.mp hrun
    cases hrun
    exact ⟨c, s₁, hx, hexp⟩

end UnsatCore.Engine
