import UnsatCore.Extraction
import UnsatCore.Proofs.Endings

/-! Two runs on different inputs. They give corresponding values and states, or fail for
corresponding reasons. The second one may do more than the first one, and where faults are not
compared, either of them may meet one at any time. -/
namespace UnsatCore

/-- A fault about other literals and clauses. -/
def Fault.image (lit : Literal → Literal) (handle : Handle → Handle) : Fault → Fault
  | .alreadyAssigned l => .alreadyAssigned (lit l)
  | .notFalsified l => .notFalsified (lit l)
  | .noWatcher c l => .noWatcher (handle c) (lit l)
  | .notWatchable c => .notWatchable (handle c)
  | .misplacedWatch c l => .misplacedWatch (handle c) (lit l)
  | .outOfBounds => .outOfBounds
  | .overflow => .overflow
  | .zeroLiteral => .zeroLiteral
  | .tooManyVariables n => .tooManyVariables n
  | .tooLarge => .tooLarge
  | .exhausted => .exhausted

/-- A rejection of other clauses. -/
def Rejection.image (lit : Literal → Literal) : Rejection → Rejection
  | .zeroLiteral part i => .zeroLiteral part i
  | .unmatchedDeletion i c => .unmatchedDeletion i (c.map lit)
  | .noConflict => .noConflict
  | .conflictNotFound i => .conflictNotFound i
  | .lemmaNotImplied i c => .lemmaNotImplied i (c.map lit)

def Failure.image (lit : Literal → Literal) (handle : Handle → Handle) : Failure → Failure
  | .fault e => .fault (e.image lit handle)
  | .rejected r => .rejected (r.image lit)

namespace Engine

open CheckM

/-- How the failures of two runs are compared. -/
structure Comparison where
  /-- What corresponds to a failure of the first run. -/
  image : Failure → Failure
  /-- Whether a run that meets a fault is not compared. -/
  lax : Prop

variable {α α' β β' : Type} {φ : Comparison} {s s' t t' : State}

/-- Two answers in `V`, or corresponding faults. -/
def Answers (φ : Comparison) (r : Except Fault α) (r' : Except Fault α') (V : α → α' → Prop) :
    Prop :=
  match r, r' with
  | .ok a, .ok a' => V a a'
  | .error e, .error e' => φ.lax ∨ φ.image (.fault e) = .fault e'
  | _, _ => φ.lax

section Answers

variable {r : Except Fault α} {r' : Except Fault α'} {V W : α → α' → Prop}

@[simp] theorem answers_ok {a : α} {a' : α'} : Answers φ (.ok a) (.ok a') V ↔ V a a' := Iff.rfl

theorem Answers.mono (h : Answers φ r r' V) (hv : ∀ a a', V a a' → W a a') :
    Answers φ r r' W := by
  cases r <;> cases r' <;> simp_all [Answers]

theorem Answers.bind {f : α → Except Fault β} {f' : α' → Except Fault β'} {U : β → β' → Prop}
    (h : Answers φ r r' V) (hf : ∀ a a', V a a' → Answers φ (f a) (f' a') U) :
    Answers φ (r >>= f) (r' >>= f') U := by
  cases r with
  | ok a =>
    cases r' with
    | ok a' => exact hf a a' h
    | error e' =>
      show Answers φ (f a) (.error e') U
      cases f a with
      | ok b => exact h
      | error e => exact Or.inl h
  | error e =>
    cases r' with
    | ok a' =>
      show Answers φ (.error e) (f' a') U
      cases f' a' with
      | ok b => exact h
      | error e' => exact Or.inl h
    | error e' => exact h

end Answers

/-- Run from `s` and from `s'`, `m` and `m'` give values and states in `Q`, or fail for
corresponding reasons. -/
def Corresponds (φ : Comparison) (m : CheckM α) (m' : CheckM α') (s s' : State)
    (Q : α → State → α' → State → Prop) : Prop :=
  match m s, m' s' with
  | .ok (a, t), .ok (a', t') => Q a t a' t'
  | .error (.rejected r _), .error (.rejected r' _) => φ.image (.rejected r) = .rejected r'
  | .error (.fault e _), .error (.fault e' _) => φ.lax ∨ φ.image (.fault e) = .fault e'
  | .error (.fault _ _), _ => φ.lax
  | _, .error (.fault _ _) => φ.lax
  | _, _ => False

section Corresponds

variable {m : CheckM α} {m' : CheckM α'} {g : α → CheckM β} {g' : α' → CheckM β'}
  {P Q : α → State → α' → State → Prop}

theorem Corresponds.mono (h : Corresponds φ m m' s s' P)
    (hq : ∀ a t a' t', P a t a' t' → Q a t a' t') : Corresponds φ m m' s s' Q := by
  unfold Corresponds at h ⊢
  split <;> simp_all

/-- What happens from other states does not matter. -/
theorem corresponds_congr {n : CheckM α} {n' : CheckM α'} (hm : m s = n s) (hm' : m' s' = n' s')
    (h : Corresponds φ n n' s s' Q) : Corresponds φ m m' s s' Q := by
  unfold Corresponds at h ⊢
  rwa [hm, hm']

/-- A fault of either run excuses whatever the other one does, if it is not compared. -/
theorem corresponds_of_fault {e : Fault} {log : Log} (hl : φ.lax)
    (h : m s = .error (.fault e log) ∨ m' s' = .error (.fault e log)) :
    Corresponds φ m m' s s' Q := by
  unfold Corresponds
  rcases h with h | h
  · rw [h]
    rcases m' s' with ⟨_ | _⟩ | _ <;> simp [hl]
  · rw [h]
    rcases m s with ⟨_ | _⟩ | _ <;> simp [hl]

theorem Corresponds.bind {R : β → State → β' → State → Prop} (h : Corresponds φ m m' s s' P)
    (hg : ∀ a t a' t', P a t a' t' → Corresponds φ (g a) (g' a') t t' R) :
    Corresponds φ (m >>= g) (m' >>= g') s s' R := by
  -- Where neither run meets a fault that is excused, both of them go on or neither does.
  by_cases hl : φ.lax ∧ ((∃ e log, m s = .error (.fault e log)) ∨
      ∃ e log, m' s' = .error (.fault e log))
  · obtain ⟨hl, ⟨e, log, he⟩ | ⟨e, log, he⟩⟩ := hl
    · exact corresponds_of_fault hl (Or.inl (bind_of_error he))
    · exact corresponds_of_fault hl (Or.inr (bind_of_error he))
  unfold Corresponds at h
  cases hm : m s with
  | ok r =>
    cases hm' : m' s' with
    | ok r' =>
      rw [hm, hm'] at h
      have hnext := hg r.1 r.2 r'.1 r'.2 h
      unfold Corresponds at hnext ⊢
      rwa [bind_of_ok hm, bind_of_ok hm']
    | error e' => cases e' <;> simp_all
  | error e =>
    cases hm' : m' s' with
    | ok r' => cases e <;> simp_all
    | error e' =>
      unfold Corresponds
      rw [bind_of_error hm, bind_of_error hm']
      rw [hm, hm'] at h
      cases e <;> cases e' <;> exact h

/-- What is known about each of the two runs may be used as well. -/
theorem Corresponds.run (h : Corresponds φ m m' s s' Q) :
    Corresponds φ m m' s s' fun a t a' t' =>
      m s = .ok (a, t) ∧ m' s' = .ok (a', t') ∧ Q a t a' t' := by
  unfold Corresponds at h ⊢
  split <;> simp_all

/-- The second run does something that the first one does not. -/
theorem corresponds_right {n' : CheckM β'} {g' : β' → CheckM α'} {R : β' → State → Prop}
    (hl : φ.lax) (h : Ends True (fun _ _ => False) n' s' R)
    (hg : ∀ b' t', R b' t' → Corresponds φ m (g' b') s t' Q) :
    Corresponds φ m (n' >>= g') s s' Q := by
  unfold Ends at h
  cases hn : n' s' with
  | ok r' =>
    rw [hn] at h
    have hnext := hg r'.1 r'.2 h
    unfold Corresponds at hnext ⊢
    rwa [bind_of_ok hn]
  | error e =>
    rw [hn] at h
    cases e with
    | rejected => exact h.elim
    | fault cause log => exact corresponds_of_fault hl (Or.inr (bind_of_error hn))

/-- The first run takes a step that is known to succeed, and the second one none. -/
theorem corresponds_left_ok {n : CheckM β} {g : β → CheckM α} {b : β} (h : n s = .ok (b, t))
    (hg : Corresponds φ (g b) m' t s' Q) : Corresponds φ (n >>= g) m' s s' Q := by
  unfold Corresponds at hg ⊢
  rwa [bind_of_ok h]

theorem corresponds_right_ok {n' : CheckM β'} {g' : β' → CheckM α'} {b' : β'}
    (h : n' s' = .ok (b', t')) (hg : Corresponds φ m (g' b') s t' Q) :
    Corresponds φ m (n' >>= g') s s' Q := by
  unfold Corresponds at hg ⊢
  rwa [bind_of_ok h]

@[simp] theorem corresponds_ask {f : State → Except Fault α} {f' : State → Except Fault α'} :
    Corresponds φ (ask f) (ask f') s s' Q ↔
      Answers φ (f s) (f' s') fun a a' => Q a s a' s' := by
  simp only [Corresponds, ask]
  cases f s <;> cases f' s' <;> rfl

@[simp] theorem corresponds_onArena {f f' : Arena → Except Fault Arena}
    {Q : Unit → State → Unit → State → Prop} :
    Corresponds φ (onArena f) (onArena f') s s' Q ↔
      Answers φ (f s.arena) (f' s'.arena) fun a a' =>
        Q () { s with arena := a } () { s' with arena := a' } := by
  simp only [Corresponds, onArena]
  cases f s.arena <;> cases f' s'.arena <;> rfl

@[simp] theorem corresponds_onWatches {f f' : WatchTable → Except Fault WatchTable}
    {Q : Unit → State → Unit → State → Prop} :
    Corresponds φ (onWatches f) (onWatches f') s s' Q ↔
      Answers φ (f s.watches) (f' s'.watches) fun w w' =>
        Q () { s with watches := w } () { s' with watches := w' } := by
  simp only [Corresponds, onWatches]
  cases f s.watches <;> cases f' s'.watches <;> rfl

@[simp] theorem corresponds_onTrail {f f' : Trail → Except Fault Trail}
    {Q : Unit → State → Unit → State → Prop} :
    Corresponds φ (onTrail f) (onTrail f') s s' Q ↔
      Answers φ (f s.trail) (f' s'.trail) fun u u' =>
        Q () { s with trail := u } () { s' with trail := u' } := by
  simp only [Corresponds, onTrail]
  cases f s.trail <;> cases f' s'.trail <;> rfl

@[simp] theorem corresponds_markCore {c c' : Handle} {Q : Bool → State → Bool → State → Prop} :
    Corresponds φ (markCore c) (markCore c') s s' Q ↔
      Answers φ (s.arena.markCore c) (s'.arena.markCore c') fun r r' =>
        Q r.1 { s with arena := r.2 } r'.1 { s' with arena := r'.2 } := by
  simp only [Corresponds, markCore]
  cases s.arena.markCore c <;> cases s'.arena.markCore c' <;> rfl

@[simp] theorem corresponds_store {x x' : Clause} {Q : Handle → State → Handle → State → Prop} :
    Corresponds φ (store x) (store x') s s' Q ↔
      Answers φ (s.arena.add x) (s'.arena.add x') fun r r' =>
        Q r.1 { s with arena := r.2, index := s.index.insert x r.1 }
          r'.1 { s' with arena := r'.2, index := s'.index.insert x' r'.1 } := by
  simp only [Corresponds, store]
  cases s.arena.add x <;> cases s'.arena.add x' <;> rfl

end Corresponds

end Engine

end UnsatCore
