import UnsatCore.Proofs.Endings

/-! Two runs side by side. They give related values and states, or are rejected for related reasons,
or meet the same fault; it never happens that one of them goes on where the other one stops. -/
namespace UnsatCore.Engine

open CheckM

variable {α α' β β' : Type} {s s' t t' : State} {E : Rejection → Rejection → Prop}

/-- Two answers in `V`, or the same fault twice. -/
def Both (r : Except Fault α) (r' : Except Fault α') (V : α → α' → Prop) : Prop :=
  match r, r' with
  | .ok a, .ok a' => V a a'
  | .error e, .error e' => e = e'
  | _, _ => False

section Both

variable {r : Except Fault α} {r' : Except Fault α'} {V W : α → α' → Prop}

@[simp] theorem both_ok {a : α} {a' : α'} : Both (.ok a) (.ok a') V ↔ V a a' := Iff.rfl

theorem Both.mono (h : Both r r' V) (hv : ∀ a a', V a a' → W a a') : Both r r' W := by
  cases r <;> cases r' <;> simp_all [Both]

theorem Both.cases (h : Both r r' V) :
    (∃ a a', r = .ok a ∧ r' = .ok a' ∧ V a a') ∨ ∃ e, r = .error e ∧ r' = .error e := by
  cases r <;> cases r' <;> simp_all [Both]

/-- One answer twice. -/
theorem both_self {r : Except Fault α} {V : α → α → Prop} (h : ∀ a, r = .ok a → V a a) :
    Both r r V := by
  cases r with
  | ok a => exact h a rfl
  | error e => rfl

end Both

/-- Run from `s` and from `s'`, `m` and `m'` give values and states in `Q`, or are rejected for
reasons in `E`, or meet the same fault. -/
def Together (E : Rejection → Rejection → Prop) (m : CheckM α) (m' : CheckM α') (s s' : State)
    (Q : α → State → α' → State → Prop) : Prop :=
  match m s, m' s' with
  | .ok (a, t), .ok (a', t') => Q a t a' t'
  | .error (.rejected r _), .error (.rejected r' _) => E r r'
  | .error (.fault e _), .error (.fault e' _) => e = e'
  | _, _ => False

section Together

variable {m : CheckM α} {m' : CheckM α'} {g : α → CheckM β} {g' : α' → CheckM β'}
  {P Q : α → State → α' → State → Prop}

theorem Together.mono (h : Together E m m' s s' P)
    (hq : ∀ a t a' t', P a t a' t' → Q a t a' t') : Together E m m' s s' Q := by
  unfold Together at h ⊢
  split <;> simp_all

theorem Together.bind {R : β → State → β' → State → Prop} (h : Together E m m' s s' P)
    (hg : ∀ a t a' t', P a t a' t' → Together E (g a) (g' a') t t' R) :
    Together E (m >>= g) (m' >>= g') s s' R := by
  simp only [Together, Bind.bind, StateT.bind, Except.bind] at h hg ⊢
  cases hm : m s with
  | error e =>
    cases hm' : m' s' with
    | error e' => cases e <;> cases e' <;> simp_all
    | ok r' => cases e <;> simp only [hm, hm'] at h
  | ok r =>
    cases hm' : m' s' with
    | error e' => cases e' <;> simp only [hm, hm'] at h
    | ok r' =>
      rw [hm, hm'] at h
      exact hg r.1 r.2 r'.1 r'.2 h

theorem Together.imp {E' : Rejection → Rejection → Prop} (h : Together E m m' s s' P)
    (he : ∀ r r', E r r' → E' r r') (hq : ∀ a t a' t', P a t a' t' → Q a t a' t') :
    Together E' m m' s s' Q := by
  unfold Together at h ⊢
  split <;> simp_all

/-- What is known about each of the two runs may be used as well. -/
theorem Together.run (h : Together E m m' s s' Q) :
    Together E m m' s s' fun a t a' t' =>
      m s = .ok (a, t) ∧ m' s' = .ok (a', t') ∧ Q a t a' t' := by
  unfold Together at h ⊢
  split <;> simp_all

theorem Together.of_ok (h : Together E m m' s s' Q) {a : α} (hm : m s = .ok (a, t)) :
    ∃ a' t', m' s' = .ok (a', t') ∧ Q a t a' t' := by
  unfold Together at h
  rw [hm] at h
  cases hm' : m' s' with
  | error e => cases e <;> simp only [hm'] at h
  | ok r' =>
    rw [hm'] at h
    exact ⟨r'.1, r'.2, rfl, h⟩

theorem Together.of_ok_right (h : Together E m m' s s' Q) {a' : α'} (hm' : m' s' = .ok (a', t')) :
    ∃ a t, m s = .ok (a, t) ∧ Q a t a' t' := by
  unfold Together at h
  rw [hm'] at h
  cases hm : m s with
  | error e => cases e <;> simp only [hm] at h
  | ok r =>
    rw [hm] at h
    exact ⟨r.1, r.2, rfl, h⟩

/-- Both give a value, or whatever comes after them, they end together. -/
theorem Together.cases (h : Together E m m' s s' Q) :
    (∃ a t a' t', m s = .ok (a, t) ∧ m' s' = .ok (a', t') ∧ Q a t a' t') ∨
      ∀ {R : β → State → β' → State → Prop} (g : α → CheckM β) (g' : α' → CheckM β'),
        Together E (m >>= g) (m' >>= g') s s' R := by
  cases hm : m s with
  | ok r =>
    obtain ⟨a', t', hm', hq⟩ := h.of_ok (t := r.2) hm
    exact Or.inl ⟨r.1, r.2, a', t', rfl, hm', hq⟩
  | error e =>
    refine Or.inr fun g g' => h.run.bind fun a t a' t' hp => ?_
    rw [hm] at hp
    cases hp.1

@[simp] theorem together_ask {f : State → Except Fault α} {f' : State → Except Fault α'} :
    Together E (ask f) (ask f') s s' Q ↔ Both (f s) (f' s') fun a a' => Q a s a' s' := by
  simp only [Together, ask]
  cases f s <;> cases f' s' <;> rfl

@[simp] theorem together_onArena {f f' : Arena → Except Fault Arena}
    {Q : Unit → State → Unit → State → Prop} :
    Together E (onArena f) (onArena f') s s' Q ↔ Both (f s.arena) (f' s'.arena) fun a a' =>
      Q () { s with arena := a } () { s' with arena := a' } := by
  simp only [Together, onArena]
  cases f s.arena <;> cases f' s'.arena <;> rfl

@[simp] theorem together_onWatches {f f' : WatchTable → Except Fault WatchTable}
    {Q : Unit → State → Unit → State → Prop} :
    Together E (onWatches f) (onWatches f') s s' Q ↔
      Both (f s.watches) (f' s'.watches) fun w w' =>
        Q () { s with watches := w } () { s' with watches := w' } := by
  simp only [Together, onWatches]
  cases f s.watches <;> cases f' s'.watches <;> rfl

@[simp] theorem together_onTrail {f f' : Trail → Except Fault Trail}
    {Q : Unit → State → Unit → State → Prop} :
    Together E (onTrail f) (onTrail f') s s' Q ↔ Both (f s.trail) (f' s'.trail) fun u u' =>
      Q () { s with trail := u } () { s' with trail := u' } := by
  simp only [Together, onTrail]
  cases f s.trail <;> cases f' s'.trail <;> rfl

@[simp] theorem together_markCore {c c' : Handle} {Q : Bool → State → Bool → State → Prop} :
    Together E (markCore c) (markCore c') s s' Q ↔
      Both (s.arena.markCore c) (s'.arena.markCore c') fun r r' =>
        Q r.1 { s with arena := r.2 } r'.1 { s' with arena := r'.2 } := by
  simp only [Together, markCore]
  cases s.arena.markCore c <;> cases s'.arena.markCore c' <;> rfl

@[simp] theorem together_store {x x' : Clause} {Q : Handle → State → Handle → State → Prop} :
    Together E (store x) (store x') s s' Q ↔
      Both (s.arena.add x) (s'.arena.add x') fun r r' =>
        Q r.1 { s with arena := r.2, index := s.index.insert x r.1 }
          r'.1 { s' with arena := r'.2, index := s'.index.insert x' r'.1 } := by
  simp only [Together, store]
  cases s.arena.add x <;> cases s'.arena.add x' <;> rfl

end Together

/-- From states in `I`, two computations run together to values in `V` and states in `I`. -/
def Paired (I : State → State → Prop) (E : Rejection → Rejection → Prop) (m : CheckM α)
    (m' : CheckM α') (V : α → α' → Prop) : Prop :=
  ∀ ⦃s s'⦄, I s s' → Together E m m' s s' fun a t a' t' => V a a' ∧ I t t'

namespace Paired

variable {I : State → State → Prop} {m : CheckM α} {m' : CheckM α'} {g : α → CheckM β}
  {g' : α' → CheckM β'} {V W : α → α' → Prop} {U : β → β' → Prop}

theorem mono (h : Paired I E m m' V) (hv : ∀ a a', V a a' → W a a') : Paired I E m m' W :=
  fun _ _ hi => (h hi).mono fun a _ a' _ hp => ⟨hv a a' hp.1, hp.2⟩

theorem bind (h : Paired I E m m' V) (hg : ∀ a a', V a a' → Paired I E (g a) (g' a') U) :
    Paired I E (m >>= g) (m' >>= g') U :=
  fun _ _ hi => (h hi).bind fun a _ a' _ hp => hg a a' hp.1 hp.2

theorem pure {a : α} {a' : α'} (h : V a a') : Paired I E (Pure.pure a) (Pure.pure a') V :=
  fun _ _ hi => ⟨h, hi⟩

theorem fault (e : Fault) :
    Paired I E (CheckM.fault e : CheckM α) (CheckM.fault e : CheckM α') V := fun _ _ _ => rfl

theorem reject {r r' : Rejection} (h : E r r') :
    Paired I E (CheckM.reject r : CheckM α) (CheckM.reject r' : CheckM α') V := fun _ _ _ => h

theorem ite {p : Prop} [Decidable p] {m₁ : CheckM α} {m₁' : CheckM α'}
    (h : p → Paired I E m m' V) (h₁ : ¬ p → Paired I E m₁ m₁' V) :
    Paired I E (if p then m else m₁) (if p then m' else m₁') V := by
  split
  · exact h ‹_›
  · exact h₁ ‹_›

/-- A look at the state whose answer is the same on both sides. -/
theorem ask {f : State → Except Fault α} {P : α → Prop} (he : ∀ s s', I s s' → f s' = f s)
    (hp : ∀ s s', I s s' → ∀ a, f s = .ok a → P a) :
    Paired I E (CheckM.ask f) (CheckM.ask f) fun a a' => a' = a ∧ P a := by
  intro s s' hi
  rw [together_ask, he s s' hi]
  exact both_self fun a ha => ⟨⟨rfl, hp s s' hi a ha⟩, hi⟩

theorem look {f : State → α} {f' : State → α'} (h : ∀ s s', I s s' → V (f s) (f' s')) :
    Paired I E (CheckM.look f) (CheckM.look f') V := fun s s' hi => ⟨h s s' hi, hi⟩

end Paired

end UnsatCore.Engine
