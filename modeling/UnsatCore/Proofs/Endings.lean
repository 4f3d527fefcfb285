import UnsatCore.Engine.State

/-! How a run of the engine can end. A statement about a run names the values and states that it may
give, the rejections that it may end in, and whether it may end in a fault at all. -/
namespace UnsatCore.Engine

open CheckM

variable {α β : Type} {F : Prop} {R : Rejection → State → Prop} {m : CheckM α} {s : State}
  {P Q : α → State → Prop}

/-- An answer is in `Q`, or there is none and `F` excuses the fault. -/
def Yields (F : Prop) (r : Except Fault α) (Q : α → Prop) : Prop :=
  match r with
  | .ok a => Q a
  | .error _ => F

@[simp] theorem yields_ok {a : α} {Q : α → Prop} : Yields F (.ok a) Q ↔ Q a := Iff.rfl

@[simp] theorem yields_error {e : Fault} {Q : α → Prop} : Yields F (.error e) Q ↔ F := Iff.rfl

@[simp] theorem yields_pure {a : α} {Q : α → Prop} : Yields F (pure a) Q ↔ Q a := Iff.rfl

@[simp] theorem yields_bind {r : Except Fault α} {f : α → Except Fault β} {Q : β → Prop} :
    Yields F (r >>= f) Q ↔ Yields F r fun a => Yields F (f a) Q := by
  cases r <;> rfl

@[simp] theorem yields_ite {p : Prop} [Decidable p] {r r' : Except Fault α} {Q : α → Prop} :
    Yields F (if p then r else r') Q ↔ if p then Yields F r Q else Yields F r' Q := by
  split <;> rfl

theorem Yields.mono {r : Except Fault α} {P Q : α → Prop} (h : Yields F r P)
    (hq : ∀ a, P a → Q a) : Yields F r Q := by
  cases r with
  | ok a => exact hq a h
  | error e => exact h

/-- Where a fault is excused, only the answer counts. -/
theorem yields_of_forall {r : Except Fault α} {Q : α → Prop} (h : ∀ a, r = .ok a → Q a) :
    Yields True r Q := by
  cases r with
  | ok a => exact h a rfl
  | error e => trivial

theorem bind_of_ok {g : α → CheckM β} {a : α} {s' : State} (h : m s = .ok (a, s')) :
    (m >>= g) s = g a s' := by
  simp only [bind, StateT.bind, h, Except.bind]

theorem bind_of_error {g : α → CheckM β} {e : Halt} (h : m s = .error e) :
    (m >>= g) s = .error e := by
  simp only [bind, StateT.bind, h, Except.bind]

/-- What comes after a computation matters only for the values and states that it gives. -/
theorem bind_congr_ok {m' : CheckM α} {g g' : α → CheckM β} (hm : m s = m' s)
    (hg : ∀ a s', m s = .ok (a, s') → g a s' = g' a s') : (m >>= g) s = (m' >>= g') s := by
  simp only [bind, StateT.bind, Except.bind, ← hm]
  cases hr : m s with
  | error e => rfl
  | ok r => exact hg r.1 r.2 hr

theorem ask_of_ok {f : State → Except Fault α} {a : α} (h : f s = .ok a) :
    ask f s = .ok (a, s) := by
  simp only [ask, h]

theorem ask_eq_ok_iff {f : State → Except Fault α} {a : α} {s' : State} :
    ask f s = .ok (a, s') ↔ f s = .ok a ∧ s' = s := by
  unfold ask
  cases f s with
  | ok b => simp [eq_comm]
  | error e => simp

theorem bind_eq_ok_iff {g : α → CheckM β} {r : β × State} :
    (m >>= g) s = .ok r ↔ ∃ a s', m s = .ok (a, s') ∧ g a s' = .ok r := by
  simp only [bind, StateT.bind, Except.bind]
  cases m s with
  | ok p =>
    refine ⟨fun h => ⟨p.1, p.2, rfl, h⟩, ?_⟩
    rintro ⟨a, s', he, h⟩
    cases he
    exact h
  | error e => simp

/-- Run from `s`, `m` gives a value and a state in `Q`, or is rejected as `R` allows, or meets a
fault, which only `F` excuses. -/
def Ends (F : Prop) (R : Rejection → State → Prop) (m : CheckM α) (s : State)
    (Q : α → State → Prop) : Prop :=
  match m s with
  | .ok (a, s') => Q a s'
  | .error (.rejected r s') => R r s'
  | .error (.fault _ _) => F

theorem Ends.mono (h : Ends F R m s P) (hq : ∀ a s', P a s' → Q a s') : Ends F R m s Q := by
  unfold Ends at h ⊢
  split <;> simp_all

theorem Ends.of_ok (h : Ends F R m s Q) {a : α} {s' : State} (hm : m s = .ok (a, s')) :
    Q a s' := by
  simpa [Ends, hm] using h

theorem Ends.of_rejected (h : Ends F R m s Q) {r : Rejection} {s' : State}
    (hm : m s = .error (.rejected r s')) : R r s' := by
  simpa [Ends, hm] using h

theorem Ends.imp {F' : Prop} {R' : Rejection → State → Prop} (h : Ends F R m s P) (hf : F → F')
    (hr : ∀ r s', R r s' → R' r s') (hq : ∀ a s', P a s' → Q a s') : Ends F' R' m s Q := by
  unfold Ends at h ⊢
  split <;> simp_all

/-- Two statements about one run. -/
theorem Ends.and {F' : Prop} {R' : Rejection → State → Prop} (h : Ends F R m s P)
    (h' : Ends F' R' m s Q) : Ends (F ∧ F') (fun r s' => R r s' ∧ R' r s') m s fun a s' =>
      P a s' ∧ Q a s' := by
  unfold Ends at h h' ⊢
  split <;> simp_all

/-- That the value and the state are those of the run may be used as well. -/
theorem Ends.run (h : Ends F R m s Q) : Ends F R m s fun a s' => m s = .ok (a, s') ∧ Q a s' := by
  unfold Ends at h ⊢
  split <;> simp_all

/-- A run that may end neither in a rejection nor in a fault gives a value. -/
theorem Ends.exists_ok (h : Ends False (fun _ _ => False) m s Q) :
    ∃ a s', m s = .ok (a, s') ∧ Q a s' := by
  unfold Ends at h
  split at h
  · exact ⟨_, _, ‹_›, h⟩
  · exact h.elim
  · exact h.elim

/-- A run that may give no value and meet no fault is rejected. -/
theorem Ends.exists_rejected (h : Ends False R m s fun _ _ => False) :
    ∃ r s', m s = .error (.rejected r s') ∧ R r s' := by
  unfold Ends at h
  split at h
  · exact h.elim
  · exact ⟨_, _, ‹_›, h⟩
  · exact h.elim

/-- Where all that can go wrong is excused, only values count. -/
theorem ends_of_forall (h : ∀ a s', Q a s') : Ends True (fun _ _ => True) m s Q := by
  unfold Ends
  split
  · exact h _ _
  · trivial
  · trivial

@[simp] theorem ends_pure {a : α} : Ends F R (pure a) s Q ↔ Q a s := Iff.rfl

@[simp] theorem ends_bind {f : α → CheckM β} {Q : β → State → Prop} :
    Ends F R (m >>= f) s Q ↔ Ends F R m s fun a s' => Ends F R (f a) s' Q := by
  simp only [Ends, bind, StateT.bind, Except.bind]
  cases m s with
  | ok r => rfl
  | error e => cases e <;> rfl

@[simp] theorem ends_fault {cause : Fault} : Ends F R (fault cause : CheckM α) s Q ↔ F := Iff.rfl

@[simp] theorem ends_reject {cause : Rejection} :
    Ends F R (reject cause : CheckM α) s Q ↔ R cause s := Iff.rfl

@[simp] theorem ends_look {f : State → α} : Ends F R (look f) s Q ↔ Q (f s) s := Iff.rfl

@[simp] theorem ends_emit {e : Event} {Q : Unit → State → Prop} :
    Ends F R (emit e) s Q ↔ Q () { s with log := s.log.push e } := Iff.rfl

@[simp] theorem ends_count {f : Counters → Counters} {Q : Unit → State → Prop} :
    Ends F R (count f) s Q ↔ Q () { s with counters := f s.counters } := Iff.rfl

@[simp] theorem ends_modify {f : State → State} {Q : Unit → State → Prop} :
    Ends F R (modify f : CheckM Unit) s Q ↔ Q () (f s) := Iff.rfl

@[simp] theorem ends_ite {p : Prop} [Decidable p] {m' : CheckM α} :
    Ends F R (if p then m else m') s Q ↔ if p then Ends F R m s Q else Ends F R m' s Q := by
  split <;> rfl

/-- A step that is taken on a condition only, and what comes after it. -/
theorem ends_when {p : Prop} [Decidable p] {m : CheckM Unit} {k : CheckM β}
    {Q : β → State → Prop} :
    Ends F R (if p then m >>= fun _ => k else k) s Q ↔
      Ends F R (if p then m else pure ()) s fun _ s' => Ends F R k s' Q := by
  split <;> simp

@[simp] theorem ends_ask {f : State → Except Fault α} :
    Ends F R (ask f) s Q ↔ Yields F (f s) fun a => Q a s := by
  simp only [Ends, ask]
  cases f s <;> rfl

@[simp] theorem ends_onArena {f : Arena → Except Fault Arena} {Q : Unit → State → Prop} :
    Ends F R (onArena f) s Q ↔ Yields F (f s.arena) fun a => Q () { s with arena := a } := by
  simp only [Ends, onArena]
  cases f s.arena <;> rfl

@[simp] theorem ends_onWatches {f : WatchTable → Except Fault WatchTable}
    {Q : Unit → State → Prop} :
    Ends F R (onWatches f) s Q ↔ Yields F (f s.watches) fun t => Q () { s with watches := t } := by
  simp only [Ends, onWatches]
  cases f s.watches <;> rfl

@[simp] theorem ends_onTrail {f : Trail → Except Fault Trail} {Q : Unit → State → Prop} :
    Ends F R (onTrail f) s Q ↔ Yields F (f s.trail) fun t => Q () { s with trail := t } := by
  simp only [Ends, onTrail]
  cases f s.trail <;> rfl

@[simp] theorem ends_markCore {c : Handle} {Q : Bool → State → Prop} :
    Ends F R (markCore c) s Q ↔
      Yields F (s.arena.markCore c) fun r => Q r.1 { s with arena := r.2 } := by
  simp only [Ends, markCore]
  cases s.arena.markCore c <;> rfl

@[simp] theorem ends_store {x : Clause} {Q : Handle → State → Prop} :
    Ends F R (store x) s Q ↔ Yields F (s.arena.add x) fun r =>
      Q r.1 { s with arena := r.2, index := s.index.insert x r.1 } := by
  simp only [Ends, store]
  cases s.arena.add x <;> rfl

@[simp] theorem ends_fixProcessed {Q : Unit → State → Prop} :
    Ends F R fixProcessed s Q ↔
      Q () { s with trail := { s.trail with forced := s.trail.processed } } := Iff.rfl

/-- What is written down about the input stays: propagation and its explanation touch none of it. -/
structure Framed (s s' : State) : Prop where
  origins : s'.origins = s.origins
  steps : s'.steps = s.steps
  index : s'.index = s.index
  justified : s'.justified = s.justified

theorem Framed.refl (s : State) : Framed s s := ⟨rfl, rfl, rfl, rfl⟩

theorem Framed.trans {s₁ s₂ s₃ : State} (h : Framed s₁ s₂) (h' : Framed s₂ s₃) : Framed s₁ s₃ :=
  ⟨h'.origins.trans h.origins, h'.steps.trans h.steps, h'.index.trans h.index,
    h'.justified.trans h.justified⟩

end UnsatCore.Engine
