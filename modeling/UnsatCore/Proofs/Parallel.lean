import UnsatCore.Proofs.Abreast
import UnsatCore.Proofs.Mirror

/-! The engine on states of which one is found in the other. Clauses that both runs have are
attached, needed and explained in both of them alike. -/
namespace UnsatCore

open Engine

/-- The counters that are compared. The other ones count as 0. -/
def Counters.tally (exact : Bool) (n : Counters) : Counters :=
  if exact then n else { n with propagations := 0 }

namespace Trail

variable {t u : Trail} {l : Literal}

theorem forced_setStatus {st : Status} (h : t.setStatus l st = .ok u) : u.forced = t.forced := by
  unfold setStatus at h
  split at h <;> cases h
  rfl

theorem forced_mark (h : t.mark l = .ok u) : u.forced = t.forced := by
  unfold mark at h
  split at h
  · exact forced_setStatus h
  · cases h
  · cases h

theorem forced_assign {c : Option Handle} (h : t.assign l c = .ok u) : u.forced = t.forced := by
  obtain ⟨-, -, status, reason, -, -, rfl⟩ := assign_eq_ok h
  rfl

end Trail

namespace Image

/-- What a line of the first run is in the second one. -/
def step (g : Image) : Step → Step
  | .add c => .add (g.handle c)
  | .delete c => .delete (g.handle c)
  | .satisfied c => .satisfied (g.handle c)
  | .ignored => .ignored

/-- Lines of clauses that both runs have. No deletion is carried out. -/
def Knows (g : Image) : Step → Prop
  | .add c | .satisfied c => g.AtLeast 0 c
  | .delete _ => False
  | .ignored => True

/-- Two formulas and where their clauses are stored. The second formula has those of the first one
and others in between. -/
inductive Woven (g : Image) : Formula → List Handle → Formula → List Handle → Prop
  | nil : Woven g [] [] [] []
  | common {f f' : Formula} {hs hs' : List Handle} {c : Clause} {h : Handle} :
      Woven g f hs f' hs' → g.AtLeast 0 h →
        Woven g (c :: f) (h :: hs) (c.map g.lit :: f') (g.handle h :: hs')
  | alien {f f' : Formula} {hs hs' : List Handle} {c : Clause} {h : Handle} :
      Woven g f hs f' hs' → g.alien 0 h → Woven g f hs (c :: f') (h :: hs')

end Image

namespace Engine

open CheckM

/-- What the first run has is found in the second one. -/
structure Mirrored (g : Image) (s s' : State) : Prop where
  trail : Trail.Mirror g s.trail s'.trail
  watches : WatchTable.Mirror g s.watches s'.watches
  arena : Arena.Mirror g s.arena s'.arena
  origins : g.Woven g.read s.origins.toList g.read' s'.origins.toList
  steps : s'.steps = s.steps.map g.step
  known : ∀ step ∈ s.steps.toList, g.Knows step
  counters : s'.counters.tally g.exact = s.counters.tally g.exact

/-- Clauses that the first run has are told apart in the second one. -/
theorem Mirrored.inj {g : Image} {s s' : State} {c : Handle} {n k : Nat} (h : Mirrored g s s')
    (hc : g.size c = some n) : ∀ d, g.AtLeast k d → g.handle d = g.handle c → d = c := by
  rintro d ⟨m, hd, -⟩ he
  exact h.arena.inj d c ⟨m, hd, Nat.zero_le m⟩ ⟨n, hc, Nat.zero_le n⟩ he

variable {α α' β β' : Type} {g : Image} {m m₁ : CheckM α} {m' m₁' : CheckM α'}
  {k : α → CheckM β} {k' : α' → CheckM β'} {V W : α → α' → Prop} {U : β → β' → Prop}
  {s s' : State} {c : Handle} {n i j : Nat} {l : Literal} {ls : Clause}

/-- From such states, two computations give values in `V` and such states. -/
def Parallel (g : Image) (m : CheckM α) (m' : CheckM α') (V : α → α' → Prop) : Prop :=
  ∀ ⦃s s'⦄, Mirrored g s s' →
    Corresponds g.comparison m m' s s' fun a t a' t' => V a a' ∧ Mirrored g t t'

namespace Parallel

theorem mono (h : Parallel g m m' V) (hv : ∀ a a', V a a' → W a a') : Parallel g m m' W :=
  fun _ _ hs => (h hs).mono fun a _ a' _ hp => ⟨hv a a' hp.1, hp.2⟩

theorem bind (h : Parallel g m m' V) (hk : ∀ a a', V a a' → Parallel g (k a) (k' a') U) :
    Parallel g (m >>= k) (m' >>= k') U :=
  fun _ _ hs => (h hs).bind fun a _ a' _ hp => hk a a' hp.1 hp.2

theorem pure {a : α} {a' : α'} (h : V a a') : Parallel g (Pure.pure a) (Pure.pure a') V :=
  fun _ _ hs => ⟨h, hs⟩

theorem reject {r r' : Rejection} (h : r' = r.image g.lit) :
    Parallel g (CheckM.reject r : CheckM α) (CheckM.reject r' : CheckM α') V :=
  fun _ _ _ => congrArg Failure.rejected h.symm

theorem fault {e e' : Fault} (h : e' = e.image g.lit g.handle) :
    Parallel g (CheckM.fault e : CheckM α) (CheckM.fault e' : CheckM α') V :=
  fun _ _ _ => Or.inr (congrArg Failure.fault h.symm)

/-- A condition that holds in both runs or in none. -/
theorem ite {p p' : Prop} [Decidable p] [Decidable p'] (hp : p' ↔ p)
    (h : p → Parallel g m m' V) (h₁ : ¬ p → Parallel g m₁ m₁' V) :
    Parallel g (if p then m else m₁) (if p' then m' else m₁') V := by
  by_cases hc : p
  · rw [if_pos hc, if_pos (hp.mpr hc)]
    exact h hc
  · rw [if_neg hc, if_neg fun hc' => hc (hp.mp hc')]
    exact h₁ hc

theorem ask {f : State → Except Fault α} {f' : State → Except Fault α'}
    (h : ∀ s s', Mirrored g s s' → Answers g.comparison (f s) (f' s') V) :
    Parallel g (CheckM.ask f) (CheckM.ask f') V := by
  intro s s' hs
  rw [corresponds_ask]
  exact (h s s' hs).mono fun a a' ha => ⟨ha, hs⟩

theorem emit (e e' : Event) : Parallel g (CheckM.emit e) (CheckM.emit e') fun _ _ => True :=
  fun _ _ hs => ⟨trivial, { hs with }⟩

/-- What is counted does not depend on the counters that are not compared. -/
theorem count {f : Counters → Counters}
    (hf : ∀ b (n : Counters), (f n).tally b = (f (n.tally b)).tally b) :
    Parallel g (CheckM.count f) (CheckM.count f) fun _ _ => True := by
  intro s s' hs
  refine ⟨trivial, { hs with counters := ?_ }⟩
  rw [hf, hf _ s.counters, hs.counters]

theorem onTrail {f f' : Trail → Except Fault Trail}
    (hf : ∀ s s', Mirrored g s s' →
      Answers g.comparison (f s.trail) (f' s'.trail) (Trail.Mirror g)) :
    Parallel g (CheckM.onTrail f) (CheckM.onTrail f') fun _ _ => True := by
  intro s s' hs
  rw [corresponds_onTrail]
  exact (hf s s' hs).mono fun t t' ht => ⟨trivial, { hs with trail := ht }⟩

theorem onWatches {f f' : WatchTable → Except Fault WatchTable}
    (hf : ∀ s s', Mirrored g s s' →
      Answers g.comparison (f s.watches) (f' s'.watches) (WatchTable.Mirror g)) :
    Parallel g (CheckM.onWatches f) (CheckM.onWatches f') fun _ _ => True := by
  intro s s' hs
  rw [corresponds_onWatches]
  exact (hf s s' hs).mono fun t t' ht => ⟨trivial, { hs with watches := ht }⟩

theorem swap (hc : g.size c = some n) (hi : i < n) (hj : j < n) :
    Parallel g (onArena (·.swap c i j)) (onArena (·.swap (g.handle c) i j)) fun _ _ => True := by
  intro s s' hs
  rw [corresponds_onArena]
  exact (hs.arena.swap hc hi hj).mono fun a a' ha => ⟨trivial, { hs with arena := ha }⟩

theorem markCore (hc : g.size c = some n) :
    Parallel g (CheckM.markCore c) (CheckM.markCore (g.handle c)) fun b b' => b' = b := by
  intro s s' hs
  rw [corresponds_markCore]
  exact (hs.arena.markCore hc).mono fun r r' hr => ⟨hr.1, { hs with arena := hr.2 }⟩

end Parallel

section Attachment

theorem parallel_isFalseNow (hl : g.legal l) :
    Parallel g (isFalseNow l) (isFalseNow (g.lit l)) fun b b' => b' = b :=
  Parallel.ask fun s s' h => by
    rw [h.trail.isFalse hl, h.trail.wf.isFalse (g.small hl), answers_ok]

theorem parallel_isTrueNow (hl : g.legal l) :
    Parallel g (isTrueNow l) (isTrueNow (g.lit l)) fun b b' => b' = b :=
  Parallel.ask fun s s' h => by
    rw [h.trail.isTrue hl, h.trail.wf.isTrue (g.small hl) (g.proper hl).2, answers_ok]

theorem parallel_literalOf (hc : g.size c = some n) (hi : i < n) :
    Parallel g (literalOf c i) (literalOf (g.handle c) i)
      fun l l' => g.legal l ∧ l' = g.lit l := by
  refine Parallel.ask fun s s' h => ?_
  have hcom := h.arena.common c n hc
  obtain ⟨l, hl, hlit, hlit'⟩ := hcom.literal hi
  rw [hlit, hlit', answers_ok]
  exact ⟨hcom.legal l hl, rfl⟩

/-- The first word of a clause is a literal, or 0 if the clause is empty. -/
theorem parallel_literalOf_zero (hc : g.size c = some n) :
    Parallel g (literalOf c 0) (literalOf (g.handle c) 0) fun l l' => l'.isZero = l.isZero ∧
      (l.isZero = false → g.legal l ∧ l' = g.lit l ∧ 0 < n) := by
  rcases Nat.eq_zero_or_pos n with rfl | hpos
  · refine Parallel.ask fun s s' h => ?_
    obtain ⟨hend, hend'⟩ := (h.arena.common c 0 hc).literal_end
    rw [hend, hend', answers_ok]
    exact ⟨rfl, by simp [Literal.isZero]⟩
  · refine (parallel_literalOf hc hpos).mono ?_
    rintro l _ ⟨hl, rfl⟩
    refine ⟨?_, fun _ => ⟨hl, rfl, hpos⟩⟩
    simp [Literal.isZero, (g.proper hl).1, (g.lit_proper hl).1]

theorem parallel_bodyOf (hc : g.size c = some n) (hi : i ≤ n) :
    Parallel g (bodyOf c i) (bodyOf (g.handle c) i) fun ls ls' =>
      ls' = ls.map g.lit ∧ ls.length = n - i ∧ ∀ l ∈ ls, g.legal l := by
  refine Parallel.ask fun s s' h => ?_
  have hcom := h.arena.common c n hc
  obtain ⟨hbody, hbody'⟩ := hcom.body hi
  rw [hbody, hbody', answers_ok]
  exact ⟨rfl, by rw [List.length_drop, hcom.length],
    fun l hl => hcom.legal l (List.mem_of_mem_drop hl)⟩

theorem parallel_watchable (hc : g.size c = some n) :
    Parallel g (watchable c) (watchable (g.handle c))
      fun b b' => b = decide (2 ≤ n) ∧ b' = b := by
  refine Parallel.ask fun s s' h => ?_
  obtain ⟨hw, hw'⟩ := (h.arena.common c n hc).isWatchable
  rw [hw, hw', answers_ok]
  exact ⟨rfl, rfl⟩

theorem parallel_isCore (hc : g.size c = some n) :
    Parallel g (ask (·.arena.isCore c)) (ask (·.arena.isCore (g.handle c)))
      fun b b' => b' = b := by
  refine Parallel.ask fun s s' h => ?_
  obtain ⟨hw, hw'⟩ := (h.arena.common c n hc).isCore
  rw [hw, hw', answers_ok]

theorem parallel_requireWatchable (hc : g.size c = some n) :
    Parallel g (requireWatchable c) (requireWatchable (g.handle c)) fun _ _ => 2 ≤ n := by
  refine (parallel_watchable hc).bind ?_
  rintro b _ ⟨rfl, rfl⟩
  exact .ite Iff.rfl (fun ht => .pure (by simpa using ht)) fun _ => .fault rfl

theorem parallel_insert (hl : g.legal l) (hc : g.size c = some n) (hn : 2 ≤ n) (core : Bool) :
    Parallel g (onWatches (·.insert l ⟨c, core⟩))
      (onWatches (·.insert (g.lit l) ⟨g.handle c, core⟩)) fun _ _ => True :=
  Parallel.onWatches fun _ _ h => h.watches.insert (w := ⟨c, core⟩) hl ⟨n, hc, hn⟩

theorem parallel_attach (hc : g.size c = some n) :
    Parallel g (attach c) (attach (g.handle c)) fun _ _ => True := by
  refine (parallel_requireWatchable hc).bind fun _ _ hn => ?_
  refine (parallel_isCore hc).bind ?_
  rintro core _ rfl
  refine (parallel_literalOf hc (by omega)).bind ?_
  rintro first _ ⟨hfirst, rfl⟩
  refine (parallel_insert hfirst hc hn _).bind fun _ _ _ => ?_
  refine (parallel_literalOf hc (by omega)).bind ?_
  rintro second _ ⟨hsecond, rfl⟩
  exact parallel_insert hsecond hc hn _

theorem parallel_detach (hc : g.size c = some n) :
    Parallel g (detach c) (detach (g.handle c)) fun _ _ => True := by
  have hremove : ∀ {l}, g.legal l →
      Parallel g (onWatches (·.remove l c)) (onWatches (·.remove (g.lit l) (g.handle c)))
        fun _ _ => True := fun hl =>
    Parallel.onWatches fun _ _ h => h.watches.remove hl (h.inj hc)
  refine (parallel_requireWatchable hc).bind fun _ _ hn => ?_
  refine (parallel_literalOf hc (by omega)).bind ?_
  rintro first _ ⟨hfirst, rfl⟩
  refine (hremove hfirst).bind fun _ _ _ => ?_
  refine (parallel_literalOf hc (by omega)).bind ?_
  rintro second _ ⟨hsecond, rfl⟩
  exact hremove hsecond

theorem parallel_sortFrom (hc : g.size c = some n) (hlen : i + ls.length = n)
    (hls : ∀ l ∈ ls, g.legal l) {view : View} (hv : view.size ≤ i) :
    Parallel g (sortFrom c ls i view) (sortFrom (g.handle c) (ls.map g.lit) i view)
      fun v v' => v' = v ∧ v.size ≤ n := by
  induction ls generalizing i view with
  | nil => exact .pure ⟨rfl, by rw [List.length_nil] at hlen; omega⟩
  | cons l ls ih =>
    rw [List.length_cons] at hlen
    have hl := hls l List.mem_cons_self
    have hrest : ∀ l ∈ ls, g.legal l := fun m hm => hls m (List.mem_cons_of_mem l hm)
    refine (parallel_isFalseNow hl).bind ?_
    rintro b _ rfl
    refine .ite Iff.rfl (fun _ => ih (by omega) hrest (by omega)) fun _ => ?_
    refine (parallel_isTrueNow hl).bind ?_
    rintro holds _ rfl
    refine (Parallel.swap hc (by omega) (by omega)).bind fun _ _ _ => ?_
    exact ih (by omega) hrest (Nat.succ_le_succ hv)

theorem parallel_sortUnfalsified (hc : g.size c = some n) :
    Parallel g (sortUnfalsified c) (sortUnfalsified (g.handle c))
      fun v v' => v' = v ∧ v.size ≤ n := by
  refine (parallel_bodyOf hc (Nat.zero_le n)).bind ?_
  rintro ls _ ⟨rfl, hlen, hls⟩
  exact parallel_sortFrom hc (by omega) hls (Nat.le_refl 0)

end Attachment

section Dependency

theorem parallel_mark (hl : g.legal l) :
    Parallel g (onTrail (·.mark l)) (onTrail (·.mark (g.lit l))) fun _ _ => True :=
  Parallel.onTrail fun _ _ h => h.trail.mark hl

theorem parallel_markLiterals (hls : ∀ l ∈ ls, g.legal l) :
    Parallel g (markLiterals ls) (markLiterals (ls.map g.lit)) fun _ _ => True := by
  induction ls with
  | nil => exact .pure trivial
  | cons l ls ih =>
    refine (parallel_mark (hls l List.mem_cons_self)).bind fun _ _ _ => ?_
    exact ih fun m hm => hls m (List.mem_cons_of_mem l hm)

theorem parallel_markWatchers (hc : g.size c = some n) (hn : 2 ≤ n) :
    Parallel g (markWatchers c) (markWatchers (g.handle c)) fun _ _ => True := by
  have hmark : ∀ {l}, g.legal l →
      Parallel g (onWatches (·.mark l c)) (onWatches (·.mark (g.lit l) (g.handle c)))
        fun _ _ => True := fun hl =>
    Parallel.onWatches fun _ _ h => h.watches.mark hl (h.inj hc)
  refine (parallel_literalOf hc (by omega)).bind ?_
  rintro first _ ⟨hfirst, rfl⟩
  refine (hmark hfirst).bind fun _ _ _ => ?_
  refine (parallel_literalOf hc (by omega)).bind ?_
  rintro second _ ⟨hsecond, rfl⟩
  exact hmark hsecond

theorem parallel_enterCore (hc : g.size c = some n) :
    Parallel g (enterCore c) (enterCore (g.handle c)) fun _ _ => True := by
  refine (Parallel.markCore hc).bind ?_
  rintro fresh _ rfl
  refine .ite Iff.rfl (fun _ => ?_) fun _ => .pure trivial
  refine (parallel_watchable hc).bind ?_
  rintro b _ ⟨rfl, rfl⟩
  exact .ite Iff.rfl (fun ht => parallel_markWatchers hc (by simpa using ht)) fun _ =>
    .pure trivial

theorem parallel_need (hc : g.size c = some n) (hi : i ≤ n) :
    Parallel g (need c i) (need (g.handle c) i) fun _ _ => True := by
  refine (Parallel.count fun b _ => by cases b <;> rfl).bind fun _ _ _ => ?_
  refine (parallel_enterCore hc).bind fun _ _ _ => ?_
  refine (parallel_bodyOf hc hi).bind ?_
  rintro ls _ ⟨rfl, -, hls⟩
  exact parallel_markLiterals hls

theorem parallel_needReason (hl : g.legal l) :
    Parallel g (needReason l) (needReason (g.lit l)) fun _ _ => True := by
  have hreason : Parallel g (ask (markedReason l)) (ask (markedReason (g.lit l)))
      fun r r' => r' = r.map g.handle ∧ ∀ c, r = some c → g.AtLeast 1 c := by
    classical
    refine Parallel.ask fun s s' h => ?_
    obtain ⟨r, hr, hr', hknown⟩ := h.trail.reasonOf hl
    simp only [markedReason, h.trail.isMarked hl, h.trail.wf.isMarked (g.small hl), bind,
      Except.bind, hr, hr']
    split
    · exact ⟨rfl, hknown⟩
    · exact ⟨rfl, by simp⟩
  refine hreason.bind ?_
  rintro r _ ⟨rfl, hr⟩
  cases r with
  | none => exact .pure trivial
  | some c =>
    obtain ⟨n, hc, hn⟩ := hr c rfl
    exact parallel_need hc hn

end Dependency

section Climbing

/-- The literals of the trail stay where they are, and as many of them are fixed. Only where the
value is not in `P`, anything may happen. -/
def Climbs (m : CheckM α) (P : α → Prop) : Prop :=
  ∀ ⦃s a t⦄, m s = .ok (a, t) → P a →
    s.trail.falsified <+: t.trail.falsified ∧ t.trail.forced = s.trail.forced

namespace Climbs

variable {P : α → Prop} {R : β → Prop}

theorem pure {a : α} : Climbs (Pure.pure a) P := by
  intro s b t h _
  cases h
  exact ⟨List.prefix_refl _, rfl⟩

theorem bind (h : Climbs m P) (hp : ∀ a s b t, k a s = .ok (b, t) → R b → P a)
    (hk : ∀ a, P a → Climbs (k a) R) : Climbs (m >>= k) R := by
  intro s b t hrun hb
  obtain ⟨a, s₁, hm, hrun⟩ := bind_eq_ok_iff.mp hrun
  have ha := hp a s₁ b t hrun hb
  obtain ⟨hpre, hforced⟩ := h hm ha
  obtain ⟨hpre₁, hforced₁⟩ := hk a ha hrun hb
  exact ⟨hpre.trans hpre₁, hforced₁.trans hforced⟩

theorem next (h : Climbs m fun _ => True) (hk : ∀ a, Climbs (k a) R) : Climbs (m >>= k) R :=
  h.bind (fun _ _ _ _ _ _ => trivial) fun a _ => hk a

theorem ite {p : Prop} [Decidable p] (h : Climbs m P) (h₁ : Climbs m₁ P) :
    Climbs (if p then m else m₁) P := by
  split
  · exact h
  · exact h₁

theorem of_keeps (hs : Keeps (·.trail.stack) m) (hf : Keeps (·.trail.forced) m) : Climbs m P := by
  intro s a t hrun _
  have hstack : t.trail.stack = s.trail.stack := hs hrun
  rw [Trail.falsified, Trail.falsified, hstack]
  exact ⟨List.prefix_refl _, hf hrun⟩

theorem ask (f : State → Except Fault α) : Climbs (CheckM.ask f) P := of_keeps (.ask f) (.ask f)

theorem emit (e : Event) {P : Unit → Prop} : Climbs (CheckM.emit e) P :=
  of_keeps (.emit e) (.emit e)

theorem count (f : Counters → Counters) {P : Unit → Prop} : Climbs (CheckM.count f) P :=
  of_keeps (.count f) (.count f)

/-- What becomes true comes after what was true. -/
theorem assign (l : Literal) (c : Option Handle) {P : Unit → Prop} :
    Climbs (CheckM.onTrail (·.assign l c)) P := by
  have hforced : Keeps (·.trail.forced) (CheckM.onTrail (·.assign l c)) :=
    .onTrail_of_ok fun _ _ => Trail.forced_assign
  intro s a t h _
  rw [Trail.falsified, Trail.falsified, stack_of_assign h, Array.toList_push]
  exact ⟨List.prefix_append _ _, hforced h⟩

end Climbs

theorem aloof_forced : Aloof fun s => s.trail.forced where
  arena _ _ := rfl
  watches _ _ := rfl
  resolved _ := rfl
  mark _ := .onTrail_of_ok fun _ _ => Trail.forced_mark

theorem climbs_needReason {P : Unit → Prop} (l : Literal) : Climbs (needReason l) P :=
  .of_keeps (aloof_stack.needReason l) (aloof_forced.needReason l)

end Climbing

section Tracing

theorem onTrail_of_ok {f : Trail → Except Fault Trail} {u : Trail} (h : f s.trail = .ok u) :
    onTrail f s = .ok ((), { s with trail := u }) := by
  simp only [onTrail, h]

/-- A literal that only the second run has is never marked, so nothing is needed for it. -/
theorem Mirrored.needReason_foreign (h : Mirrored g s s') (hl : l ∈ s'.trail.falsified)
    (ho : g.own l = false) : needReason l s' = .ok ((), s') := by
  classical
  have hmarked : s'.trail.isMarked l = .ok false := by
    rw [h.trail.wf'.isMarked (h.trail.wf'.small l hl), decide_eq_false (h.trail.unmarked l ho)]
  have hask : ask (markedReason l) s' = .ok (none, s') := by
    refine ask_of_ok ?_
    simp only [markedReason, hmarked, bind, Except.bind]
    rfl
  rw [needReason, bind_of_ok hask]
  rfl

variable {forced forced' i i' : Nat} {l : Literal} {Q : Unit → State → Unit → State → Prop}

/-- Below the places `i` and `i'` the walks down the trail correspond, from all states that have at
least the trail of `s` and `s'` and as much of it fixed. -/
def Descends (g : Image) (forced forced' i i' : Nat) (s s' : State)
    (Q : Unit → State → Unit → State → Prop) : Prop :=
  ∀ ⦃u u'⦄, Mirrored g u u' → u.trail.forced = s.trail.forced →
    s'.trail.falsified <+: u'.trail.falsified → u'.trail.forced = s'.trail.forced →
    Corresponds g.comparison (traceFrom forced i) (traceFrom forced' i') u u' Q

/-- At a literal of both runs the same clause is needed, and the literal stays in both or in none. -/
theorem Descends.traceFrom_own (hrest : Descends g forced forced' i i' s s' Q)
    (h : Mirrored g s s') (hlegal : g.legal l) (hl : s.trail.falsified[i]? = some l)
    (hl' : s'.trail.falsified[i']? = some (g.lit l)) (hfix : i' < forced' ↔ i < forced) :
    Corresponds g.comparison (traceFrom forced (i + 1)) (traceFrom forced' (i' + 1)) s s' Q := by
  have hask := ask_of_ok (f := (·.trail.literalAt i)) (Trail.literalAt_eq_ok hl)
  have hask' := ask_of_ok (f := (·.trail.literalAt i')) (Trail.literalAt_eq_ok hl')
  rw [traceFrom, traceFrom]
  refine corresponds_right_ok hask' (corresponds_left_ok hask ?_)
  refine (parallel_needReason hlegal h).run.bind ?_
  rintro _ s₁ _ s₁' ⟨hrun, hrun', -, h₁⟩
  obtain ⟨hpre, hforced⟩ := climbs_needReason (P := fun _ => True) l hrun trivial
  obtain ⟨hpre', hforced'⟩ := climbs_needReason (P := fun _ => True) _ hrun' trivial
  by_cases hlt : i < forced
  · simp only [if_pos hlt, if_pos (hfix.mpr hlt)]
    have hmem : l ∈ s₁.trail.falsified := hpre.subset (List.mem_of_getElem? hl)
    obtain ⟨u, u', hu, hu', hmirror⟩ :=
      h₁.trail.setStatus hmem (by simp : Status.falsified ≠ .unset)
    refine corresponds_left_ok (onTrail_of_ok hu) ?_
    refine corresponds_right_ok (onTrail_of_ok hu') ?_
    refine hrest { h₁ with trail := hmirror } ((Trail.forced_setStatus hu).trans hforced) ?_
      ((Trail.forced_setStatus hu').trans hforced')
    rwa [Trail.falsified, Trail.falsified, Trail.stack_setStatus hu']
  · simp only [if_neg hlt, if_neg (mt hfix.mp hlt)]
    exact hrest h₁ hforced hpre' hforced'

/-- At a literal of its own the second run needs nothing. -/
theorem Descends.traceFrom_foreign (hrest : Descends g forced forced' i i' s s' Q)
    (h : Mirrored g s s') (hl' : s'.trail.falsified[i']? = some l) (ho : g.own l = false) :
    Corresponds g.comparison (traceFrom forced i) (traceFrom forced' (i' + 1)) s s' Q := by
  have hmem := List.mem_of_getElem? hl'
  have hask' := ask_of_ok (f := (·.trail.literalAt i')) (Trail.literalAt_eq_ok hl')
  rw [traceFrom]
  refine corresponds_right_ok hask' ?_
  refine corresponds_right_ok (h.needReason_foreign hmem ho) ?_
  by_cases hlt : i' < forced'
  · simp only [if_pos hlt]
    obtain ⟨u', hu', hmirror⟩ := h.trail.setStatus_foreign hmem ho
    refine corresponds_right_ok (onTrail_of_ok hu') ?_
    refine hrest { h with trail := hmirror } rfl ?_ (Trail.forced_setStatus hu')
    rw [Trail.falsified, Trail.falsified, Trail.stack_setStatus hu']
  · simp only [if_neg hlt]
    exact hrest h rfl (List.prefix_refl _) rfl

/-- Both runs walk down the trail; the second one passes literals of its own. -/
theorem Mirrored.traceFrom (h : Mirrored g s s') {n n' : Nat}
    (hf : g.Level s'.trail forced forced') (hn : g.Level s'.trail n n') :
    Corresponds g.comparison (traceFrom forced n) (traceFrom forced' n') s s' fun _ t _ t' =>
      Mirrored g t t' ∧ t.trail.forced = s.trail.forced ∧
        t'.trail.forced = s'.trail.forced := by
  -- The steps of the second run are counted, since the first one rests at some of them.
  induction n' generalizing n s s' with
  | zero =>
    obtain rfl : n = 0 := by rw [hn.rank]; rfl
    exact ⟨h, rfl, rfl⟩
  | succ n' ih =>
    have hlt : n' < s'.trail.falsified.length := by
      rw [Trail.length_falsified]
      exact hn.le
    have hl' := List.getElem?_eq_getElem hlt
    generalize s'.trail.falsified[n'] = l' at hl'
    have hlevel : g.Level s'.trail (g.rank s'.trail n') n' := ⟨rfl, Nat.le_of_lt hn.le⟩
    have hrest : Descends g forced forced' (g.rank s'.trail n') n' s s' fun _ t _ t' =>
        Mirrored g t t' ∧ t.trail.forced = s.trail.forced ∧
          t'.trail.forced = s'.trail.forced := by
      intro u u' hu hfu hpre hfu'
      refine (ih hu (hf.extend hpre) (hlevel.extend hpre)).mono ?_
      rintro _ t _ t' ⟨ht, hft, hft'⟩
      exact ⟨ht, hft.trans hfu, hft'.trans hfu'⟩
    have hnext := (hlevel.next hl').rank
    rw [← hn.rank] at hnext
    cases ho : g.own l' with
    | true =>
      obtain ⟨l, hl, hlegal, rfl⟩ := h.trail.exists_own hlevel hl' ho
      rw [if_pos ho] at hnext
      rw [← hnext]
      exact hrest.traceFrom_own h hlegal hl hl' (hlevel.lt_iff hf hl' ho)
    | false =>
      rw [if_neg (by simp [ho])] at hnext
      rw [← hnext]
      exact hrest.traceFrom_foreign h hl' ho

theorem Mirrored.backtrack (h : Mirrored g s s') :
    Corresponds g.comparison (backtrack s.trail.forced) (backtrack s'.trail.forced) s s'
      fun _ t _ t' => Mirrored g t t' := by
  obtain ⟨u, u', hu, hu', hmirror⟩ := h.trail.truncate
  refine corresponds_left_ok (onTrail_of_ok hu) ?_
  refine corresponds_right_ok (onTrail_of_ok hu') ?_
  exact { h with trail := hmirror }

theorem parallel_traceReasons : Parallel g traceReasons traceReasons fun _ _ => True := by
  intro s s' h
  refine corresponds_left_ok rfl (corresponds_right_ok rfl ?_)
  refine corresponds_left_ok rfl (corresponds_right_ok rfl ?_)
  refine (h.traceFrom h.trail.forced h.trail.top).bind ?_
  rintro _ t _ t' ⟨ht, hf, hf'⟩
  show Corresponds g.comparison (backtrack s.trail.forced) (backtrack s'.trail.forced) t t' _
  rw [← hf, ← hf']
  exact ht.backtrack.mono fun _ _ _ _ hu => ⟨trivial, hu⟩

theorem parallel_explain (hc : g.size c = some n) :
    Parallel g (explain c) (explain (g.handle c)) fun _ _ => True :=
  (parallel_need hc (Nat.zero_le n)).bind fun _ _ _ => parallel_traceReasons

end Tracing

end Engine

end UnsatCore
