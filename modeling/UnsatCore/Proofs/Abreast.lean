import UnsatCore.Proofs.Framing
import UnsatCore.Proofs.Saturation
import UnsatCore.Proofs.Twin
import Mathlib.Data.Nat.Count

/-! Twin states, which two runs are in that have some clauses and lines in common, and the parts of
the engine that do the same in both: attaching, explaining a conflict, and unit propagation. -/
namespace UnsatCore

/-- Which counters are compared. -/
inductive Scope
  | all
  /-- Not the deletions. -/
  | lemmas
  /-- Only what the two passes count. -/
  | work
deriving DecidableEq

/-- The counters in a scope. The other ones count as 0. -/
def Counters.within : Scope → Counters → Counters
  | .all, n => n
  | .lemmas, n => { n with deletions := 0, ignoredDeletions := 0 }
  | .work, n => { n with lemmas := 0, deletions := 0, ignoredDeletions := 0 }

namespace Engine

open CheckM

/-- What two runs have in common. -/
structure Bond where
  /-- The largest variable of the clauses in common. -/
  bound : Nat
  /-- The number of literals of each clause in common. -/
  size : Handle → Option Nat
  /-- Which lines of the second run the first one has as well. The other ones are passed over. -/
  kept : Nat → Bool
  /-- How many lines of the second run are compared. -/
  lines : Nat
  scope : Scope
  /-- Whether all clauses are in common, so that both give the same handle to the next one. -/
  exact : Prop
  /-- Whether neither run has any other lines. -/
  whole : Prop

namespace Bond

/-- A clause in common of at least `n` literals. -/
def AtLeast (k : Bond) (n : Nat) (c : Handle) : Prop := ∃ m, k.size c = some m ∧ n ≤ m

/-- A literal that a clause in common may have. -/
def Legal (k : Bond) (l : Literal) : Prop := l.var.index ≤ k.bound ∧ l.val ≠ 0

/-- The number that a line of the second run has in the first one. -/
def rank (k : Bond) (j : Nat) : Nat := Nat.count (fun i => k.kept i = true) j

def Knows (k : Bond) : Step → Prop
  | .add c | .delete c | .satisfied c => k.AtLeast 0 c
  | .ignored => True

/-- The lines of two runs: those in common, and deletions that are not carried out. -/
def Aligned (k : Bond) (steps steps' : Array Step) : Prop :=
  ∀ j < k.lines, if k.kept j then
      ∃ step, steps[k.rank j]? = some step ∧ steps'[j]? = some step ∧ k.Knows step
    else steps'[j]? = some .ignored

end Bond

/-- All clauses are in common, those that deletions can name included. -/
structure Shared (H : Handle → Prop) (a a' : Arena) (t t' : ClauseIndex) : Prop where
  arena : a' = a
  index : t' = t
  listed : ∀ key, ∀ h ∈ t.buckets.getD key #[], H h

/-- Twin states hold the same of what is in common. -/
structure Twin (k : Bond) (s s' : State) : Prop where
  trail : Trail.Twin k.bound (k.AtLeast 1) s.trail s'.trail
  watches : WatchTable.Twin k.bound (k.AtLeast 2) s.watches s'.watches
  arena : Arena.Twin k.bound k.size s.arena s'.arena
  origins : s'.origins = s.origins
  known : ∀ c ∈ s.origins.toList, k.AtLeast 0 c
  steps : k.Aligned s.steps s'.steps
  counters : s'.counters.within k.scope = s.counters.within k.scope
  exact : k.exact → Shared (k.AtLeast 0) s.arena s'.arena s.index s'.index
  whole : k.whole → s.steps.size = k.rank k.lines ∧ s'.steps.size = k.lines

/-- From twin states `m` gives the same value, which is in `P`, and twin states again. -/
def Steady {α : Type} (k : Bond) (E : Rejection → Rejection → Prop) (m : CheckM α)
    (P : α → Prop) : Prop :=
  Paired (Twin k) E m m fun a a' => a' = a ∧ P a

variable {α β : Type} {k : Bond} {E : Rejection → Rejection → Prop} {m : CheckM α}
  {g : α → CheckM β} {P Q : α → Prop} {R : β → Prop} {s s' t t' : State} {c : Handle}
  {n i j : Nat} {l : Literal} {ls : Clause}

namespace Steady

theorem bind (h : Steady k E m P) (hg : ∀ a, P a → Steady k E (g a) R) :
    Steady k E (m >>= g) R := by
  refine Paired.bind h ?_
  rintro a a' ⟨rfl, ha⟩
  exact hg a' ha

theorem pure {a : α} (h : P a) : Steady k E (Pure.pure a) P := Paired.pure ⟨rfl, h⟩

theorem fault (e : Fault) : Steady k E (CheckM.fault e : CheckM α) P := Paired.fault e

theorem ite {p : Prop} [Decidable p] {m' : CheckM α} (h : p → Steady k E m P)
    (h' : ¬ p → Steady k E m' P) : Steady k E (if p then m else m') P := Paired.ite h h'

theorem ask {f : State → Except Fault α} (he : ∀ s s', Twin k s s' → f s' = f s)
    (hp : ∀ s s', Twin k s s' → ∀ a, f s = .ok a → P a) : Steady k E (CheckM.ask f) P :=
  Paired.ask he hp

theorem look {f : State → α} (he : ∀ s s', Twin k s s' → f s' = f s) :
    Steady k E (CheckM.look f) fun _ => True :=
  Paired.look fun s s' h => ⟨he s s' h, trivial⟩

theorem emit (e : Event) : Steady k E (CheckM.emit e) fun _ => True :=
  fun _ _ h => ⟨⟨rfl, trivial⟩, { h with }⟩

/-- What is counted does not depend on the counters out of scope. -/
theorem count {f : Counters → Counters}
    (hf : ∀ v (n : Counters), (f n).within v = (f (n.within v)).within v) :
    Steady k E (CheckM.count f) fun _ => True := by
  intro s s' h
  refine ⟨⟨rfl, trivial⟩, { h with counters := ?_ }⟩
  rw [hf, hf _ s.counters, h.counters]

theorem onTrail {f : Trail → Except Fault Trail}
    (hf : ∀ t t', Trail.Twin k.bound (k.AtLeast 1) t t' →
      Both (f t) (f t') (Trail.Twin k.bound (k.AtLeast 1))) :
    Steady k E (CheckM.onTrail f) fun _ => True := by
  intro s s' h
  rw [together_onTrail]
  exact (hf _ _ h.trail).mono fun t t' ht => ⟨⟨rfl, trivial⟩, { h with trail := ht }⟩

theorem onWatches {f : WatchTable → Except Fault WatchTable}
    (hf : ∀ t t', WatchTable.Twin k.bound (k.AtLeast 2) t t' →
      Both (f t) (f t') (WatchTable.Twin k.bound (k.AtLeast 2))) :
    Steady k E (CheckM.onWatches f) fun _ => True := by
  intro s s' h
  rw [together_onWatches]
  exact (hf _ _ h.watches).mono fun t t' ht => ⟨⟨rfl, trivial⟩, { h with watches := ht }⟩

theorem swap (hc : k.size c = some n) (hi : i < n) (hj : j < n) :
    Steady k E (onArena (·.swap c i j)) fun _ => True := by
  intro s s' h
  rw [together_onArena]
  have hswap := h.arena.swap hc hi hj
  rcases hswap.cases with ⟨a, a', ha, ha', htwin⟩ | ⟨e, he, he'⟩
  · rw [ha, ha']
    refine ⟨⟨rfl, trivial⟩,
      { h with arena := htwin, exact := fun hx => { h.exact hx with arena := ?_ } }⟩
    rw [(h.exact hx).arena, ha] at ha'
    exact (Except.ok.inj ha').symm
  · rw [he, he']
    rfl

theorem markCore (hc : k.size c = some n) :
    Steady k E (CheckM.markCore c) fun _ => True := by
  intro s s' h
  rw [together_markCore]
  rcases (h.arena.markCore hc).cases with ⟨r, r', hr, hr', hfresh, htwin⟩ | ⟨e, he, he'⟩
  · rw [hr, hr']
    refine ⟨⟨hfresh, trivial⟩,
      { h with arena := htwin, exact := fun hx => { h.exact hx with arena := ?_ } }⟩
    rw [(h.exact hx).arena, hr] at hr'
    exact congrArg Prod.snd (Except.ok.inj hr').symm
  · rw [he, he']
    rfl

end Steady

/-- The literals of the trail stay where they are. -/
abbrev Unmoved (m : CheckM α) : Prop := Keeps (fun s => s.trail.stack) m

theorem Unmoved.ask (f : State → Except Fault α) : Unmoved (CheckM.ask f) := Keeps.ask f

theorem aloof_stack : Aloof fun s => s.trail.stack where
  arena _ _ := rfl
  watches _ _ := rfl
  resolved _ := rfl
  mark _ := .onTrail_of_ok fun _ _ => Trail.stack_mark

section Attachment

theorem steady_isFalseNow (hl : l.var.index ≤ k.bound) :
    Steady k E (isFalseNow l) fun _ => True :=
  Steady.ask (fun _ _ h => h.trail.isFalse hl) fun _ _ _ _ _ => trivial

theorem steady_isTrueNow (hl : l.var.index ≤ k.bound) :
    Steady k E (isTrueNow l) fun _ => True :=
  Steady.ask (fun _ _ h => h.trail.isTrue hl) fun _ _ _ _ _ => trivial

theorem Twin.legal (h : Twin k s s') (hc : k.size c = some n) (hl : l ∈ s.arena.literals c) :
    k.Legal l :=
  ⟨(h.arena.common c n hc).small l hl, (h.arena.common c n hc).has.zeroFree l hl⟩

theorem steady_literalOf (hc : k.size c = some n) (hi : i < n) :
    Steady k E (literalOf c i) k.Legal :=
  Steady.ask (fun _ _ h => (h.arena.common c n hc).literal (Nat.le_of_lt hi))
    fun _ _ h _ hl => h.legal hc ((h.arena.common c n hc).mem_of_literal hi hl)

/-- The first word of a clause is a literal, or 0 if the clause is empty. -/
theorem Twin.legal_of_first (h : Twin k s s') (hc : k.size c = some n)
    (hl : s.arena.literal c 0 = .ok l) (hz : l.isZero = false) : k.Legal l ∧ 0 < n := by
  have hcom := h.arena.common c n hc
  rcases Nat.eq_zero_or_pos n with rfl | hpos
  · have hend := hcom.has.literal_end
    rw [hcom.length, hl] at hend
    cases hend
    simp [Literal.isZero] at hz
  · exact ⟨h.legal hc (hcom.mem_of_literal hpos hl), hpos⟩

theorem steady_literalOf_zero (hc : k.size c = some n) :
    Steady k E (literalOf c 0) fun l => l.isZero = false → k.Legal l ∧ 0 < n :=
  Steady.ask (fun _ _ h => (h.arena.common c n hc).literal (Nat.zero_le n))
    fun _ _ h _ hl => h.legal_of_first hc hl

theorem steady_bodyOf (hc : k.size c = some n) (hi : i ≤ n) :
    Steady k E (bodyOf c i) fun ls => ls.length = n - i ∧ ∀ l ∈ ls, k.Legal l := by
  refine Steady.ask (fun _ _ h => (h.arena.common c n hc).body hi) ?_
  intro s s' h ls hls
  have hcom := h.arena.common c n hc
  rw [hcom.has.body (by rwa [hcom.length]), Except.ok.injEq] at hls
  rw [← hls]
  exact ⟨by rw [List.length_drop, hcom.length], fun l hl => h.legal hc (List.mem_of_mem_drop hl)⟩

theorem steady_watchable (hc : k.size c = some n) :
    Steady k E (watchable c) fun b => b = decide (2 ≤ n) := by
  refine Steady.ask (fun _ _ h => (h.arena.common c n hc).isWatchable) ?_
  intro s s' h b hb
  rw [(h.arena.common c n hc).has.isWatchable, (h.arena.common c n hc).length,
    Except.ok.injEq] at hb
  exact hb.symm

theorem steady_isCore (hc : k.size c = some n) :
    Steady k E (ask (·.arena.isCore c)) fun _ => True :=
  Steady.ask (fun _ _ h => (h.arena.common c n hc).isCore) fun _ _ _ _ _ => trivial

theorem steady_requireWatchable (hc : k.size c = some n) :
    Steady k E (requireWatchable c) fun _ => 2 ≤ n := by
  refine (steady_watchable hc).bind fun b hb => Steady.ite (fun ht => ?_) fun _ => .fault _
  exact .pure (by simpa [hb] using ht)

theorem steady_attach (hc : k.size c = some n) : Steady k E (attach c) fun _ => True := by
  refine (steady_requireWatchable hc).bind fun _ hn => ?_
  refine (steady_isCore hc).bind fun core _ => ?_
  refine (steady_literalOf hc (by omega)).bind fun first hf => ?_
  refine (Steady.onWatches fun _ _ h => h.insert hf.1 ⟨n, hc, hn⟩).bind fun _ _ => ?_
  refine (steady_literalOf hc (by omega)).bind fun second hs => ?_
  exact Steady.onWatches fun _ _ h => h.insert hs.1 ⟨n, hc, hn⟩

theorem steady_detach (hc : k.size c = some n) : Steady k E (detach c) fun _ => True := by
  refine (steady_requireWatchable hc).bind fun _ hn => ?_
  refine (steady_literalOf hc (by omega)).bind fun first hf => ?_
  refine (Steady.onWatches fun _ _ h => h.remove hf.1 c).bind fun _ _ => ?_
  refine (steady_literalOf hc (by omega)).bind fun second hs => ?_
  exact Steady.onWatches fun _ _ h => h.remove hs.1 c

theorem steady_sortFrom (hc : k.size c = some n) (hlen : i + ls.length = n)
    (hls : ∀ l ∈ ls, k.Legal l) {view : View} (hv : view.size ≤ i) :
    Steady k E (sortFrom c ls i view) fun v => v.size ≤ n := by
  induction ls generalizing i view with
  | nil => exact .pure (by rw [List.length_nil] at hlen; omega)
  | cons l ls ih =>
    rw [List.length_cons] at hlen
    have hl := (hls l List.mem_cons_self).1
    have hrest : ∀ l ∈ ls, k.Legal l := fun m hm => hls m (List.mem_cons_of_mem l hm)
    refine (steady_isFalseNow hl).bind fun b _ => Steady.ite (fun _ => ?_) fun _ => ?_
    · exact ih (by omega) hrest (by omega)
    · refine (steady_isTrueNow hl).bind fun holds _ => ?_
      refine (Steady.swap hc (by omega) (by omega)).bind fun _ _ => ?_
      exact ih (by omega) hrest (Nat.succ_le_succ hv)

theorem steady_sortUnfalsified (hc : k.size c = some n) :
    Steady k E (sortUnfalsified c) fun v => v.size ≤ n :=
  (steady_bodyOf hc (Nat.zero_le n)).bind fun _ hls =>
    steady_sortFrom hc (by omega) hls.2 (Nat.le_refl 0)

end Attachment

section Dependency

theorem steady_markLiterals (hls : ∀ l ∈ ls, k.Legal l) :
    Steady k E (markLiterals ls) fun _ => True := by
  induction ls with
  | nil => exact .pure trivial
  | cons l ls ih =>
    refine (Steady.onTrail fun _ _ h => h.mark (hls l List.mem_cons_self).1).bind fun _ _ => ?_
    exact ih fun m hm => hls m (List.mem_cons_of_mem l hm)

theorem steady_markWatchers (hc : k.size c = some n) (hn : 2 ≤ n) :
    Steady k E (markWatchers c) fun _ => True := by
  refine (steady_literalOf hc (by omega)).bind fun first hf => ?_
  refine (Steady.onWatches fun _ _ h => h.mark hf.1 c).bind fun _ _ => ?_
  refine (steady_literalOf hc (by omega)).bind fun second hs => ?_
  exact Steady.onWatches fun _ _ h => h.mark hs.1 c

theorem steady_enterCore (hc : k.size c = some n) :
    Steady k E (enterCore c) fun _ => True := by
  refine (Steady.markCore hc).bind fun fresh _ => Steady.ite (fun _ => ?_) fun _ => .pure trivial
  refine (steady_watchable hc).bind fun b hb => Steady.ite (fun ht => ?_) fun _ => .pure trivial
  exact steady_markWatchers hc (by simpa [hb] using ht)

theorem steady_need (hc : k.size c = some n) (hi : i ≤ n) :
    Steady k E (need c i) fun _ => True := by
  refine (Steady.count fun v _ => by cases v <;> rfl).bind fun _ _ => ?_
  refine (steady_enterCore hc).bind fun _ _ => ?_
  exact (steady_bodyOf hc hi).bind fun _ hls => steady_markLiterals hls.2

theorem Twin.markedReason (h : Twin k s s') (hl : l.var.index ≤ k.bound) :
    markedReason l s' = markedReason l s := by
  simp only [Engine.markedReason, h.trail.isMarked hl, h.trail.reasonOf hl]

theorem steady_needReason (hl : l.var.index ≤ k.bound) :
    Steady k E (needReason l) fun _ => True := by
  refine (Steady.ask (P := fun r => ∀ c, r = some c → k.AtLeast 1 c)
    (fun _ _ h => h.markedReason hl) ?_).bind fun r hr => ?_
  · rintro s s' h r hr c rfl
    simp only [markedReason, bind, Except.bind, pure, Except.pure] at hr
    split at hr
    · cases hr
    · split at hr
      · exact h.trail.of_reasonOf hl hr
      · cases hr
  · cases r with
    | none => exact .pure trivial
    | some c =>
      obtain ⟨n, hc, hn⟩ := hr c rfl
      exact steady_need hc hn

theorem unmoved_needReason (l : Literal) : Unmoved (needReason l) := aloof_stack.needReason l

theorem Twin.together_traceFrom (h : Twin k s s') (forced n : Nat) :
    Together E (traceFrom forced n) (traceFrom forced n) s s' fun _ t _ t' => Twin k t t' := by
  induction n generalizing s s' with
  | zero => exact h
  | succ n ih =>
    refine Together.bind (P := fun l t l' t' => l' = l ∧ l ∈ t.trail.falsified ∧ Twin k t t') ?_ ?_
    · rw [together_ask, h.trail.literalAt n]
      exact both_self fun l hl => ⟨rfl, Trail.mem_of_literalAt hl, h⟩
    rintro _ s₁ l s₁' ⟨rfl, hl, h₁⟩
    refine (steady_needReason (h₁.trail.small l hl) h₁).run.bind ?_
    rintro _ s₂ _ s₂' ⟨hrun, -, -, h₂⟩
    -- The literal is still on the trail, so that its mark can be taken away.
    have hl₂ : l ∈ s₂.trail.falsified := by
      rw [Trail.falsified, unmoved_needReason l hrun]
      exact hl
    by_cases hf : n < forced
    · simp only [if_pos hf]
      refine Together.bind (P := fun _ t _ t' => Twin k t t') ?_ fun _ _ _ _ h₃ => ih h₃
      rw [together_onTrail]
      exact (h₂.trail.setStatus hl₂ (by simp)).mono fun u u' hu => { h₂ with trail := hu }
    · simp only [if_neg hf]
      exact ih h₂

theorem steady_backtrack (forced : Nat) : Steady k E (backtrack forced) fun _ => True := by
  refine (Steady.onTrail fun _ _ h => h.truncate forced).bind fun _ _ => ?_
  exact Steady.onTrail fun t t' h => by
    rw [both_ok, h.forced]
    exact h.bounds forced t.forced

theorem steady_traceReasons : Steady k E traceReasons fun _ => True := by
  refine (Steady.look fun _ _ h => h.trail.forced).bind fun forced _ => ?_
  refine (Steady.look fun _ _ h => h.trail.assigned).bind fun n _ => ?_
  refine Steady.bind (P := fun _ => True) (fun s s' h => ?_) fun _ _ => steady_backtrack forced
  exact (h.together_traceFrom forced n).mono fun _ _ _ _ ht => ⟨⟨rfl, trivial⟩, ht⟩

theorem steady_explain (hc : k.size c = some n) : Steady k E (explain c) fun _ => True :=
  (steady_need hc (Nat.zero_le n)).bind fun _ _ => steady_traceReasons

end Dependency

section Propagation

theorem Twin.eitherTrue {x y : Literal} (h : Twin k s s') (hx : k.Legal x) (hy : k.Legal y) :
    eitherTrue x y s' = eitherTrue x y s := by
  simp only [Engine.eitherTrue, h.trail.isTrue hx.1, h.trail.isTrue hy.1]

theorem steady_bringBack (hc : k.size c = some n) (hn : 2 ≤ n) (l first : Literal) :
    Steady k E (bringBack l c first) fun _ => True := by
  have hcheck : Steady k E (literalOf c 1 >>= fun x =>
      if x = l then pure () else fault (.misplacedWatch c l)) fun _ => True :=
    (steady_literalOf hc hn).bind fun _ _ => .ite (fun _ => .pure trivial) fun _ => .fault _
  refine Steady.ite (fun _ => ?_) fun _ => hcheck
  exact (Steady.swap hc (by omega) (by omega)).bind fun _ _ => hcheck

theorem firstUnfalsified_twin {H : Handle → Prop} {u u' : Trail}
    (h : Trail.Twin k.bound H u u') (hls : ∀ l ∈ ls, k.Legal l) (i : Nat) :
    firstUnfalsified u' ls i = firstUnfalsified u ls i := by
  induction ls generalizing i with
  | nil => rfl
  | cons l ls ih =>
    rw [firstUnfalsified, firstUnfalsified, h.isFalse (hls l List.mem_cons_self).1,
      ih fun m hm => hls m (List.mem_cons_of_mem l hm)]

theorem mem_of_firstUnfalsified {u : Trail} {x : Literal}
    (h : firstUnfalsified u ls i = .ok (some (j, x))) : x ∈ ls ∧ j < i + ls.length := by
  induction ls generalizing i with
  | nil => cases h
  | cons l ls ih =>
    rw [firstUnfalsified] at h
    split at h
    · cases h
      exact ⟨List.mem_cons_self, by simp⟩
    · obtain ⟨hx, hj⟩ := ih h
      exact ⟨List.mem_cons_of_mem l hx, by rw [List.length_cons]; omega⟩
    · cases h

theorem steady_replacement (hc : k.size c = some n) (hn : 2 ≤ n) :
    Steady k E (ask (replacement c)) fun r => ∀ j x, r = some (j, x) → k.Legal x ∧ j < n := by
  have hbody : ∀ s s', Twin k s s' → s.arena.body c 2 = .ok ((s.arena.literals c).drop 2) :=
    fun s s' h => (h.arena.common c n hc).has.body (by rwa [(h.arena.common c n hc).length])
  refine Steady.ask (fun s s' h => ?_) ?_
  · simp only [replacement, (h.arena.common c n hc).body hn, hbody s s' h, bind, Except.bind]
    exact firstUnfalsified_twin h.trail (fun l hl => h.legal hc (List.mem_of_mem_drop hl)) 2
  · rintro s s' h r hr j x rfl
    simp only [replacement, hbody s s' h, bind, Except.bind] at hr
    obtain ⟨hx, hj⟩ := mem_of_firstUnfalsified hr
    rw [List.length_drop, (h.arena.common c n hc).length] at hj
    exact ⟨h.legal hc (List.mem_of_mem_drop hx), by omega⟩

theorem steady_moveWatcher {x : Literal} (hl : l.var.index ≤ k.bound) (hc : k.size c = some n)
    (hn : 2 ≤ n) (hj : j < n) (hx : k.Legal x) :
    Steady k E (moveWatcher l i c j x) fun _ => True := by
  refine (Steady.swap hc (by omega) hj).bind fun _ _ => ?_
  refine (Steady.ask (P := fun w => k.AtLeast 2 w.clause) (fun _ _ h => h.watches.watcher hl i)
    fun _ _ h _ hw => h.watches.of_watcher hl hw).bind fun w hw => ?_
  refine (Steady.onWatches fun _ _ h => h.removeAt hl i).bind fun _ _ => ?_
  exact Steady.onWatches fun _ _ h => h.insert hx.1 hw

theorem steady_deriveFirst (hc : k.size c = some n) (hn : 2 ≤ n) (l : Literal) :
    Steady k E (deriveFirst l c) fun _ => True := by
  refine (steady_literalOf hc (by omega)).bind fun unit hu => ?_
  refine (steady_isFalseNow hu.1).bind fun b _ => Steady.ite (fun _ => ?_) fun _ => ?_
  · refine (Steady.emit _).bind fun _ _ => ?_
    exact (steady_explain hc).bind fun _ _ => .pure trivial
  · refine (Steady.emit _).bind fun _ _ => ?_
    refine (Steady.onTrail fun _ _ h => h.assign hu.1 hu.2 ?_).bind fun _ _ => ?_
    · rintro d ⟨⟩
      exact ⟨n, hc, by omega⟩
    exact (Steady.count fun v _ => by cases v <;> rfl).bind fun _ _ => .pure trivial

theorem steady_visit (hl : l.var.index ≤ k.bound) (hc : k.size c = some n) (hn : 2 ≤ n) :
    Steady k E (visit l i c) fun _ => True := by
  refine (steady_literalOf hc (by omega)).bind fun first hf => ?_
  refine (steady_literalOf hc (by omega)).bind fun second hs => ?_
  refine (Steady.ask (P := fun _ => True) (fun _ _ h => h.eitherTrue hf hs)
    fun _ _ _ _ _ => trivial).bind fun b _ => ?_
  refine Steady.ite (fun _ => .pure trivial) fun _ => ?_
  refine (steady_bringBack hc hn l first).bind fun _ _ => ?_
  refine (steady_replacement hc hn).bind fun r hr => ?_
  match r with
  | none => exact steady_deriveFirst hc hn l
  | some (j, x) =>
    obtain ⟨hx, hj⟩ := hr j x rfl
    exact (steady_moveWatcher hl hc hn hj hx).bind fun _ _ => .pure trivial

theorem steady_sweepFrom (pass : Pass) (hl : l.var.index ≤ k.bound) (n i : Nat) :
    Steady k E (sweepFrom pass l n i) fun _ => True := by
  induction n generalizing i with
  | zero => exact .pure trivial
  | succ n ih =>
    refine (Steady.ask (P := fun w => k.AtLeast 2 w.clause) (fun _ _ h => h.watches.watcher hl i)
      fun _ _ h _ hw => h.watches.of_watcher hl hw).bind fun w hw => ?_
    obtain ⟨size, hc, hn⟩ := hw
    refine Steady.ite (fun _ => ?_) fun _ => ih (i + 1)
    refine (steady_visit hl hc hn).bind fun v _ => ?_
    cases v with
    | kept => exact ih (i + 1)
    | moved => exact ih i
    | derived => exact .ite (fun _ => .pure trivial) fun _ => ih (i + 1)
    | conflict => exact .pure trivial

theorem steady_sweep (pass : Pass) (hl : l.var.index ≤ k.bound) (i : Nat) :
    Steady k E (sweep pass l i) fun _ => True := by
  refine (Steady.ask (P := fun _ => True) (fun _ _ h => h.watches.length hl)
    fun _ _ _ _ _ => trivial).bind fun size _ => ?_
  exact steady_sweepFrom pass hl (size - i) i

theorem steady_round (scan : Scan) : Steady k E (round scan) fun _ => True := by
  refine (Steady.look fun _ _ h => h.trail.assigned).bind fun n _ => ?_
  refine Steady.ite (fun _ => ?_) fun _ => ?_
  · refine (Steady.ask (P := fun l => l.var.index ≤ k.bound)
      (fun _ _ h => h.trail.literalAt scan.cursor)
      fun _ _ h l hl => h.trail.small l (Trail.mem_of_literalAt hl)).bind fun l hl => ?_
    refine (steady_sweep scan.pass hl scan.offset).bind fun r _ => ?_
    cases r <;> exact .pure trivial
  · unfold endPass
    cases scan.pass with
    | core => exact .pure trivial
    | rest | all =>
      refine (Steady.onTrail fun t t' h => ?_).bind fun _ _ => .pure trivial
      rw [both_ok, h.assigned, h.forced]
      exact h.bounds t.assigned t.forced

end Propagation

section Rounds

theorem unmoved_bringBack (l : Literal) (c : Handle) (first : Literal) :
    Unmoved (bringBack l c first) := aloof_stack.bringBack l c first

theorem unmoved_moveWatcher (l : Literal) (i : Nat) (c : Handle) (j : Nat) (x : Literal) :
    Unmoved (moveWatcher l i c j x) := aloof_stack.moveWatcher l i c j x

theorem stack_of_assign {x : Literal} {d : Option Handle} {u : Unit}
    (h : onTrail (·.assign x d) s = .ok (u, t)) :
    t.trail.stack = s.trail.stack.push (-x) := by
  unfold onTrail at h
  split at h <;> cases h
  exact Trail.stack_assign ‹_›

theorem assigned_of_deriveFirst {v : Visit} (h : deriveFirst l c s = .ok (v, t)) :
    v = .conflict ∨ v = .derived ∧ t.trail.assigned = s.trail.assigned + 1 := by
  obtain ⟨unit, s₁, h₁, h⟩ := bind_eq_ok_iff.mp h
  obtain ⟨b, s₂, h₂, h⟩ := bind_eq_ok_iff.mp h
  have hstack := (Unmoved.ask _ h₂).trans (Unmoved.ask _ h₁)
  cases b with
  | true =>
    obtain ⟨⟨⟩, s₃, -, h⟩ := bind_eq_ok_iff.mp h
    obtain ⟨⟨⟩, s₄, -, h⟩ := bind_eq_ok_iff.mp h
    cases h
    exact Or.inl rfl
  | false =>
    obtain ⟨⟨⟩, s₃, ⟨⟩, h⟩ := bind_eq_ok_iff.mp h
    obtain ⟨⟨⟩, s₄, h₄, ⟨⟩⟩ := bind_eq_ok_iff.mp h
    have hpush := stack_of_assign h₄
    refine Or.inr ⟨rfl, ?_⟩
    simp only [Trail.assigned, hpush, Array.size_push, hstack]

/-- How many literals a visit puts onto the trail. -/
theorem assigned_of_visit {v : Visit} (h : visit l i c s = .ok (v, t)) :
    v = .conflict ∨ v = .derived ∧ t.trail.assigned = s.trail.assigned + 1 ∨
      (v = .kept ∨ v = .moved) ∧ t.trail.assigned = s.trail.assigned := by
  obtain ⟨first, s₁, h₁, h⟩ := bind_eq_ok_iff.mp h
  obtain ⟨second, s₂, h₂, h⟩ := bind_eq_ok_iff.mp h
  obtain ⟨b, s₃, h₃, h⟩ := bind_eq_ok_iff.mp h
  have hstack := ((Unmoved.ask _ h₃).trans (Unmoved.ask _ h₂)).trans (Unmoved.ask _ h₁)
  cases b with
  | true =>
    cases h
    exact Or.inr (Or.inr ⟨Or.inl rfl, congrArg Array.size hstack⟩)
  | false =>
    obtain ⟨⟨⟩, s₄, h₄, h⟩ := bind_eq_ok_iff.mp h
    obtain ⟨r, s₅, h₅, h⟩ := bind_eq_ok_iff.mp h
    have hstack := ((Unmoved.ask _ h₅).trans (unmoved_bringBack _ _ _ h₄)).trans hstack
    match r with
    | some (j, x) =>
      obtain ⟨⟨⟩, s₆, h₆, h⟩ := bind_eq_ok_iff.mp h
      cases h
      refine Or.inr (Or.inr ⟨Or.inr rfl, congrArg Array.size ?_⟩)
      exact (unmoved_moveWatcher _ _ _ _ _ h₆).trans hstack
    | none =>
      have hsize : s₅.trail.assigned = s.trail.assigned := congrArg Array.size hstack
      rcases assigned_of_deriveFirst h with hv | hv
      · exact Or.inl hv
      · exact Or.inr (Or.inl (by rwa [hsize] at hv))

/-- A sweep without a conflict takes nothing off the trail, and one that pauses puts something
onto it. -/
theorem assigned_of_sweepFrom {pass : Pass} {r : Swept} {n : Nat}
    (h : sweepFrom pass l n i s = .ok (r, t)) :
    r = .conflict ∨ s.trail.assigned ≤ t.trail.assigned ∧
      ∀ next, r = .paused next → pass = .rest ∧ s.trail.assigned < t.trail.assigned := by
  induction n generalizing i s with
  | zero =>
    cases h
    exact Or.inr ⟨Nat.le_refl _, by simp⟩
  | succ n ih =>
    obtain ⟨w, s₁, hw, h⟩ := bind_eq_ok_iff.mp h
    have hs₁ : s₁.trail.assigned = s.trail.assigned := congrArg Array.size (Unmoved.ask _ hw)
    -- What comes after a visit that leaves at least as much on the trail.
    have hrest : ∀ {i s₂}, s.trail.assigned ≤ s₂.trail.assigned →
        sweepFrom pass l n i s₂ = .ok (r, t) → r = .conflict ∨
          s.trail.assigned ≤ t.trail.assigned ∧
            ∀ next, r = .paused next → pass = .rest ∧ s.trail.assigned < t.trail.assigned := by
      intro i s₂ hle hrun
      rcases ih hrun with hr | ⟨hle₂, hpause⟩
      · exact Or.inl hr
      · refine Or.inr ⟨Nat.le_trans hle hle₂, fun next hn => ?_⟩
        exact ⟨(hpause next hn).1, Nat.lt_of_le_of_lt hle (hpause next hn).2⟩
    by_cases hv : pass.visits w
    · rw [if_pos hv] at h
      obtain ⟨v, s₂, hvisit, h⟩ := bind_eq_ok_iff.mp h
      rcases assigned_of_visit hvisit with rfl | ⟨rfl, hs₂⟩ | ⟨rfl | rfl, hs₂⟩
      · cases h
        exact Or.inl rfl
      · by_cases hp : pass.pauses
        · simp only [if_pos hp] at h
          cases h
          refine Or.inr ⟨by omega, fun _ _ => ⟨?_, by omega⟩⟩
          cases pass <;> first | rfl | cases hp
        · simp only [if_neg hp] at h
          exact hrest (by omega) h
      · exact hrest (by omega) h
      · exact hrest (by omega) h
    · rw [if_neg hv] at h
      exact hrest (by omega) h

/-- A round that is not the last one brings the end nearer. -/
theorem roundsLeft_of_round {scan next : Scan} (h : round scan s = .ok (.onward next, t))
    (hn : t.trail.assigned ≤ n) : next.roundsLeft n t < scan.roundsLeft n s := by
  obtain ⟨a, s₁, hlook, h⟩ := bind_eq_ok_iff.mp h
  cases hlook
  by_cases hc : scan.cursor < s.trail.assigned
  · rw [if_pos hc] at h
    obtain ⟨l, s₁, hl, h⟩ := bind_eq_ok_iff.mp h
    obtain ⟨r, s₂, hsweep, h⟩ := bind_eq_ok_iff.mp h
    have hs₁ : s₁.trail.assigned = s.trail.assigned := congrArg Array.size (Unmoved.ask _ hl)
    obtain ⟨size, s₃, hsize, hsweep⟩ := bind_eq_ok_iff.mp hsweep
    have hs₃ : s₃.trail.assigned = s₁.trail.assigned := congrArg Array.size (Unmoved.ask _ hsize)
    have hgrow := assigned_of_sweepFrom hsweep
    cases r with
    | conflict => cases h
    | finished =>
      cases h
      rcases hgrow with hr | ⟨hle, -⟩
      · cases hr
      · exact scan.roundsLeft_advance hc (by omega) hn
    | paused i =>
      cases h
      rcases hgrow with hr | ⟨hle, hpause⟩
      · cases hr
      · obtain ⟨hpass, hlt⟩ := hpause i rfl
        simp only [Scan.roundsLeft, Scan.detour, hpass]
        omega
  · rw [if_neg hc] at h
    obtain ⟨pass, core, rest, i⟩ := scan
    cases pass with
    | core =>
      cases h
      simp only [Scan.roundsLeft]
      omega
    | rest | all =>
      obtain ⟨⟨⟩, s₁, -, h⟩ := bind_eq_ok_iff.mp h
      cases h

theorem Scan.roundsLeft_pos (scan : Scan) (n : Nat) (s : State) : 0 < scan.roundsLeft n s := by
  unfold roundsLeft
  split <;> omega

/-- Any two numbers of rounds that are large enough do the same. -/
theorem Twin.together_rounds {scan : Scan} {a b : Nat} (h : Twin k s s')
    (ha : scan.roundsLeft (k.bound + 1) s ≤ a) (hb : scan.roundsLeft (k.bound + 1) s ≤ b) :
    Together E (rounds a scan) (rounds b scan) s s' fun r t r' t' => r' = r ∧ Twin k t t' := by
  have hpos := scan.roundsLeft_pos (k.bound + 1) s
  induction a generalizing b scan s s' with
  | zero => omega
  | succ a ih =>
    cases b with
    | zero => omega
    | succ b =>
      refine (steady_round scan h).run.bind ?_
      rintro _ t r t' ⟨hrun, -, ⟨rfl, -⟩, ht⟩
      cases r with
      | done result => exact ⟨rfl, ht⟩
      | onward next =>
        have hlt := roundsLeft_of_round hrun ht.trail.assigned_le
        exact ih ht (by omega) (by omega) (next.roundsLeft_pos _ _)

theorem steady_saturate (coreFirst : Bool) : Steady k E (saturate coreFirst) fun _ => True := by
  intro s s' h
  obtain ⟨r, hr, hw⟩ := h.trail.wf
  obtain ⟨r', hr', hw'⟩ := h.trail.wf'
  have hstart : (Scan.start coreFirst s.trail.processed).roundsLeft (k.bound + 1) s ≤
      4 * k.bound + 6 := by
    cases coreFirst <;> simp only [Scan.start, Scan.roundsLeft] <;> simp <;> omega
  have hrounds : Together E (rounds (2 * s.trail.status.size) (.start coreFirst s.trail.processed))
      (rounds (2 * s'.trail.status.size) (.start coreFirst s'.trail.processed)) s s'
      fun r t r' t' => r' = r ∧ Twin k t t' := by
    rw [h.trail.processed]
    refine h.together_rounds ?_ ?_
    · rw [hw.statusSize]
      omega
    · rw [hw'.statusSize]
      omega
  exact hrounds.mono fun _ _ _ _ hq => ⟨⟨hq.1, trivial⟩, hq.2⟩

end Rounds

end Engine

end UnsatCore
