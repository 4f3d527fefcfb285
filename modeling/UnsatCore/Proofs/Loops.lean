import UnsatCore.Proofs.Explanation
import Mathlib.Data.List.Dedup

/-! Unit propagation as its loops run: one turn of one loop after the other, with no number of turns
at which they stop. The loops come to an end by themselves, and with the result of the rounds that
are allotted. Each detour is paid for by a unit. -/
namespace UnsatCore

open Engine Engine.CheckM

variable {settings : Settings} {f : Formula} {d lines : Derivation} {s s' s₀ s₁ : State}
  {n m i k : Nat} {b : Bool} {F : Prop} {body : Handle → Clause} {A : Set Handle} {c : Handle}
  {l : Literal} {scan : Scan}

namespace Engine

section Turns

/-- Where the loops are. -/
inductive Place
  /-- At the next literal of the trail. -/
  | trail (scan : Scan)
  /-- At position `i` of the watch list of `l`. -/
  | list (scan : Scan) (l : Literal) (i : Nat)
  /-- At position `k` of the clause `c` there, in search of another literal to watch. -/
  | clause (scan : Scan) (l : Literal) (i : Nat) (c : Handle) (k : Nat)

def Place.pass : Place → Pass
  | .trail scan | .list scan _ _ | .clause scan _ _ _ _ => scan.pass

/-- What comes after a turn. -/
inductive Turn
  | go (next : Place)
  | done (result : Saturation)

/-- How a round goes on. -/
def Round.turn : Round → Turn
  | .onward scan => .go (.trail scan)
  | .done result => .done result

/-- How the loops go on after a visit to the watcher at `i` of the list of `l`. -/
def Scan.resume (scan : Scan) (l : Literal) (i : Nat) : Visit → Turn
  | .kept => .go (.list scan l (i + 1))
  | .moved => .go (.list scan l i)
  | .derived =>
    if scan.pass.pauses then .go (.trail (scan.detour (i + 1))) else .go (.list scan l (i + 1))
  | .conflict => .done .conflict

/-- One turn of the innermost loop. -/
def turn : Place → CheckM Turn
  | .trail scan => do
    if scan.cursor < (← look (·.trail.assigned)) then
      let l ← ask (·.trail.literalAt scan.cursor)
      return .go (.list scan l scan.offset)
    else return (← endPass scan).turn
  | .list scan l i => do
    if i < (← ask (·.watches.length l)) then
      let w ← ask (·.watches.watcher l i)
      if scan.pass.visits w then
        if ← approach l w.clause then return .go (.clause scan l i w.clause 2)
        else return scan.resume l i .kept
      else return .go (.list scan l (i + 1))
    else return .go (.trail scan.advance)
  | .clause scan l i c k => do
    let other ← literalOf c k
    if other.isZero then return scan.resume l i (← deriveFirst l c)
    else if ← isFalseNow other then return .go (.clause scan l i c (k + 1))
    else
      moveWatcher l i c k other
      return scan.resume l i .moved

/-- Whether it is a detour to go on at a place: from the clauses that are not in the core back to
those that are. -/
def Pass.detours (pass : Pass) (next : Place) : Nat :=
  if pass = .rest ∧ next.pass = .core then 1 else 0

/-- The literals that a turn from `s` to `s'` puts on the trail, if its pass visits more than the
clauses of the core. -/
def Pass.units (pass : Pass) (s s' : State) : Nat :=
  if pass = .core then 0 else s'.trail.assigned - s.trail.assigned

/-- The loops, from a place on, come to an end in `o`, with that many detours and units. -/
inductive Terminates : Place → State → (detours units : Nat) →
    Except Halt (Saturation × State) → Prop
  | halt {p : Place} {s : State} {e : Halt} (h : turn p s = .error e) :
      Terminates p s 0 0 (.error e)
  | done {p : Place} {s s' : State} {r : Saturation} (h : turn p s = .ok (.done r, s')) :
      Terminates p s 0 0 (.ok (r, s'))
  | go {p q : Place} {s s' : State} {a u : Nat} {o : Except Halt (Saturation × State)}
      (h : turn p s = .ok (.go q, s')) (ht : Terminates q s' a u o) :
      Terminates p s (p.pass.detours q + a) (p.pass.units s s' + u) o

variable {p q : Place} {a a' u u' : Nat} {o o' : Except Halt (Saturation × State)}

/-- How the loops come to an end is fixed by where they begin. -/
theorem Terminates.unique (h : Terminates p s a u o) (h' : Terminates p s a' u' o') :
    a = a' ∧ u = u' ∧ o = o' := by
  induction h generalizing a' u' o' with
  | halt h =>
    cases h' with
    | halt h' =>
      cases h.symm.trans h'
      exact ⟨rfl, rfl, rfl⟩
    | done h' => cases h.symm.trans h'
    | go h' => cases h.symm.trans h'
  | done h =>
    cases h' with
    | halt h' => cases h.symm.trans h'
    | done h' =>
      cases h.symm.trans h'
      exact ⟨rfl, rfl, rfl⟩
    | go h' => cases h.symm.trans h'
  | go h _ ih =>
    cases h' with
    | halt h' => cases h.symm.trans h'
    | done h' => cases h.symm.trans h'
    | go h' ht' =>
      cases h.symm.trans h'
      obtain ⟨rfl, rfl, rfl⟩ := ih ht'
      exact ⟨rfl, rfl, rfl⟩

end Turns

section Bounds

variable {p q : Place} {o : Except Halt (Saturation × State)} {pass : Pass}

/-- The loops come to an end in `o`. No detour is without a unit, and the units are as many at most
as the trail may still grow by. -/
def Bounded (m : Nat) (p : Place) (s : State) (o : Except Halt (Saturation × State)) : Prop :=
  ∃ a u, Terminates p s a u o ∧ a ≤ u ∧ u + s.trail.assigned ≤ m

/-- After the given turn of a pass the loops come to an end in `o`. A detour has its unit. -/
def Follows (m : Nat) (pass : Pass) (s : State) (o : Except Halt (Saturation × State)) :
    Except Halt (Turn × State) → Prop
  | .error e => o = .error e
  | .ok (.done r, s') => o = .ok (r, s')
  | .ok (.go q, s') => s.trail.assigned ≤ s'.trail.assigned ∧ pass.detours q ≤ pass.units s s' ∧
      Bounded m q s' o

theorem bounded_of_follows (hm : s.trail.assigned ≤ m)
    (h : Follows m p.pass s o (turn p s)) : Bounded m p s o := by
  cases hrun : turn p s with
  | error e =>
    rw [hrun] at h
    obtain rfl := h
    exact ⟨0, 0, .halt hrun, Nat.le_refl 0, by omega⟩
  | ok r =>
    obtain ⟨t, s'⟩ := r
    rw [hrun] at h
    cases t with
    | done r =>
      obtain rfl := h
      exact ⟨0, 0, .done hrun, Nat.le_refl 0, by omega⟩
    | go q =>
      obtain ⟨hle, hpaid, a, u, ht, hau, hu⟩ := h
      refine ⟨_, _, .go hrun ht, Nat.add_le_add hpaid hau, ?_⟩
      have hunits : p.pass.units s s' ≤ s'.trail.assigned - s.trail.assigned := by
        unfold Pass.units
        split <;> omega
      omega

theorem Pass.detours_eq_zero (h : q.pass = pass) : pass.detours q = 0 := by
  unfold Pass.detours
  rw [if_neg]
  rintro ⟨rfl, hq⟩
  cases h.symm.trans hq

/-- A detour is paid for by a literal that was found. -/
theorem Pass.detours_le_units (hp : pass.pauses = true)
    (hlt : s.trail.assigned < s'.trail.assigned) : pass.detours q ≤ pass.units s s' := by
  cases pass with
  | core => cases hp
  | rest =>
    simp only [Pass.detours, Pass.units, true_and, reduceCtorEq, if_false]
    split <;> omega
  | all => cases hp

/-- A turn that stays in its pass is no detour. -/
theorem follows_go (hq : q.pass = pass) (hle : s.trail.assigned ≤ s'.trail.assigned)
    (h : Bounded m q s' o) : Follows m pass s o (.ok (.go q, s')) :=
  ⟨hle, by rw [Pass.detours_eq_zero hq]; exact Nat.zero_le _, h⟩

theorem Follows.of_trail {r : Except Halt (Turn × State)} (h : Follows m pass s o r)
    (ht : s₁.trail = s.trail) : Follows m pass s₁ o r := by
  unfold Follows Pass.units at h ⊢
  rwa [ht]

end Bounds

section Visits

variable {o : Except Halt (Saturation × State)} {rest : Clause}

/-- The search through the rest of a clause comes to an end, and then the visit does. -/
theorem bounded_clause (front : Clause) (h : Coherent n F body A s) (hc : c ∈ A)
    (hl : s.arena.literals c = front ++ rest) (hm : s.trail.assigned ≤ m)
    (hrep : replacement c s = firstUnfalsified s.trail rest front.length)
    (ho : Follows m scan.pass s o ((rewatch l i c >>= fun v => pure (scan.resume l i v)) s)) :
    Bounded m (.clause scan l i c front.length) s o := by
  have hh := (h.attached c hc).1
  -- By induction on what is left of the clause; behind its last literal there is a 0.
  induction rest generalizing front with
  | nil =>
    have hend : literalOf c front.length s = .ok (⟨0⟩, s) := by
      rw [List.append_nil] at hl
      exact ask_of_ok (hl ▸ hh.literal_end)
    have hnone : ask (replacement c) s = .ok (none, s) := ask_of_ok hrep
    rw [rewatch, bind_assoc, bind_of_ok hnone] at ho
    refine bounded_of_follows hm ?_
    rw [turn, bind_of_ok hend]
    exact ho
  | cons other rest ih =>
    have hmem : other ∈ s.arena.literals c := by simp [hl]
    have hlit : literalOf c front.length s = .ok (other, s) :=
      ask_of_ok (hh.literal (by simp [hl]))
    have hzero : other.isZero = false := by
      simpa [Literal.isZero] using hh.zeroFree other hmem
    have hisFalse := h.trail.isFalse (h.stored.small_literal hh hmem)
    have hask : isFalseNow other s = .ok (decide (other ∈ s.trail.falsified), s) :=
      ask_of_ok hisFalse
    refine bounded_of_follows hm ?_
    rw [turn, bind_of_ok hlit, hzero]
    simp only [Bool.false_eq_true, if_false]
    rw [bind_of_ok hask]
    rw [firstUnfalsified, hisFalse] at hrep
    by_cases hf : other ∈ s.trail.falsified
    · simp only [hf, decide_true, if_true] at hrep ⊢
      refine follows_go rfl (Nat.le_refl _) ?_
      have hnext := ih (front ++ [other]) (by simp [hl]) (by simpa using hrep)
      rwa [List.length_append, List.length_singleton] at hnext
    · simp only [hf, decide_false, Bool.false_eq_true, if_false] at hrep ⊢
      have hsome : ask (replacement c) s = .ok (some (front.length, other), s) := ask_of_ok hrep
      rw [rewatch, bind_assoc, bind_of_ok hsome, bind_assoc] at ho
      exact ho

/-- A visit is taken in turns: the approach, and then the search. -/
theorem follows_visit (h : Coherent n F body A s) (hlf : l ∈ s.trail.falsified) (hc : c ∈ A)
    (htake : l ∈ (s.arena.literals c).take 2) (hm : s.trail.assigned ≤ m)
    (ho : Follows m scan.pass s o ((visit l i c >>= fun v => pure (scan.resume l i v)) s)) :
    Follows m scan.pass s o ((do
      if ← approach l c then return .go (.clause scan l i c 2)
      else return scan.resume l i .kept : CheckM Turn) s) := by
  rw [visit_eq, bind_assoc] at ho
  cases happ : approach l c s with
  | error e =>
    rw [bind_of_error happ] at ho ⊢
    exact ho
  | ok r =>
    obtain ⟨goesOn, s₁⟩ := r
    rw [bind_of_ok happ] at ho ⊢
    cases goesOn with
    | false => exact ho
    | true =>
      have hends : Ends F (fun _ _ => True) (approach l c) s fun b s' =>
        Approached n F body A l c s s' b := ends_approach h hlf hc htake
      obtain ⟨h₁, hsh, -, x, rest, -, hl, -⟩ := hends.of_ok happ
      have hrep : replacement c s₁ = firstUnfalsified s₁.trail rest 2 := by
        rw [replacement, (h₁.attached c hc).1.body (by simp [hl]), hl]
        rfl
      rw [← hsh.trail] at hm
      refine follows_go rfl (by rw [hsh.trail]) ?_
      exact bounded_clause [x, l] h₁ hc hl hm hrep (ho.of_trail hsh.trail)

end Visits

section Runs

variable {o : Except Halt (Saturation × State)}

/-- The loops are on their way, and the trail can get no longer than `m`. -/
structure Running (n : Nat) (F : Prop) (body : Handle → Clause) (A : Set Handle) (m : Nat)
    (s : State) : Prop where
  coherent : Coherent n F body A s
  anchored : Anchored body A s.trail.entries
  forced : s.trail.forced ≤ s.trail.assigned
  room : ∀ s', Coherent n F body A s' → Grew A s s' → s'.trail.assigned ≤ m

theorem Running.grew (h : Running n F body A m s) (h' : Coherent n F body A s')
    (hg : Grew A s s') : Running n F body A m s' :=
  ⟨h', hg.anchored h.anchored, hg.forced_le h.forced,
    fun t ht hgt => h.room t ht (hg.trans hgt)⟩

theorem Running.assigned_le (h : Running n F body A m s) : s.trail.assigned ≤ m :=
  h.room s h.coherent (Grew.refl A s)

/-- After a round the loops come to an end in `o`. -/
def Continues (m : Nat) (s : State) (o : Except Halt (Saturation × State)) : Round → Prop
  | .onward scan => Bounded m (.trail scan) s o
  | .done r => o = .ok (r, s)

/-- How a sweep with `k` watchers to come goes on after a visit. -/
def sweepOn (pass : Pass) (l : Literal) (k i : Nat) : Visit → CheckM Swept
  | .kept => sweepFrom pass l k (i + 1)
  | .moved => sweepFrom pass l k i
  | .derived => if pass.pauses then return .paused (i + 1) else sweepFrom pass l k (i + 1)
  | .conflict => return .conflict

theorem sweepFrom_succ (pass : Pass) (l : Literal) (k i : Nat) :
    sweepFrom pass l (k + 1) i = ask (·.watches.watcher l i) >>= fun w =>
      if pass.visits w then visit l i w.clause >>= sweepOn pass l k i
      else sweepFrom pass l k (i + 1) := by
  rw [sweepFrom]
  refine bind_congr fun w => ?_
  split
  · refine bind_congr fun v => ?_
    cases v <;> rfl
  · rfl

/-- A sweep over the list of `l` is on its way, at position `i`. -/
structure Sweeping (n : Nat) (F : Prop) (body : Handle → Clause) (A : Set Handle) (m : Nat)
    (scan : Scan) (l : Literal) (i : Nat) (s : State) : Prop extends Running n F body A m s where
  advanced : Advanced A (scan.pass.frontier scan.cursor i scan.waiting) s
  waiting : Waiting s scan.cursor scan.waiting
  literal : s.trail.falsified[scan.cursor]? = some l

/-- Whatever a sweep from `s` comes to, `K` goes on from there as the loops do. -/
def Resumes (n : Nat) (F : Prop) (body : Handle → Clause) (A : Set Handle) (m : Nat)
    (scan : Scan) (l : Literal) (K : Swept → CheckM Saturation) (s : State) : Prop :=
  ∀ r s', Coherent n F body A s' →
    SweptTo body A scan.pass scan.cursor scan.waiting l s s' r →
    Continues m s' (K r s') (roundAfter scan r)

variable {K : Swept → CheckM Saturation} {v : Visit} {w : Watcher}

theorem Resumes.grew (h : Resumes n F body A m scan l K s) (hg : Grew A s s')
    (hf : s.trail.forced ≤ s.trail.assigned)
    (ha : scan.pass.pauses = true → s'.trail.assigned = s.trail.assigned) :
    Resumes n F body A m scan l K s' :=
  fun r t ht hr => h r t ht (hr.of_grew hg hf ha)

theorem Sweeping.grew (h : Sweeping n F body A m scan l i s) (h' : Coherent n F body A s')
    (hg : Grew A s s') (hadv : Advanced A (scan.pass.frontier scan.cursor k scan.waiting) s') :
    Sweeping n F body A m scan l k s' :=
  ⟨h.toRunning.grew h' hg, hadv, h.waiting.grew hg, hg.getElem? h.literal⟩

theorem turn_list_of_le (h : Sweeping n F body A m scan l i s)
    (hi : (s.watches.watchers l).length ≤ i) :
    turn (.list scan l i) s = .ok (.go (.trail scan.advance), s) := by
  have hlen := h.coherent.ask_length (List.mem_of_getElem? h.literal)
  rw [turn, bind_of_ok hlen, if_neg (Nat.not_lt.mpr hi)]
  rfl

theorem turn_list_of_getElem? (h : Sweeping n F body A m scan l i s)
    (hw : (s.watches.watchers l)[i]? = some w) :
    turn (.list scan l i) s = (if scan.pass.visits w then do
        if ← approach l w.clause then return .go (.clause scan l i w.clause 2)
        else return scan.resume l i .kept
      else return .go (.list scan l (i + 1)) : CheckM Turn) s := by
  have hlf := List.mem_of_getElem? h.literal
  have hi := (List.getElem?_eq_some_iff.mp hw).1
  rw [turn, bind_of_ok (h.coherent.ask_length hlf), if_pos hi,
    bind_of_ok (h.coherent.ask_watcher hlf hw)]

/-- After a visit the sweep goes on, or the round is over; a detour comes with a unit. -/
theorem follows_resume (h : Sweeping n F body A m scan l i s)
    (hK : Resumes n F body A m scan l K s)
    (hk : k + 1 = (s.watches.watchers l).length - i) (h' : Coherent n F body A s')
    (hv : Visited body A scan.pass scan.cursor i scan.waiting l s s' v)
    (hgo : ∀ t j, Sweeping n F body A m scan l j t → Resumes n F body A m scan l K t →
      k = (t.watches.watchers l).length - j →
      Bounded m (.list scan l j) t ((sweepFrom scan.pass l k j >>= K) t)) :
    Follows m scan.pass s ((sweepOn scan.pass l k i v >>= K) s')
      (.ok (scan.resume l i v, s')) := by
  cases v with
  | kept =>
    obtain ⟨rfl, hadv⟩ := hv
    have hnext := hgo s' (i + 1) (h.grew h' (Grew.refl A s') hadv) hK (by omega)
    exact follows_go rfl (Nat.le_refl _) hnext
  | moved =>
    obtain ⟨hg, hadv, hsize, hlen⟩ := hv
    have hnext := hgo s' i (h.grew h' hg hadv) (hK.grew hg h.forced fun _ => hsize) (by omega)
    exact follows_go rfl hg.assigned_le hnext
  | derived =>
    obtain ⟨hg, hadv, hsize, hws⟩ := hv
    by_cases hpause : scan.pass.pauses = true
    · have hnext := hK (.paused (i + 1)) s' h' ⟨hg, hadv, hsize, hpause⟩
      simp only [sweepOn, Scan.resume, hpause, if_true]
      exact ⟨hg.assigned_le, Pass.detours_le_units hpause hsize, hnext⟩
    · have hnext := hgo s' (i + 1) (h.grew h' hg hadv)
        (hK.grew hg h.forced fun hp => (hpause hp).elim) (by rw [hws]; omega)
      simp only [sweepOn, Scan.resume, hpause, Bool.false_eq_true, if_false]
      exact follows_go rfl hg.assigned_le hnext
  | conflict => exact hK .conflict s' h' hv

/-- The turns at a watch list come to an end, and then the rounds that `K` stands for do. -/
theorem bounded_sweepFrom (h : Sweeping n F body A m scan l i s)
    (hK : Resumes n F body A m scan l K s) (hk : k = (s.watches.watchers l).length - i) :
    Bounded m (.list scan l i) s ((sweepFrom scan.pass l k i >>= K) s) := by
  -- By induction on the watchers to come: each turn passes one of them, or it leaves the list. None
  -- comes back, since a watcher never moves to the list of a false literal.
  induction k generalizing s i with
  | zero =>
    have hi : (s.watches.watchers l).length ≤ i := by omega
    have hdone := hK .finished s h.coherent
      ⟨Grew.refl A s, h.advanced.clamp h.literal hi, fun _ => rfl⟩
    refine bounded_of_follows h.assigned_le ?_
    rw [turn_list_of_le h hi]
    exact follows_go (Scan.pass_advance scan) (Nat.le_refl _) hdone
  | succ k ih =>
    obtain ⟨w, hw⟩ : ∃ w, (s.watches.watchers l)[i]? = some w :=
      ⟨_, List.getElem?_eq_getElem (by omega)⟩
    have hlf := List.mem_of_getElem? h.literal
    refine bounded_of_follows h.assigned_le ?_
    rw [turn_list_of_getElem? h hw, sweepFrom_succ, bind_assoc,
      bind_of_ok (h.coherent.ask_watcher hlf hw)]
    by_cases hvis : scan.pass.visits w = true
    · rw [if_pos hvis, if_pos hvis]
      obtain ⟨hc, -, htake⟩ := (h.coherent.watched.mem_iff l w).mp (List.mem_of_getElem? hw)
      refine follows_visit h.coherent hlf hc htake h.assigned_le ?_
      cases hrun : visit l i w.clause s with
      | error e =>
        rw [bind_of_error hrun, bind_assoc, bind_of_error hrun]
        rfl
      | ok r =>
        obtain ⟨v, s'⟩ := r
        have hends : Ends F (fun _ _ => True) (visit l i w.clause) s _ :=
          ends_visit h.coherent h.anchored h.forced h.advanced h.waiting h.literal hw
        obtain ⟨h', hv⟩ := hends.of_ok hrun
        rw [bind_of_ok hrun, bind_assoc, bind_of_ok hrun]
        exact follows_resume h hK hk h' hv fun t j => ih
    · rw [if_neg hvis, if_neg hvis]
      have hadv := h.advanced.skip h.literal hw fun ht => (hvis (scan.pass.visits_eq w ▸ ht)).elim
      have hnext := ih (h.grew h.coherent (Grew.refl A s) hadv) hK (by omega)
      exact follows_go rfl (Nat.le_refl _) hnext

/-- A pass without a literal left ends without a detour. -/
theorem endPass_onward {next : Scan} (h : endPass scan s = .ok (.onward next, s')) :
    scan.pass.detours (.trail next) = 0 := by
  obtain ⟨pass, core, rest, offset⟩ := scan
  cases pass with
  | core => simp [Pass.detours]
  | rest => cases h
  | all => simp [Pass.detours]

/-- At a literal of the trail the loops go on to its watch list. -/
theorem follows_sweep (h : Running n F body A m s) (hadv : Advanced A scan.frontier s)
    (hfit : scan.Fits s) (hlt : scan.cursor < s.trail.assigned)
    (hgo : ∀ r s', Coherent n F body A s' → Rounded n body A scan s s' r →
      Continues m s' (proceed k r s') r) :
    Follows m scan.pass s (rounds (k + 1) scan s) (turn (.trail scan) s) := by
  obtain ⟨l, hl⟩ : ∃ l, s.trail.falsified[scan.cursor]? = some l :=
    ⟨_, List.getElem?_eq_getElem (by rwa [Trail.length_falsified])⟩
  have hlook : look (·.trail.assigned) s = .ok (s.trail.assigned, s) := rfl
  have hlit : ask (·.trail.literalAt scan.cursor) s = .ok (l, s) :=
    ask_of_ok (Trail.literalAt_eq_ok hl)
  have hlen := h.coherent.ask_length (List.mem_of_getElem? hl)
  rw [turn, bind_of_ok hlook, if_pos hlt, bind_of_ok hlit, rounds_succ_of_lt scan hlt hl, sweep,
    bind_assoc, bind_of_ok hlen]
  refine follows_go rfl (Nat.le_refl _) ?_
  refine bounded_sweepFrom ⟨h, hadv, hfit.waiting, hl⟩ ?_ rfl
  intro r s' h' hr
  exact hgo _ s' h' (hr.rounded h' hfit hlt hl)

/-- At the top of the trail the pass ends. -/
theorem follows_endPass (h : Running n F body A m s) (hadv : Advanced A scan.frontier s)
    (hfit : scan.Fits s) (hge : s.trail.assigned ≤ scan.cursor)
    (hgo : ∀ r s', Coherent n F body A s' → Rounded n body A scan s s' r →
      Continues m s' (proceed k r s') r) :
    Follows m scan.pass s (rounds (k + 1) scan s) (turn (.trail scan) s) := by
  have hlook : look (·.trail.assigned) s = .ok (s.trail.assigned, s) := rfl
  have hends : Ends F (fun _ _ => True) (endPass scan) s _ :=
    ends_endPass h.coherent hadv hfit hge
  rw [turn, bind_of_ok hlook, if_neg (Nat.not_lt.mpr hge), rounds_succ,
    bind_congr_ok (round_of_le scan hge) fun _ _ _ => rfl]
  cases hrun : endPass scan s with
  | error e =>
    rw [bind_of_error hrun, bind_of_error hrun]
    rfl
  | ok r =>
    obtain ⟨r, s'⟩ := r
    obtain ⟨-, h', hr⟩ := hends.of_ok hrun
    rw [bind_of_ok hrun, bind_of_ok hrun]
    cases r with
    | onward next =>
      refine ⟨hr.1.assigned_le, ?_, hgo _ s' h' hr⟩
      show scan.pass.detours (.trail next) ≤ _
      rw [endPass_onward hrun]
      exact Nat.zero_le _
    | done result => rfl

/-- The loops come to an end within the rounds that are left. -/
theorem bounded_rounds (h : Running n F body A m s) (hadv : Advanced A scan.frontier s)
    (hfit : scan.Fits s) (hk : scan.roundsLeft (n + 1) s ≤ k) :
    Bounded m (.trail scan) s (rounds k scan s) := by
  -- By induction on the rounds that are allotted: the measure that they bound goes down from one
  -- place on the trail to the next one, although a detour moves the cursor of the core back.
  induction k generalizing s scan with
  | zero =>
    obtain ⟨pass, core, rest, next⟩ := scan
    cases pass <;> simp only [Scan.roundsLeft] at hk <;> omega
  | succ k ih =>
    have hgo : ∀ r s', Coherent n F body A s' → Rounded n body A scan s s' r →
        Continues m s' (proceed k r s') r := by
      intro r s' h' hr
      cases r with
      | onward next =>
        obtain ⟨hg, hadv', hfit', hlt⟩ := hr
        exact ih (h.grew h' hg) hadv' hfit' (by omega)
      | done result => rfl
    refine bounded_of_follows h.assigned_le ?_
    rcases Nat.lt_or_ge scan.cursor s.trail.assigned with hlt | hge
    · exact follows_sweep h hadv hfit hlt hgo
    · exact follows_endPass h hadv hfit hge hgo

/-- The rounds that are allotted are the loops. -/
theorem bounded_saturate (h : Running n F body A m s)
    (hp : s.trail.processed ≤ s.trail.assigned) (hpo : Poised A s) :
    Bounded m (.trail (.start b s.trail.processed)) s (saturate b s) :=
  bounded_rounds h (hpo.advanced h.coherent b) (Scan.fits_start hp)
    (Scan.roundsLeft_start h.coherent.trail)

theorem bounded_trail_idle (scan : Scan) (hp : s.trail.processed = s.trail.assigned)
    (hpass : scan.pass ≠ .core) (hc : s.trail.assigned ≤ scan.cursor)
    (hm : s.trail.assigned ≤ m) : Bounded m (.trail scan) s (.ok (.drained, s)) := by
  have hlook : look (·.trail.assigned) s = .ok (s.trail.assigned, s) := rfl
  refine bounded_of_follows hm ?_
  rw [turn, bind_of_ok hlook, if_neg (Nat.not_lt.mpr hc), bind_of_ok (endPass_idle hp hpass)]
  rfl

/-- Where nothing is left to propagate, the loops end at once. -/
theorem bounded_idle (hp : s.trail.processed = s.trail.assigned) (hm : s.trail.assigned ≤ m) :
    Bounded m (.trail (.start b s.trail.processed)) s (.ok (.drained, s)) := by
  cases b with
  | false => exact bounded_trail_idle _ hp (by simp [Scan.start]) (Nat.le_of_eq hp.symm) hm
  | true =>
    have hlook : look (·.trail.assigned) s = .ok (s.trail.assigned, s) := rfl
    have hstop : ¬ (Scan.start true s.trail.processed).cursor < s.trail.assigned := by
      simp [Scan.start, Scan.cursor, hp]
    refine bounded_of_follows hm ?_
    rw [turn, bind_of_ok hlook, if_neg hstop]
    have hnext := bounded_trail_idle ⟨.rest, s.trail.processed, s.trail.processed, 0⟩ hp (by simp)
      (Nat.le_of_eq hp.symm) hm
    exact ⟨Nat.le_refl _, by simp [Pass.detours, Place.pass, Scan.start], hnext⟩

end Runs

end Engine

section Calls

/-- The variables of the input that a trail leaves without a value. -/
def Trail.unassigned (t : Trail) (f : Formula) (d : Derivation) : List Var :=
  ((f ++ d.map Derivation.Line.clause).flatten.map Literal.var).dedup.filter fun v =>
    0 < v.index ∧ v ∉ t.falsified.map Literal.var

/-- The literals of stored clauses are literals of the input. -/
theorem Engine.ReadTo.exists_mem (hread : ReadTo (maxVar f d) True f d lines s₀)
    (h : Primed hread.loaded.ledger A s) (hc : s.arena.Has c)
    (hl : l ∈ hread.loaded.ledger.body c) : ∃ k ∈ f ++ d.map Derivation.Line.clause, l ∈ k := by
  have hc₀ := (hread.loaded.records.has c).mpr ((h.records.has c).mp hc)
  obtain ⟨k, hk, hlk⟩ := hread.loaded.exists_mem hc₀ hl
  refine ⟨k, ?_, hlk⟩
  rcases List.mem_append.mp hk with hkf | hkl
  · exact List.mem_append_left _ hkf
  · exact List.mem_append_right _ ((hread.head.map _).subset hkl)

/-- A variable that unit propagation gives a value had none. -/
theorem Engine.ReadTo.mem_unassigned {e : Entry} (hread : ReadTo (maxVar f d) True f d lines s₀)
    (h : Primed hread.loaded.ledger A s)
    (h' : Coherent hread.loaded.ledger.bound F hread.loaded.ledger.body A s')
    (he : e ∈ s'.trail.entries) (hc : c ∈ A) (hr : e.reason = some c)
    (hnew : e.literal.var ∉ s.trail.falsified.map Literal.var) :
    e.literal.var ∈ s.trail.unassigned f d := by
  have hneg := h'.neg_mem_of_reason he hr
  obtain ⟨k, hk, hlk⟩ := hread.exists_mem h (h.coherent.attached c hc).1 hneg
  have hmentioned : e.literal.var ∈
      (f ++ d.map Derivation.Line.clause).flatten.map Literal.var := by
    rw [← Literal.var_neg]
    exact List.mem_map_of_mem (List.mem_flatten_of_mem hk hlk)
  have hproper := h'.trail.proper _ (Trail.literal_mem_falsified he)
  have hpos : 0 < e.literal.var.index := Int.natAbs_pos.mpr hproper.toInt_ne_zero
  simp only [Trail.unassigned, List.mem_filter, List.mem_dedup, decide_eq_true_eq]
  exact ⟨hmentioned, hpos, hnew⟩

/-- The trail grows by no more literals than there are variables without a value. -/
theorem Engine.ReadTo.assigned_le (hread : ReadTo (maxVar f d) True f d lines s₀)
    (h : Primed hread.loaded.ledger A s)
    (h' : Coherent hread.loaded.ledger.bound F hread.loaded.ledger.body A s')
    (hg : Grew A s s') :
    s'.trail.assigned ≤ s.trail.assigned + (s.trail.unassigned f d).length := by
  obtain ⟨new, he, hnew⟩ := hg.entries
  have hsplit := Trail.falsified_of_append he
  have hnd := h'.trail.nodup
  rw [hsplit, List.map_append, List.nodup_append] at hnd
  obtain ⟨-, hndnew, hapart⟩ := hnd
  have hsub : (new.map Entry.literal).map Literal.var ⊆ s.trail.unassigned f d := by
    intro v hv
    obtain ⟨l, hl, rfl⟩ := List.mem_map.mp hv
    obtain ⟨e, hmem, rfl⟩ := List.mem_map.mp hl
    obtain ⟨c, hc, hr⟩ := hnew e hmem
    have hes : e ∈ s'.trail.entries := he ▸ List.mem_append_right _ hmem
    exact hread.mem_unassigned h h' hes hc hr fun hold => hapart _ hold _ hv rfl
  have hlen := hndnew.length_le_of_subset hsub
  rw [← Trail.length_falsified, ← Trail.length_falsified, hsplit, List.length_append]
  simp only [List.length_map] at hlen ⊢
  omega

end Calls

/-- Wherever a run calls unit propagation, with the core first or not, its loops come to an end by
themselves, with the result of the rounds that are allotted to them. There are no more detours than
units that are found outside the core, and of these no more than variables without a value. -/
theorem saturate_terminates (h : CalledAt settings f d s) (b : Bool) :
    (∃ detours units o,
      Terminates (.trail (.start b s.trail.processed)) s detours units o) ∧
    ∀ detours units o, Terminates (.trail (.start b s.trail.processed)) s detours units o →
      o = saturate b s ∧ detours ≤ units ∧ units ≤ (s.trail.unassigned f d).length := by
  have hends : Bounded (s.trail.assigned + (s.trail.unassigned f d).length)
      (.trail (.start b s.trail.processed)) s (saturate b s) := by
    cases h with
    | call h =>
      obtain ⟨lines, s₀, hread, A, hp⟩ := primed_of_stateAtCall h
      exact bounded_saturate ⟨hp.coherent, hp.anchored, hp.forced,
        fun s' h' hg => hread.assigned_le hp h' hg⟩ hp.processed hp.poised
    | void h =>
      obtain ⟨n, hw, hp⟩ := idle_of_stateAtVoid h
      rw [saturate_idle b hw hp]
      exact bounded_idle hp (Nat.le_add_right _ _)
  obtain ⟨a, u, ht, hau, hu⟩ := hends
  refine ⟨⟨a, u, _, ht⟩, ?_⟩
  intro a' u' o ht'
  obtain ⟨rfl, rfl, rfl⟩ := ht.unique ht'
  exact ⟨rfl, hau, by omega⟩

/-- The negation of a lemma of the core is propagated, the core first. -/
theorem saturate_terminates_denied : ∃ s detours units o,
    stateAtCall {} (Signings.clauses 2) [.add [Signings.literal 1], .add []] (.denied 0 0) =
      some s ∧
    Terminates (.trail (.start true s.trail.processed)) s detours units o ∧
    o = saturate true s ∧ detours ≤ units ∧ units ≤ (s.trail.unassigned (Signings.clauses 2)
      [.add [Signings.literal 1], .add []]).length := by
  obtain ⟨s, hs⟩ := Option.isSome_iff_exists.mp (show (stateAtCall {} (Signings.clauses 2)
    [.add [Signings.literal 1], .add []] (.denied 0 0)).isSome by decide +kernel)
  obtain ⟨⟨a, u, o, ht⟩, hall⟩ := saturate_terminates (.call hs) true
  exact ⟨s, a, u, o, hs, ht, hall a u o ht⟩

end UnsatCore
