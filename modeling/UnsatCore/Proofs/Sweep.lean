import UnsatCore.Proofs.Search
import UnsatCore.Proofs.Visit

/-! A sweep over the watch list of a literal. What is left to do is behind a frontier: a clause with
a false watched literal has its other one true, or its watcher is still to be visited. -/
namespace UnsatCore.Engine

open CheckM

variable {n i p : Nat} {F : Prop} {R : Rejection → State → Prop} {body : Handle → Clause}
  {A : Set Handle} {s s' : State} {c d : Handle} {b l m u x y : Literal} {rest rest' : Clause}
  {w : Watcher} {pre post left : List Watcher} {pass : Pass} {q : Nat × Nat}

/-- The place on the trail and the offset in the watch list of the literal there of the next visit,
for the clauses of the core and for the others. -/
abbrev Frontier := Bool → Nat × Nat

/-- A watcher on the list of a false literal that is still to be visited. -/
def Due (fr : Frontier) (s : State) (l : Literal) (w : Watcher) : Prop :=
  ∃ j, s.trail.falsified[j]? = some l ∧ ((fr w.core).1 < j ∨
    j = (fr w.core).1 ∧ w ∈ (s.watches.watchers l).drop (fr w.core).2)

def Advanced (A : Set Handle) (fr : Frontier) (s : State) : Prop :=
  ∀ c ∈ A, ∀ x y, Pair (s.arena.literals c) x y → x ∈ s.trail.falsified →
    -y ∈ s.trail.falsified ∨ Due fr s x ⟨c, s.arena.inCore c⟩

/-- Whether a pass visits the clauses of the core, or the others. -/
def Pass.takes : Pass → Bool → Bool
  | .core, b => b
  | .rest, b => !b
  | .all, _ => true

theorem Pass.visits_eq (pass : Pass) (w : Watcher) : pass.visits w = pass.takes w.core := by
  cases pass <;> rfl

/-- A pass is at `p` and `i`; the clauses that it leaves out wait at `q`. -/
def Pass.frontier (pass : Pass) (p i : Nat) (q : Nat × Nat) : Frontier :=
  fun b => if pass.takes b then (p, i) else q

/-- Clauses that wait do so at a list of their own, or at the start of one. -/
structure Waiting (s : State) (p : Nat) (q : Nat × Nat) : Prop where
  place : q.1 ≤ s.trail.assigned
  offset : q.2 = 0 ∨ q.1 < p

theorem Waiting.grew (h : Waiting s p q) (hg : Grew A s s') : Waiting s' p q :=
  ⟨Nat.le_trans h.place hg.assigned_le, h.offset⟩

/-- The watch list of a literal of the trail can be read. -/
theorem Coherent.ask_length (h : Coherent n F body A s) (hl : l ∈ s.trail.falsified) :
    ask (·.watches.length l) s = .ok ((s.watches.watchers l).length, s) :=
  ask_of_ok (h.watched.fits.length (h.trail.small l hl))

theorem Coherent.ask_watcher (h : Coherent n F body A s) (hl : l ∈ s.trail.falsified)
    (hw : (s.watches.watchers l)[i]? = some w) :
    ask (·.watches.watcher l i) s = .ok (w, s) :=
  ask_of_ok (h.watched.fits.watcher (h.trail.small l hl) hw)

namespace Advanced

variable {fr : Frontier}

/-- A watcher that is not visited, or whose clause has its other watched literal true, is passed. -/
theorem skip (h : Advanced A (pass.frontier p i q) s) (hl : s.trail.falsified[p]? = some l)
    (hw : (s.watches.watchers l)[i]? = some w) (hdone : pass.takes w.core = true →
      ∀ y, Pair (s.arena.literals w.clause) l y → -y ∈ s.trail.falsified) :
    Advanced A (pass.frontier p (i + 1) q) s := by
  intro c hc x y hp hx
  rcases h c hc x y hp hx with ht | ⟨j, hj, hdue⟩
  · exact Or.inl ht
  simp only [Due, Pass.frontier] at hdue ⊢
  by_cases htake : pass.takes (s.arena.inCore c) = true
  · simp only [htake, if_true] at hdue ⊢
    rcases hdue with hlt | ⟨rfl, hmem⟩
    · exact Or.inr ⟨j, hj, Or.inl hlt⟩
    · have hxl : x = l := by
        rw [hl] at hj
        exact (Option.some_inj.mp hj).symm
      subst hxl
      obtain ⟨hi, hwi⟩ := List.getElem?_eq_some_iff.mp hw
      rw [List.drop_eq_getElem_cons hi, hwi, List.mem_cons] at hmem
      rcases hmem with rfl | hmem
      · exact Or.inl (hdone htake y hp)
      · exact Or.inr ⟨j, hj, Or.inr ⟨rfl, hmem⟩⟩
  · simp only [htake] at hdue ⊢
    exact Or.inr ⟨j, hj, hdue⟩

/-- The order of the two watched literals does not matter. -/
theorem turn (h : Advanced A fr s) (ht : s'.trail = s.trail) (hw : s'.watches = s.watches)
    (hp : ∀ c ∈ A, ∀ x y, Pair (s'.arena.literals c) x y → Pair (s.arena.literals c) x y)
    (hi : ∀ c ∈ A, s'.arena.inCore c = s.arena.inCore c) : Advanced A fr s' := by
  intro c hc x y hxy hx
  rw [ht] at hx ⊢
  rw [hi c hc]
  rcases h c hc x y (hp c hc x y hxy) hx with hy | ⟨j, hj, hdue⟩
  · exact Or.inl hy
  · exact Or.inr ⟨j, by rw [ht]; exact hj, by rw [hw]; exact hdue⟩

/-- A literal that is new on the trail has all its visits to come. -/
theorem push (h : Advanced A fr s) (hs : Coherent n F body A s)
    (hf : s'.trail.falsified = s.trail.falsified ++ [u]) (hw : s'.watches = s.watches)
    (ha : s'.arena = s.arena) (hfr : ∀ b, (fr b).1 < s.trail.assigned ∨
      (fr b).1 = s.trail.assigned ∧ (fr b).2 = 0) : Advanced A fr s' := by
  intro c hc x y hp hx
  rw [ha] at hp ⊢
  rw [hf, List.mem_append, List.mem_singleton] at hx
  rcases hx with hx | rfl
  · rcases h c hc x y hp hx with hy | ⟨j, hj, hdue⟩
    · left
      rw [hf]
      exact List.mem_append_left _ hy
    · refine Or.inr ⟨j, ?_, by rw [hw]; exact hdue⟩
      rw [hf, List.getElem?_append_left (List.getElem?_eq_some_iff.mp hj).1, hj]
  · refine Or.inr ⟨s.trail.assigned, ?_, ?_⟩
    · rw [hf, ← Trail.length_falsified]
      simp
    · rcases hfr (s.arena.inCore c) with hlt | ⟨he, hz⟩
      · exact Or.inl hlt
      · refine Or.inr ⟨he.symm, ?_⟩
        rw [hz, hw, List.drop_zero]
        exact (hs.watched.mem_iff x _).mpr ⟨hc, rfl, hp.mem_take⟩

/-- What is due on a list stays due when the watcher at the place of the pass goes to another one. -/
theorem mem_drop_left {v : Watcher} {k : Nat} (hk : k = pre.length ∨ k = 0) (hv : v ≠ w)
    (hperm : left.Perm post) (hm : v ∈ (pre ++ w :: post).drop k) : v ∈ (pre ++ left).drop k := by
  rcases hk with rfl | rfl
  · rw [List.drop_left, List.mem_cons] at hm
    rw [List.drop_left, hperm.mem_iff]
    exact hm.resolve_left hv
  · rw [List.drop_zero, List.mem_append, List.mem_cons] at hm
    rw [List.drop_zero, List.mem_append, hperm.mem_iff]
    exact hm.imp_right fun hm => hm.resolve_left hv

/-- At the list of the pass, its own clauses are visited from the place of the pass on, and the others
from the start. -/
theorem offset_frontier (hwait : Waiting s p q) {v : Bool}
    (hp : (pass.frontier p i q v).1 = p) :
    (pass.frontier p i q v).2 = i ∨ (pass.frontier p i q v).2 = 0 := by
  simp only [Pass.frontier] at hp ⊢
  split at hp
  · simp [*]
  · rw [if_neg ‹_›]
    rcases hwait.offset with hz | hlt
    · exact Or.inr hz
    · omega

/-- A clause that watches `m` in place of `l` is done with for `l`. -/
theorem move (h : Advanced A (pass.frontier p pre.length q) s) (hs : Coherent n F body A s)
    (hwait : Waiting s p q) (hc : c ∈ A) (hl : s.trail.falsified[p]? = some l)
    (hp : Pair (s.arena.literals c) b l) (hl' : s'.arena.literals c = b :: m :: rest')
    (hbm : b ≠ m) (hm : m ∉ s.trail.falsified) (hsh : Shuffled c s s')
    (hw : s.watches.watchers l = pre ++ ⟨c, s.arena.inCore c⟩ :: post)
    (hwl : s'.watches.watchers l = pre ++ left) (hperm : left.Perm post)
    (hother : ∀ k, k ≠ l → k ≠ m → s'.watches.watchers k = s.watches.watchers k) :
    Advanced A (pass.frontier p pre.length q) s' := by
  have hlf : l ∈ s.trail.falsified := List.mem_of_getElem? hl
  have hbl : b ≠ l := hp.ne (hs.stored.nodup_literals (hs.attached c hc).1)
  intro d hd x y hxy hx
  rw [hsh.trail] at hx ⊢
  rw [hsh.inCore_eq (hs.attached d hd).1]
  by_cases he : d = c
  · subst he
    rw [hl'] at hxy
    rcases pair_cons.mp hxy with ⟨rfl, rfl⟩ | ⟨rfl, rfl⟩
    · rcases h d hc x l hp hx with hn | ⟨j, hj, hdue⟩
      · exact (hs.trail.not_mem_neg hlf hn).elim
      · refine Or.inr ⟨j, by rw [hsh.trail]; exact hj, ?_⟩
        rw [hother x hbl hbm]
        exact hdue
    · exact (hm hx).elim
  · rw [hsh.kept.literals d (hs.attached d hd).1 he] at hxy
    rcases h d hd x y hxy hx with hy | ⟨j, hj, hlt | ⟨hjp, hmem⟩⟩
    · exact Or.inl hy
    · exact Or.inr ⟨j, by rw [hsh.trail]; exact hj, Or.inl hlt⟩
    refine Or.inr ⟨j, by rw [hsh.trail]; exact hj, Or.inr ⟨hjp, ?_⟩⟩
    by_cases hxl : x = l
    · subst hxl
      have hpj : p = j := (List.getElem?_inj (List.getElem?_eq_some_iff.mp hl).1
        hs.trail.nodup_falsified).mp (hl.trans hj.symm)
      have hne : (⟨d, s.arena.inCore d⟩ : Watcher) ≠ ⟨c, s.arena.inCore c⟩ := fun hw => by
        simp only [Watcher.mk.injEq] at hw
        exact he hw.1
      rw [hwl]
      rw [hw] at hmem
      exact mem_drop_left (offset_frontier hwait (hpj.trans hjp).symm) hne hperm hmem
    · have hxm : x ≠ m := fun he => hm (he ▸ hx)
      rw [hother x hxl hxm]
      exact hmem

/-- There is nothing to visit beyond the end of a list. -/
theorem clamp (h : Advanced A (pass.frontier p i q) s) (hl : s.trail.falsified[p]? = some l)
    (hi : (s.watches.watchers l).length ≤ i) :
    Advanced A (pass.frontier p (s.watches.watchers l).length q) s := by
  intro c hc x y hp hx
  rcases h c hc x y hp hx with hy | ⟨j, hj, hdue⟩
  · exact Or.inl hy
  refine Or.inr ⟨j, hj, ?_⟩
  simp only [Pass.frontier] at hdue ⊢
  by_cases htake : pass.takes (s.arena.inCore c) = true
  · simp only [htake, if_true] at hdue ⊢
    rcases hdue with hlt | ⟨rfl, hmem⟩
    · exact Or.inl hlt
    · rw [hl] at hj
      cases hj
      rw [List.drop_of_length_le hi] at hmem
      cases hmem
  · simp only [htake] at hdue ⊢
    exact hdue

/-- Once a list is swept, the next one is swept from its start. -/
theorem next (h : Advanced A (pass.frontier p (s.watches.watchers l).length q) s)
    (hs : Coherent n F body A s) (hl : s.trail.falsified[p]? = some l) :
    Advanced A (pass.frontier (p + 1) 0 q) s := by
  intro c hc x y hp hx
  rcases h c hc x y hp hx with hy | ⟨j, hj, hdue⟩
  · exact Or.inl hy
  refine Or.inr ⟨j, hj, ?_⟩
  simp only [Pass.frontier] at hdue ⊢
  by_cases htake : pass.takes (s.arena.inCore c) = true
  · simp only [htake, if_true, List.drop_zero] at hdue ⊢
    rcases hdue with hlt | ⟨rfl, hmem⟩
    · rcases Nat.lt_or_eq_of_le (Nat.succ_le_of_lt hlt) with hlt | he
      · exact Or.inl hlt
      · exact Or.inr ⟨he.symm, (hs.watched.mem_iff x _).mpr ⟨hc, rfl, hp.mem_take⟩⟩
    · rw [hl] at hj
      cases hj
      simp at hmem
  · simp only [htake] at hdue ⊢
    exact hdue

end Advanced

theorem ends_moveWatcher {front back : Clause} (h : Coherent n F body A s) (hc : c ∈ A)
    (hl : s.arena.literals c = b :: l :: (front ++ m :: back)) (hb : -b ∉ s.trail.falsified)
    (hw : s.watches.watchers l = pre ++ ⟨c, s.arena.inCore c⟩ :: post) :
    Ends F R (moveWatcher l pre.length c (2 + front.length) m) s fun _ s' =>
      Coherent n F body A s' ∧ Shuffled c s s' ∧
      s'.arena.literals c = b :: m :: (front ++ l :: back) ∧
      ∃ left, s'.watches.watchers l = pre ++ left ∧ left.Perm post ∧
        ∀ k, k ≠ l → k ≠ m → s'.watches.watchers k = s.watches.watchers k := by
  have hh := (h.attached c hc).1
  have hnd := h.stored.nodup_literals hh
  have hls : l.var.index ≤ n := h.stored.small_literal hh (by simp [hl])
  have hms : m.var.index ≤ n := h.stored.small_literal hh (by simp [hl])
  rw [hl] at hnd
  have hbl : b ≠ l := fun he => by simp [he] at hnd
  have hbm : b ≠ m := fun he => by simp [he] at hnd
  have hlm : l ≠ m := fun he => by simp [he] at hnd
  obtain ⟨a', hswap, hk, hlit, hcore, -⟩ := hh.swap (i := 1) (j := 2 + front.length)
    (by simp [hl]) (by simp [hl]; omega)
  have hlit' : a'.literals c = b :: m :: (front ++ l :: back) := by
    rw [hlit, hl]
    exact Clause.exchange_append [b] front back l m
  obtain ⟨t₁, t₂, left, h₁, h₂, hwd, hleft, hp, -, hother⟩ := h.watched.move
    (fun d hd => (h.attached d hd).1) hc hl hlit' hbl hbm hlm hls hms hk hcore hw
  have hat := h.watched.fits.watcher hls (i := pre.length) (w := ⟨c, s.arena.inCore c⟩)
    (by simp [hw])
  simp only [moveWatcher, ends_bind, ends_onArena, hswap, yields_ok, ends_ask, hat, ends_onWatches,
    h₁, h₂]
  have hperm : (a'.literals c).Perm (s.arena.literals c) := by
    rw [hlit]
    exact Clause.perm_exchange _ _ _
  have hno := h.not_reason (c := c) (by simpa [hl] using hb)
  exact ⟨h.replace hk hh hperm (fun e he hd => (hno e he hd).elim) hwd,
    ⟨⟨rfl, rfl, rfl, rfl⟩, hk, hcore, rfl⟩, hlit', left, hleft, hp, hother⟩

/-- What came of a visit to the watcher at `i` of the list of `l`. -/
def Visited (body : Handle → Clause) (A : Set Handle) (pass : Pass) (p i : Nat) (q : Nat × Nat)
    (l : Literal) (s s' : State) : Visit → Prop
  | .kept => s' = s ∧ Advanced A (pass.frontier p (i + 1) q) s'
  | .moved => Grew A s s' ∧ Advanced A (pass.frontier p i q) s' ∧
      s'.trail.assigned = s.trail.assigned ∧
      (s'.watches.watchers l).length + 1 = (s.watches.watchers l).length
  | .derived => Grew A s s' ∧ Advanced A (pass.frontier p (i + 1) q) s' ∧
      s.trail.assigned < s'.trail.assigned ∧ s'.watches = s.watches
  | .conflict => Refuted body A s s'

theorem Visited.of_grew {s₁ : State} {v : Visit} (h : Visited body A pass p i q l s₁ s' v)
    (hv : v ≠ .kept) (hg : Grew A s s₁) (hf : s.trail.forced ≤ s.trail.assigned)
    (ht : s₁.trail = s.trail) (hw : s₁.watches = s.watches) :
    Visited body A pass p i q l s s' v := by
  cases v with
  | kept => exact (hv rfl).elim
  | moved => exact ⟨hg.trans h.1, h.2.1, ht ▸ h.2.2.1, hw ▸ h.2.2.2⟩
  | derived => exact ⟨hg.trans h.1, h.2.1, ht ▸ h.2.2.1, h.2.2.2.trans hw⟩
  | conflict => exact hg.refuted h hf

/-- Unit propagation went on up to a conflict in the attached clause `c`. -/
structure Blocked (n : Nat) (F : Prop) (body : Handle → Clause) (A : Set Handle) (s : State)
    (c : Handle) (s' : State) : Prop where
  coherent : Coherent n F body A s'
  grew : Grew A s s'
  attached : c ∈ A
  falsified : ∀ l ∈ s'.arena.literals c, l ∈ s'.trail.falsified

theorem Blocked.of_grew {s₁ : State} (h : Blocked n F body A s₁ c s') (hg : Grew A s s₁) :
    Blocked n F body A s c s' :=
  ⟨h.coherent, hg.trans h.grew, h.attached, h.falsified⟩

theorem Grew.forced_le (hg : Grew A s s') (hf : s.trail.forced ≤ s.trail.assigned) :
    s'.trail.forced ≤ s'.trail.assigned := by
  rw [hg.forced]
  exact Nat.le_trans hf hg.assigned_le

theorem Blocked.ends_explain (h : Blocked n F body A s c s')
    (ha : Anchored body A s.trail.entries) (hf : s.trail.forced ≤ s.trail.assigned) :
    Ends F R (explain c) s' fun _ t => Coherent n F body A t ∧ Refuted body A s t := by
  refine (ends_explain_refuted h.coherent (h.grew.anchored ha) (h.grew.forced_le hf) h.attached
    h.falsified).mono ?_
  exact fun _ t ht => ⟨ht.1, h.grew.refuted ht.2 hf⟩

/-- A frontier that a new literal of the trail does not fall behind. -/
theorem Waiting.behind (h : Waiting s p q) (hp : p < s.trail.assigned) (b : Bool) :
    (pass.frontier p i q b).1 < s.trail.assigned ∨
      (pass.frontier p i q b).1 = s.trail.assigned ∧ (pass.frontier p i q b).2 = 0 := by
  simp only [Pass.frontier]
  split
  · exact Or.inl hp
  · rcases Nat.lt_or_eq_of_le h.place with hlt | he
    · exact Or.inl hlt
    · refine Or.inr ⟨he, ?_⟩
      rcases h.offset with hz | hlt
      · exact hz
      · omega

/-- A literal that an attached clause forces goes onto the trail. -/
theorem Coherent.derive {t : Trail} (h : Coherent n F body A s) (hc : c ∈ A)
    (hl : s.arena.literals c = b :: rest) (hrest : ∀ m ∈ rest, m ∈ s.trail.falsified)
    (hw : t.Wf n) (hent : t.entries = s.trail.entries ++ [⟨-b, some c⟩])
    (hfo : t.forced = s.trail.forced) (hmk : ∀ m, t.Marked m → s.trail.Marked m) (log : Log)
    (counters : Counters) : Coherent n F body A { s with trail := t, log, counters } ∧
      Grew A s { s with trail := t, log, counters } := by
  have hgr : Grounded s.arena t.entries := by
    rw [hent]
    apply h.grounded.push
    intro d hd
    cases hd
    refine ⟨(h.attached c hc).1, rest, by simpa using hl, ?_⟩
    rwa [Trail.map_literal_entries]
  refine ⟨⟨h.stored, h.attached, h.watched, hw, hgr⟩, ⟨rfl, rfl, rfl, rfl⟩, fun _ => Iff.rfl,
    fun _ _ => rfl, ⟨_, hent, ?_⟩, hfo, hmk, ?_⟩
  · intro e he
    cases List.mem_singleton.mp he
    exact ⟨c, hc, rfl⟩
  · intro d _ j hj hs
    have htake : t.falsified.take j = s.trail.falsified.take j := by
      rw [Trail.falsified_of_append hent,
        List.take_append_of_le_length (by rwa [Trail.length_falsified])]
    simpa only [htake] using hs

/-- A clause that put the other one of its watched literals onto the trail is passed. -/
theorem Advanced.derive {t : Trail} (hadv : Advanced A (pass.frontier p i q) s)
    (h : Coherent n F body A s) (hwait : Waiting s p q) (hp : s.trail.falsified[p]? = some l)
    (hl : s.arena.literals c = b :: l :: rest) (hb : b ∉ s.trail.falsified)
    (hw : (s.watches.watchers l)[i]? = some ⟨c, s.arena.inCore c⟩)
    (hfal : t.falsified = s.trail.falsified ++ [-b]) :
    Advanced A (pass.frontier p (i + 1) q) { s with trail := t } := by
  have hlt := (List.getElem?_eq_some_iff.mp hp).1
  have hadv' : Advanced A (pass.frontier p i q) { s with trail := t } :=
    hadv.push h hfal rfl rfl (hwait.behind (by rwa [← Trail.length_falsified]))
  refine hadv'.skip (l := l) ?_ hw fun _ y hy => ?_
  · simp only [hfal]
    rw [List.getElem?_append_left hlt, hp]
  · rw [show s.arena.literals _ = _ from hl] at hy
    rcases pair_cons.mp hy with ⟨rfl, rfl⟩ | ⟨-, rfl⟩
    · exact (hb (List.mem_of_getElem? hp)).elim
    · simp [hfal]

theorem finds_deriveFirst (h : Coherent n F body A s)
    (hadv : Advanced A (pass.frontier p i q) s) (hwait : Waiting s p q) (hc : c ∈ A)
    (hp : s.trail.falsified[p]? = some l)
    (hl : s.arena.literals c = b :: l :: rest) (hmin : b.val ≠ Int32.minValue)
    (hb : -b ∉ s.trail.falsified) (hrest : ∀ m ∈ rest, m ∈ s.trail.falsified)
    (hw : (s.watches.watchers l)[i]? = some ⟨c, s.arena.inCore c⟩) :
    Finds F R (Blocked n F body A s) (Search.deriveFirst l c) s fun v s' => v ≠ .kept ∧
      v ≠ .conflict ∧ Coherent n F body A s' ∧ Visited body A pass p i q l s s' v := by
  have hh := (h.attached c hc).1
  have hlf : l ∈ s.trail.falsified := List.mem_of_getElem? hp
  have hmem : b ∈ s.arena.literals c := by simp [hl]
  have hsmall := h.stored.small_literal hh hmem
  have htail : ∀ m ∈ l :: rest, m ∈ s.trail.falsified := by
    intro m hm
    rcases List.mem_cons.mp hm with rfl | hm
    · exact hlf
    · exact hrest m hm
  simp only [Search.deriveFirst, literalOf, isFalseNow, finds_bind, finds_lift, ends_ask,
    hh.literal (i := 0) (l := b) (by simp [hl]), h.trail.isFalse hsmall, yields_ok, finds_ite,
    decide_eq_true_eq]
  split
  · rename_i hbf
    simp only [ends_emit, finds_stop]
    refine ⟨⟨h.stored, h.attached, h.watched, h.trail, h.grounded⟩,
      grew_note A s _ s.counters, hc, fun m hm => ?_⟩
    rw [hl] at hm
    rcases List.mem_cons.mp hm with rfl | hm
    · exact hbf
    · exact htail m hm
  · rename_i hbf
    have hproper := Stored.proper_literal hh hmem hmin
    obtain ⟨t, hassign, hwf, hent, -, hfo, hmk⟩ := h.trail.assign hproper hsmall hbf hb (some c)
    have hfal : t.falsified = s.trail.falsified ++ [-b] := Trail.falsified_of_append hent
    simp only [ends_emit, ends_onTrail, hassign, yields_ok, ends_count, finds_pure]
    obtain ⟨h', hg⟩ := h.derive hc hl htail hwf hent hfo (fun m => (hmk m).mp)
      (s.log.push (.propagated b c)) s.counters.countPropagation
    refine ⟨by simp, by simp, h', hg, hadv.derive h hwait hp hl hbf hw hfal, ?_, rfl⟩
    show s.trail.assigned < t.assigned
    rw [← Trail.length_falsified, ← Trail.length_falsified, hfal]
    simp

theorem finds_rewatch (h : Coherent n F body A s)
    (hadv : Advanced A (pass.frontier p i q) s) (hwait : Waiting s p q) (hc : c ∈ A)
    (hp : s.trail.falsified[p]? = some l)
    (hl : s.arena.literals c = b :: l :: rest) (hmin : b.val ≠ Int32.minValue)
    (hb : -b ∉ s.trail.falsified)
    (hw : (s.watches.watchers l)[i]? = some ⟨c, s.arena.inCore c⟩) :
    Finds F R (Blocked n F body A s) (Search.rewatch l i c) s fun v s' => v ≠ .kept ∧
      v ≠ .conflict ∧ Coherent n F body A s' ∧ Visited body A pass p i q l s s' v := by
  have hh := (h.attached c hc).1
  have hlf : l ∈ s.trail.falsified := List.mem_of_getElem? hp
  have hmem : ∀ m ∈ rest, m ∈ s.arena.literals c := fun m hm => by simp [hl, hm]
  have hsmall : ∀ m ∈ rest, m.var.index ≤ n := fun m hm => h.stored.small_literal hh (hmem m hm)
  simp only [Search.rewatch, replacement, finds_bind, finds_lift, ends_ask, yields_bind,
    hh.body (i := 2) (by simp [hl]), yields_ok]
  rw [hl]
  refine yields_firstUnfalsified h.trail hsmall ?_ ?_
  · exact fun hall => finds_deriveFirst h hadv hwait hc hp hl hmin hb hall hw
  · intro front m back he hm
    obtain ⟨pre, post, hsplit, rfl⟩ := exists_eq_append_cons hw
    have hl₀ : s.arena.literals c = b :: l :: (front ++ m :: back) := by rw [hl, he]
    have hbm : b ≠ m := by
      have hnd := h.stored.nodup_literals hh
      rw [hl₀] at hnd
      rintro rfl
      simp at hnd
    simp only [finds_bind, finds_lift]
    refine (ends_moveWatcher h hc hl₀ hb hsplit).mono ?_
    rintro - s' ⟨h', hsh, hl', left, hleft, hperm, hother⟩
    have hpair : Pair (s.arena.literals c) b l := ⟨rest, Or.inl hl⟩
    have hadv' := hadv.move h hwait hc hp hpair hl' hbm hm hsh hsplit hleft hperm hother
    refine ⟨by simp, by simp, h', ?_, hadv', by rw [hsh.trail], ?_⟩
    · refine hsh.grew (fun d hd => (h.attached d hd).1) fun j hset => ?_
      -- Neither watched literal of a settled clause can be false here: `l` is not true.
      rw [hl']
      refine settled_of_not_mem ?_ fun hm' => hm (List.mem_of_mem_take hm')
      exact fun hbf => h.trail.not_mem_neg hlf (List.mem_of_mem_take (hset b l hpair hbf))
    · rw [hleft, hsplit]
      simp [hperm.length_eq]
      omega

/-- A visit up to the search for another literal to watch; whether it comes to that. -/
def approach (l : Literal) (c : Handle) : CheckM Bool := do
  let first ← literalOf c 0
  let second ← literalOf c 1
  if ← ask (eitherTrue first second) then return false
  else
    bringBack l c first
    return true

theorem visit_eq (l : Literal) (i : Nat) (c : Handle) : visit l i c = do
    if ← approach l c then rewatch l i c else return .kept := by
  simp only [visit, approach, bind_assoc]
  refine bind_congr fun first => bind_congr fun second => bind_congr fun b => ?_
  cases b <;> simp

theorem finds_visit_iff {H : Handle → State → Prop} {Q : Visit → State → Prop} :
    Finds F R H (Search.visit l i c) s Q ↔ Ends F R (approach l c) s fun b s' =>
      Finds F R H (if b then Search.rewatch l i c else pure .kept) s' Q := by
  simp [Search.visit, approach, -bind_pure_comp]

/-- What is known before the search for another literal to watch, or where there is none. -/
def Approached (n : Nat) (F : Prop) (body : Handle → Clause) (A : Set Handle) (l : Literal)
    (c : Handle) (s s' : State) : Bool → Prop
  | false => s' = s ∧ ∀ y, Pair (s.arena.literals c) l y → -y ∈ s.trail.falsified
  | true => Coherent n F body A s' ∧ Shuffled c s s' ∧ s'.watches = s.watches ∧
      ∃ b rest, Pair (s.arena.literals c) b l ∧ s'.arena.literals c = b :: l :: rest ∧
        b.val ≠ Int32.minValue ∧ -b ∉ s.trail.falsified

theorem ends_approach (h : Coherent n F body A s) (hlf : l ∈ s.trail.falsified) (hc : c ∈ A)
    (htake : l ∈ (s.arena.literals c).take 2) :
    Ends F R (approach l c) s fun b s' => Approached n F body A l c s s' b := by
  obtain ⟨hh, hlen⟩ := h.attached c hc
  obtain ⟨x, y, rest, hl, hne, hx, hy⟩ := h.watches hh hlen
  rw [hl] at htake
  have hxy : l = x ∨ l = y := by simpa using htake
  simp only [approach, literalOf, ends_bind, ends_ask,
    hh.literal (i := 0) (l := x) (by simp [hl]), hh.literal (i := 1) (l := y) (by simp [hl]),
    yields_ok]
  refine yields_eitherTrue h.trail hx hy (h.stored.least_literal hh (by simp [hl]))
    (h.stored.least_literal hh (by simp [hl])) ?_ ?_
  · intro ht
    simp only [if_true, ends_pure]
    refine ⟨rfl, fun z hz => ?_⟩
    have hln := h.trail.not_mem_neg hlf
    rw [hl] at hz
    rcases pair_cons.mp hz with ⟨rfl, rfl⟩ | ⟨rfl, rfl⟩
    · exact ht.resolve_left hln
    · exact ht.resolve_right hln
  · intro hmx hmy hxt hyt
    simp only [Bool.false_eq_true, if_false, ends_bind, ends_pure]
    refine (ends_bringBack h hc hl hxy (h.not_reason (by simpa [hl] using hxt))).mono ?_
    rintro - s₁ ⟨h₁, hsh, hws, b, hpair, hl₁⟩
    refine ⟨h₁, hsh, hws, b, rest, hpair, hl₁, ?_⟩
    rw [hl] at hpair
    rcases pair_cons.mp hpair with ⟨rfl, -⟩ | ⟨rfl, -⟩
    · exact ⟨hmx, hxt⟩
    · exact ⟨hmy, hyt⟩

theorem finds_visit (h : Coherent n F body A s)
    (hf : s.trail.forced ≤ s.trail.assigned) (hadv : Advanced A (pass.frontier p i q) s)
    (hwait : Waiting s p q) (hp : s.trail.falsified[p]? = some l)
    (hw : (s.watches.watchers l)[i]? = some w) :
    Finds F R (Blocked n F body A s) (Search.visit l i w.clause) s fun v s' =>
      v ≠ .conflict ∧ Coherent n F body A s' ∧ Visited body A pass p i q l s s' v := by
  obtain ⟨hc, hcore, htake⟩ := (h.watched.mem_iff l w).mp
    (List.mem_of_getElem? hw)
  obtain ⟨c, core⟩ := w
  simp only at hc hcore htake ⊢
  subst hcore
  rw [finds_visit_iff]
  refine (ends_approach h (List.mem_of_getElem? hp) hc htake).mono ?_
  intro goesOn s₁ happ
  cases goesOn with
  | false =>
    obtain ⟨rfl, htrue⟩ := happ
    exact ⟨by simp, h, rfl, hadv.skip hp hw fun _ => htrue⟩
  | true =>
    obtain ⟨h₁, hsh, hws, b, rest, hpair, hl₁, hmin, hb⟩ := happ
    have hpairs : ∀ d ∈ A, ∀ u v, Pair (s₁.arena.literals d) u v →
        Pair (s.arena.literals d) u v := by
      intro d hd u v huv
      by_cases he : d = c
      · subst he
        rw [hl₁] at huv
        rcases pair_cons.mp huv with ⟨rfl, rfl⟩ | ⟨rfl, rfl⟩
        · exact hpair
        · exact hpair.symm
      · rwa [hsh.kept.literals d (h.attached d hd).1 he] at huv
    have hg : Grew A s s₁ := hsh.grew (fun d hd => (h.attached d hd).1) fun j hset u v huv hu =>
      hset u v (hpairs c hc u v huv) hu
    have hadv₁ := hadv.turn hsh.trail hws hpairs fun d hd => hsh.inCore_eq (h.attached d hd).1
    refine (finds_rewatch h₁ hadv₁ (hwait.grew hg) hc (by rw [hsh.trail]; exact hp) hl₁ hmin
      (by rw [hsh.trail]; exact hb) (by rw [hws, hsh.inCore]; exact hw)).mono
      (fun _ _ hb => hb.of_grew hg) ?_
    rintro v s' ⟨hk, hv, h', hvis⟩
    exact ⟨hv, h', hvis.of_grew hk hg hf hsh.trail hws⟩

theorem ends_visit (h : Coherent n F body A s) (ha : Anchored body A s.trail.entries)
    (hf : s.trail.forced ≤ s.trail.assigned) (hadv : Advanced A (pass.frontier p i q) s)
    (hwait : Waiting s p q) (hp : s.trail.falsified[p]? = some l)
    (hw : (s.watches.watchers l)[i]? = some w) :
    Ends F R (visit l i w.clause) s fun v s' => Coherent n F body A s' ∧
      Visited body A pass p i q l s s' v := by
  rw [← Search.explained_visit]
  exact (finds_visit h hf hadv hwait hp hw).explained fun _ _ hb => hb.ends_explain ha hf

/-- What came of a sweep over the list of `l`. -/
def SweptTo (body : Handle → Clause) (A : Set Handle) (pass : Pass) (p : Nat) (q : Nat × Nat)
    (l : Literal) (s s' : State) : Swept → Prop
  | .finished => Grew A s s' ∧
      Advanced A (pass.frontier p (s'.watches.watchers l).length q) s' ∧
      (pass.pauses = true → s'.trail.assigned = s.trail.assigned)
  | .paused next => Grew A s s' ∧ Advanced A (pass.frontier p next q) s' ∧
      s.trail.assigned < s'.trail.assigned ∧ pass.pauses = true
  | .conflict => Refuted body A s s'

theorem SweptTo.of_grew {s₁ : State} {r : Swept} (h : SweptTo body A pass p q l s₁ s' r)
    (hg : Grew A s s₁) (hf : s.trail.forced ≤ s.trail.assigned)
    (ha : pass.pauses = true → s₁.trail.assigned = s.trail.assigned) :
    SweptTo body A pass p q l s s' r := by
  cases r with
  | finished => exact ⟨hg.trans h.1, h.2.1, fun hp => (h.2.2 hp).trans (ha hp)⟩
  | paused next =>
    exact ⟨hg.trans h.1, h.2.1, Nat.lt_of_le_of_lt hg.assigned_le h.2.2.1, h.2.2.2⟩
  | conflict => exact hg.refuted h hf

theorem finds_sweepFrom {k : Nat} (h : Coherent n F body A s)
    (hf : s.trail.forced ≤ s.trail.assigned) (hadv : Advanced A (pass.frontier p i q) s)
    (hwait : Waiting s p q) (hp : s.trail.falsified[p]? = some l)
    (hk : k + i = (s.watches.watchers l).length) :
    Finds F R (Blocked n F body A s) (Search.sweepFrom pass l k i) s fun r s' =>
      r ≠ .conflict ∧ Coherent n F body A s' ∧ SweptTo body A pass p q l s s' r := by
  induction k generalizing s i with
  | zero =>
    have hi : i = (s.watches.watchers l).length := by omega
    exact ⟨by simp, h, Grew.refl A s, hi ▸ hadv, fun _ => rfl⟩
  | succ k ih =>
    have hlt : i < (s.watches.watchers l).length := by omega
    obtain ⟨w, hw⟩ : ∃ w, (s.watches.watchers l)[i]? = some w :=
      ⟨_, List.getElem?_eq_getElem hlt⟩
    have hat := h.watched.fits.watcher (h.trail.small l (List.mem_of_getElem? hp)) hw
    simp only [Search.sweepFrom, finds_bind, finds_lift, ends_ask, hat, yields_ok, finds_ite,
      Pass.visits_eq]
    split
    · refine (finds_visit h hf hadv hwait hp hw).mono (fun _ _ hb => hb) ?_
      rintro v s₁ ⟨hne, h₁, hv⟩
      cases v with
      | kept =>
        obtain ⟨rfl, hadv₁⟩ := hv
        exact ih h hf hadv₁ hwait hp (by omega)
      | moved =>
        obtain ⟨hg, hadv₁, hsize, hlen⟩ := hv
        refine (ih h₁ (hg.forced_le hf) hadv₁ (hwait.grew hg)
          (hg.getElem? hp) (by omega)).mono (fun _ _ hb => hb.of_grew hg) ?_
        exact fun r s' hr => ⟨hr.1, hr.2.1, hr.2.2.of_grew hg hf fun _ => hsize⟩
      | derived =>
        obtain ⟨hg, hadv₁, hsize, hws⟩ := hv
        simp only [finds_ite, finds_pure]
        split
        · rename_i hpause
          exact ⟨by simp, h₁, hg, hadv₁, hsize, hpause⟩
        · rename_i hpause
          refine (ih h₁ (hg.forced_le hf) hadv₁ (hwait.grew hg)
            (hg.getElem? hp) (by rw [hws]; omega)).mono (fun _ _ hb => hb.of_grew hg) ?_
          exact fun r s' hr =>
            ⟨hr.1, hr.2.1, hr.2.2.of_grew hg hf fun hpa => (hpause hpa).elim⟩
      | conflict => exact (hne rfl).elim
    · rename_i hno
      exact ih h hf (hadv.skip hp hw fun ht => (hno ht).elim) hwait hp (by omega)

theorem finds_sweep (h : Coherent n F body A s)
    (hf : s.trail.forced ≤ s.trail.assigned) (hadv : Advanced A (pass.frontier p i q) s)
    (hwait : Waiting s p q) (hp : s.trail.falsified[p]? = some l) :
    Finds F R (Blocked n F body A s) (Search.sweep pass l i) s fun r s' =>
      r ≠ .conflict ∧ Coherent n F body A s' ∧ SweptTo body A pass p q l s s' r := by
  simp only [Search.sweep, finds_bind, finds_lift, ends_ask,
    h.watched.fits.length (h.trail.small l (List.mem_of_getElem? hp)), yields_ok]
  rcases Nat.le_total i (s.watches.watchers l).length with hi | hi
  · exact finds_sweepFrom h hf hadv hwait hp (by omega)
  · rw [Nat.sub_eq_zero_of_le hi]
    exact ⟨by simp, h, Grew.refl A s, hadv.clamp hp hi, fun _ => rfl⟩

end UnsatCore.Engine
