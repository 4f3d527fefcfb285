import UnsatCore.Engine.Justification
import UnsatCore.Proofs.Replay
import Mathlib.Order.BooleanAlgebra.Set

/-! The second pass goes back along the chronicle. Each line gives back the clauses and the trail
that were there before it, and there a lemma of the core is checked against all that was live. -/
namespace UnsatCore.Engine

open CheckM

variable {L : Ledger} {past : List Frame} {fr : Frame} {A B : Set Handle} {s s' s₁ : State}
  {c h : Handle} {R : Rejection → State → Prop} {coreFirst : Bool} {l : Literal} {ls k : Clause}
  {es new : List Entry} {n : Nat} {F : Prop} {body : Handle → Clause}

section Assumption

/-- Literals of `k` were made false for the time being. -/
structure Assumed (k : Clause) (s s' : State) : Prop where
  onTrail : s' = { s with trail := s'.trail }
  entries : ∃ new, s'.trail.entries = s.trail.entries ++ new ∧
    ∀ e ∈ new, e.reason = none ∧ e.literal ∈ k
  processed : s'.trail.processed = s.trail.processed
  forced : s'.trail.forced = s.trail.forced

theorem Assumed.refl (k : Clause) (s : State) : Assumed k s s :=
  ⟨rfl, ⟨[], by simp, by simp⟩, rfl, rfl⟩

theorem Assumed.trans (h : Assumed k s s₁) (h' : Assumed k s₁ s') : Assumed k s s' := by
  obtain ⟨new, he, hn⟩ := h.entries
  obtain ⟨new', he', hn'⟩ := h'.entries
  refine ⟨?_, ⟨new ++ new', by rw [he', he, List.append_assoc], ?_⟩,
    h'.processed.trans h.processed, h'.forced.trans h.forced⟩
  · rw [h'.onTrail, h.onTrail]
  · intro e hmem
    rcases List.mem_append.mp hmem with hmem | hmem
    · exact hn e hmem
    · exact hn' e hmem

theorem Assumed.arena (h : Assumed k s s') : s'.arena = s.arena := by rw [h.onTrail]

theorem Assumed.framed (h : Assumed k s s') : Framed s s' := by
  rw [h.onTrail]
  exact ⟨rfl, rfl, rfl, rfl⟩

theorem Assumed.isPrefix (h : Assumed k s s') : s.trail.entries <+: s'.trail.entries := by
  obtain ⟨new, he, -⟩ := h.entries
  rw [he]
  exact List.prefix_append _ _

theorem Assumed.take_falsified (h : Assumed k s s') {j : Nat} (hj : j ≤ s.trail.assigned) :
    s'.trail.falsified.take j = s.trail.falsified.take j := by
  obtain ⟨new, he, -⟩ := h.entries
  rw [Trail.take_falsified, he, List.take_append_of_le_length (by rwa [Trail.length_entries]),
    ← Trail.take_falsified]

/-- A reason was one before. -/
theorem Assumed.reason (h : Assumed k s s') {e : Entry} (he : e ∈ s'.trail.entries)
    (hr : e.reason = some c) : e ∈ s.trail.entries := by
  obtain ⟨new, hent, hn⟩ := h.entries
  rw [hent] at he
  rcases List.mem_append.mp he with he | he
  · exact he
  · rw [(hn e he).1] at hr
    cases hr

/-- What has no reason was assumed. -/
theorem Assumed.mem (h : Assumed k s s') (hs : ∀ e ∈ s.trail.entries, e.reason ≠ none)
    {e : Entry} (he : e ∈ s'.trail.entries) (hr : e.reason = none) : e.literal ∈ k := by
  obtain ⟨new, hent, hn⟩ := h.entries
  rw [hent] at he
  rcases List.mem_append.mp he with he | he
  · exact (hs e he hr).elim
  · exact (hn e he).2

theorem Assumed.anchored (h : Assumed k s s') (ha : Anchored body A s.trail.entries) :
    Anchored body A s'.trail.entries := fun e he c hr hlen =>
  ha e (h.reason he hr) c hr hlen

theorem Assumed.assigned_le (h : Assumed k s s') : s.trail.assigned ≤ s'.trail.assigned := by
  rw [← Trail.length_entries, ← Trail.length_entries]
  exact h.isPrefix.length_le

theorem Assumed.falsified (h : Assumed k s s') (hl : l ∈ s.trail.falsified) :
    l ∈ s'.trail.falsified := by
  rw [← Trail.map_literal_entries] at hl ⊢
  exact (h.isPrefix.map Entry.literal).subset hl

/-- What was settled is ready to be propagated further. -/
theorem Assumed.poised (h : Assumed k s s') (hp : s.trail.processed = s.trail.assigned)
    (hset : ∀ d ∈ A, Settled s.trail.falsified (s.arena.literals d)) : Poised A s' := by
  intro d hd x y hxy hx
  rw [h.processed, hp, h.take_falsified (Nat.le_refl _), ← Trail.length_falsified,
    List.take_length] at hx
  exact h.falsified (hset d hd x y (h.arena ▸ hxy) hx)

theorem ends_assume (hs : Coherent n F body A s) (hp : ∀ l ∈ ls, l.Proper)
    (hsm : ∀ l ∈ ls, l.var.index ≤ n) (hk : ∀ l ∈ ls, l ∈ k) :
    Ends F R (assume ls) s fun r s' => Coherent n F body A s' ∧ Assumed k s s' ∧
      (∀ m, s'.trail.Marked m → s.trail.Marked m) ∧
      match r with
      | .refuted l => l ∈ k ∧ -l ∈ s'.trail.falsified
      | .consistent => ∀ l ∈ ls, l ∈ s'.trail.falsified := by
  induction ls generalizing s with
  | nil => exact ⟨hs, Assumed.refl k s, fun _ hm => hm, by simp⟩
  | cons l ls ih =>
    have hpl := hp l (by simp)
    have hsl := hsm l (by simp)
    have ih : ∀ {s : State}, Coherent n F body A s → _ := fun hs =>
      ih hs (fun m hm => hp m (by simp [hm])) (fun m hm => hsm m (by simp [hm]))
        fun m hm => hk m (by simp [hm])
    simp only [assume, isFalseNow, isTrueNow, ends_bind, ends_ask, hs.trail.isFalse hsl, yields_ok,
      ends_ite, decide_eq_true_eq, hs.trail.isTrue hsl hpl.2, ends_pure, ends_onTrail]
    split
    · rename_i hf
      refine (ih hs).mono ?_
      rintro r s' ⟨hs', ha, hmk, hr⟩
      refine ⟨hs', ha, hmk, ?_⟩
      cases r with
      | refuted m => exact hr
      | consistent => exact List.forall_mem_cons.mpr ⟨ha.falsified hf, hr⟩
    · rename_i hf
      split
      · rename_i ht
        exact ⟨hs, Assumed.refl k s, fun _ hm => hm, hk l (by simp), ht⟩
      · rename_i ht
        obtain ⟨t, hassign, hw, hent, hpr, hfo, hmk⟩ := hs.trail.assign hpl.neg
          (by simpa using hsl) ht (by simpa using hf) none
        rw [Literal.neg_neg] at hent
        have hg : Grounded s.arena t.entries := by
          rw [hent]
          exact hs.grounded.push (by simp)
        have ha₁ : Assumed k s { s with trail := t } :=
          ⟨rfl, ⟨_, hent, by simp [hk l]⟩, hpr, hfo⟩
        rw [hassign]
        refine (ih (hs.withTrail hw hg)).mono ?_
        rintro r s' ⟨hs', ha, hmk', hr⟩
        refine ⟨hs', ha₁.trans ha, fun m hm => (hmk m).mp (hmk' m hm), ?_⟩
        cases r with
        | refuted m => exact hr
        | consistent =>
          refine List.forall_mem_cons.mpr ⟨ha.falsified ?_, hr⟩
          rw [← Trail.map_literal_entries]
          simp [hent]

end Assumption

section Derivability

variable {C : Set Handle}

/-- The clause `h` follows by unit propagation from clauses that are in the core now. -/
structure Derived (body : Handle → Clause) (A : Set Handle) (h : Handle) (s s' : State) : Prop
    extends Unwound A s s' where
  follows : ∃ C, Sources body A s C ∧
    (∀ d, s.arena.Has d → (s'.arena.inCore d = true ↔ s.arena.inCore d = true ∨ d ∈ C)) ∧
    ∀ g, Lists body C g → (body h).FollowsFrom g

theorem Assumed.sources (h : Assumed k s s₁) (hC : Sources body A s₁ C) : Sources body A s C where
  has := fun d hd => h.arena ▸ hC.has d hd
  known := fun d hd => (hC.known d hd).imp_right fun ⟨e, he, hr⟩ => ⟨e, h.reason he hr, hr⟩
  proper := hC.proper

theorem Assumed.unwound (h : Assumed k s s₁) (hu : Unwound A s₁ s')
    (hf : s.trail.forced ≤ s.trail.assigned) : Unwound A s s' := by
  have hb := hu.backtracked
  refine ⟨⟨h.framed.trans hb.framed, ?_, hb.processed.trans h.forced, hb.forced.trans h.forced,
    hb.unmarked⟩, fun d => (hu.has d).trans (by rw [h.arena]), ?_⟩
  · obtain ⟨new, he, -⟩ := h.entries
    rw [hb.entries, h.forced, he, List.take_append_of_le_length (by rwa [Trail.length_entries])]
  · intro c hc j hj hset
    refine hu.settled c hc j (h.forced ▸ hj) ?_
    rw [h.take_falsified (Nat.le_trans hj hf), h.arena]
    exact hset

/-- Unit propagation from the negation of a clause met a conflict. -/
theorem Assumed.derived_of_refuted (h : Assumed (body c) s s₁) (hr : Refuted body A s₁ s')
    (hf : s.trail.forced ≤ s.trail.assigned) (hs : ∀ e ∈ s.trail.entries, e.reason ≠ none) :
    Derived body A c s s' := by
  obtain ⟨C, hC, hcore, hg⟩ := hr.conflict
  refine ⟨h.unwound hr.toUnwound hf, C, h.sources hC, h.arena ▸ hcore, ?_⟩
  intro g hl
  refine Or.inr (hg g _ hl fun e he hn => ?_)
  rw [Clause.negated, Literal.neg_neg]
  exact h.mem hs he hn

/-- A literal of a clause is true where the clause is assumed to be false. -/
theorem Traced.followsFrom {a : Arena} {K : Set Literal} {g : Formula} (h : Traced a es K C)
    (hb : Stored n F body a) (hgr : Grounded a es)
    (hs : ∀ e ∈ es, e.reason = none → e.literal ∈ k) (hl : l ∈ k) (hK : -l ∈ K)
    (hg : Lists body C g) : k.FollowsFrom g := by
  have hstart : ∀ e ∈ es, e.reason = none → k.negated (-e.literal) := by
    intro e he hn
    rw [Clause.negated, Literal.neg_neg]
    exact hs e he hn
  obtain ⟨e, he, hel⟩ := List.mem_map.mp (h.subset _ hK)
  cases hr : e.reason with
  | none => exact Or.inl ⟨l, hl, hel ▸ hs e he hr⟩
  | some c =>
    -- The reason of the literal is the conflict: its other literals are false, and so is this one.
    obtain ⟨hc, htail⟩ := h.closed e he (hel ▸ hK) c hr
    obtain ⟨d, hd, hsame⟩ := hg c hc
    obtain ⟨rest, hlit⟩ := hgr.head he hr
    rw [hel, Literal.neg_neg] at hlit
    refine Or.inr ⟨d, hd, fun m hm => ?_⟩
    have hm' : m ∈ a.literals c := (hb.mem_iff (hgr.has he hr)).mpr ((hsame m).mpr hm)
    rw [hlit, List.mem_cons] at hm'
    rcases hm' with rfl | hm'
    · refine .given ?_
      rw [Clause.negated, Literal.neg_neg]
      exact hl
    · exact h.implied_of_mem hb hgr hg hstart (htail m (by simpa [hlit] using hm'))

/-- The explanation of a literal that is true although the clause `c` is assumed to be false. -/
theorem ends_explainTrue (hs₁ : Coherent n F body A s₁) (h : Assumed (body c) s s₁)
    (ha : Anchored body A s.trail.entries) (hf : s.trail.forced ≤ s.trail.assigned)
    (hs : ∀ e ∈ s.trail.entries, e.reason ≠ none) (hl : l ∈ body c)
    (ht : -l ∈ s₁.trail.falsified) :
    Ends F R (do onTrail (·.mark (-l)); traceReasons) s₁ fun _ s' =>
      Coherent n F body A s' ∧ Derived body A c s s' := by
  obtain ⟨t, hmark, hw, hent, hp, hfo, hm⟩ := hs₁.trail.mark ht
  have h₂ : Assumed (body c) s { s₁ with trail := t } := by
    refine h.trans ⟨rfl, ⟨[], by simp [hent], by simp⟩, hp, hfo⟩
  have hs₂ : Coherent n F body A { s₁ with trail := t } :=
    hs₁.withTrail hw (by rw [hent]; exact hs₁.grounded)
  have hle := h₂.assigned_le
  rw [← h₂.forced] at hf
  simp only [ends_bind, ends_onTrail, hmark, yields_ok]
  refine (ends_traceReasons hs₂ (h₂.anchored ha) (Nat.le_trans hf hle)).mono ?_
  rintro - s' ⟨hs', hb, hentered⟩
  have hen := hentered.enlarged
  have htr := traced_reached (M := t.Marked) hs₂.grounded
  have hmem : -l ∈ t.entries.map Entry.literal := by
    rw [hent, Trail.map_literal_entries]
    exact ht
  have hu : Unwound A { s₁ with trail := t } s' :=
    ⟨hb, hen.has, fun d hd j hj => hb.settled hen (hs₂.attached d hd).1 hj⟩
  refine ⟨hs', h₂.unwound hu (h₂.forced ▸ hf), _, h₂.sources (htr.sources hs₂),
    h₂.arena ▸ hen.inCore, ?_⟩
  intro g hg
  exact htr.followsFrom hs₂.stored hs₂.grounded (fun e he hn => h₂.mem hs he hn) hl
    ⟨hmem, .marked ((hm _).mpr (Or.inl rfl))⟩ hg

/-- All clauses are settled where `c` is false: unit propagation does not derive `c`. -/
def Undecided (A : Set Handle) (c : Clause) (s s' : State) : Prop :=
  Framed s s' ∧ (∀ d, s'.arena.Has d ↔ s.arena.Has d) ∧
    (∀ d ∈ A, Settled s'.trail.falsified (s'.arena.literals d)) ∧
    (∀ l ∈ s.trail.falsified, l ∈ s'.trail.falsified) ∧ ∀ l ∈ c, l ∈ s'.trail.falsified

theorem ends_followsByUnits (hs : Coherent n F body A s) (ha : Anchored body A s.trail.entries)
    (hf : s.trail.forced = s.trail.assigned) (hp : s.trail.processed = s.trail.assigned)
    (hset : ∀ d ∈ A, Settled s.trail.falsified (s.arena.literals d))
    (hr : ∀ e ∈ s.trail.entries, e.reason ≠ none) (hc : s.arena.Has c)
    (hpr : ∀ l ∈ body c, l.Proper) :
    Ends F R (followsByUnits coreFirst c) s fun b s' => Coherent n F body A s' ∧
      if b then Derived body A c s s' else Undecided A (body c) s s' := by
  have hmem : ∀ l ∈ s.arena.literals c, l ∈ body c := fun l hl => (hs.stored.mem_iff hc).mp hl
  simp only [followsByUnits, bodyOf, ends_bind, ends_ask, hc.body (Nat.zero_le _), yields_ok,
    List.drop_zero]
  refine (ends_assume (k := body c) hs (fun l hl => hpr l (hmem l hl))
    (fun l hl => hs.stored.small_literal hc hl) hmem).mono ?_
  rintro r s₁ ⟨hs₁, has, -, hr₁⟩
  have hle := has.assigned_le
  cases r with
  | refuted l =>
    have hrun := ends_explainTrue (R := R) hs₁ has ha (Nat.le_of_eq hf) hr hr₁.1 hr₁.2
    simp only [ends_bind] at hrun ⊢
    refine hrun.mono fun _ s₂ h₂ => h₂.mono ?_
    rintro - s' ⟨hs', hd⟩
    exact ⟨hs', by simpa using hd⟩
  | consistent =>
    simp only [ends_bind, ends_pure]
    refine (ends_saturate hs₁ (has.anchored ha) (by rw [has.forced]; omega)
      (by rw [has.processed]; omega) (has.poised hp hset)).mono ?_
    rintro r s' ⟨hs', hsat⟩
    refine ⟨hs', ?_⟩
    cases r with
    | conflict => simpa using has.derived_of_refuted hsat (Nat.le_of_eq hf) hr
    | drained =>
      obtain ⟨new, hfal⟩ := hsat.grew.falsified
      have hsub : ∀ l ∈ s₁.trail.falsified, l ∈ s'.trail.falsified := by
        intro l hl
        rw [hfal]
        exact List.mem_append_left _ hl
      have hund : Undecided A (body c) s s' :=
        ⟨has.framed.trans hsat.grew.framed, fun d => (hsat.grew.has d).trans (by rw [has.arena]),
          hsat.settled, fun l hl => hsub l (has.falsified hl),
          fun l hl => hsub l (hr₁ l ((hs.stored.mem_iff hc).mpr hl))⟩
      simpa using hund

end Derivability

section Withdrawal

theorem ends_detachLong (hs : Coherent n F body (grow body A h) s) (hh : s.arena.Has h)
    (hA : h ∉ A) :
    Ends F R (if 2 ≤ (s.arena.literals h).length then detach h else pure ()) s fun _ s' =>
      Coherent n F body A s' ∧ s' = { s with watches := s'.watches } := by
  have hlen := hs.stored.length hh
  split
  · rename_i hlong
    rw [grow_eq_insert (hlen ▸ hlong)] at hs
    have hrun := ends_detach (R := R) hs (Set.mem_insert h A)
    rwa [Set.insert_sdiff_self_of_notMem hA] at hrun
  · rename_i hshort
    rw [grow_eq_self (hlen ▸ hshort)] at hs
    exact ⟨hs, rfl⟩

/-- The trail without what the clause `h` forced on it, and all that came after. -/
theorem ends_release (hs : Coherent n F body A s) (hh : s.arena.Has h) (hne : body h ≠ [])
    (hent : s.trail.entries = es ++ new)
    (hnew : new = [] ∨ ∃ u more, new = ⟨-u, some h⟩ :: more)
    (hno : ∀ e ∈ es, e.reason ≠ some h) (hf : s.trail.forced = s.trail.assigned)
    (hp : s.trail.processed = s.trail.assigned) :
    Ends F R (do
      let first ← literalOf h 0
      unless first.isZero do
        if (← ask (·.trail.reasonOf first.var)) = some h then onTrail (·.unassign first)) s
      fun _ s' => Coherent n F body A s' ∧ s' = { s with trail := s'.trail } ∧
        s'.trail.entries = es ∧ s'.trail.forced = es.length ∧ s'.trail.processed = es.length ∧
        ∀ m, s'.trail.Marked m → s.trail.Marked m := by
  match hl : s.arena.literals h with
  | [] => exact (hne (hl ▸ hs.stored.perm h hh).nil_eq.symm).elim
  | x :: rest =>
    have hx : x ∈ s.arena.literals h := by simp [hl]
    have hsm := hs.stored.small_literal hh hx
    have hz : x.isZero = false := by simpa [Literal.isZero] using hh.zeroFree x hx
    simp only [literalOf, ends_bind, ends_ask, hh.literal (i := 0) (l := x) (by simp [hl]),
      yields_ok, hz, Bool.false_eq_true, if_false, hs.trail.reasonOf hsm, ends_ite, ends_pure,
      ends_onTrail]
    rcases hnew with rfl | ⟨u, more, rfl⟩
    · rw [List.append_nil] at hent
      have hsize : s.trail.assigned = es.length := by rw [← hent, Trail.length_entries]
      rw [if_neg]
      · exact ⟨hs, trivial, hent, hf.trans hsize, hp.trans hsize, fun _ hm => hm⟩
      · intro hr
        obtain ⟨l, -, hmem⟩ := hs.trail.mem_of_reasonAt hr
        exact hno _ (hent ▸ hmem) rfl
    · have hmem : ⟨-u, some h⟩ ∈ s.trail.entries := by simp [hent]
      obtain ⟨rest', hl'⟩ := hs.grounded.head hmem rfl
      rw [hl, Literal.neg_neg, List.cons.injEq] at hl'
      obtain ⟨rfl, -⟩ := hl'
      have hr := Trail.mem_entries_reason hmem
      rw [Literal.var_neg] at hr
      obtain ⟨t, hrun, hw, hes, hpr, hfo, hmk⟩ := hs.trail.unassign hent
      have hg : Grounded s.arena t.entries := by
        have hg := hs.grounded
        rw [hent] at hg
        rw [hes]
        exact hg.append_left
      rw [if_pos hr, hrun]
      exact ⟨hs.withTrail hw hg, trivial, hes, hfo, hpr, fun m hm => ((hmk m).mp hm).1⟩

/-- The state before a line is the one that the chronicle without the line leads to. -/
theorem Restored.back (hr : Restored L (fr :: past) A s)
    (hco : Coherent L.bound L.excuse L.body fr.attached s')
    (hent : s'.trail.entries = fr.entries)
    (hset : ∀ fr' ∈ past, ∀ c ∈ fr.attached, c ∈ fr'.attached →
      Settled (fr'.entries.map Entry.literal) (s'.arena.literals c))
    (hfo : s'.trail.forced = fr.entries.length) (hpr : s'.trail.processed = fr.entries.length)
    (hum : ∀ m, s'.trail.Marked m → s.trail.Marked m) (hf : Framed s s')
    (hhas : ∀ d, s'.arena.Has d ↔ s.arena.Has d) :
    Restored L past fr.attached s' := by
  have hsize : s'.trail.assigned = fr.entries.length := by rw [← hent, Trail.length_entries]
  refine ⟨hco, hent ▸ hr.chronicle.2.2.2.2, hset, hfo.trans hsize.symm, hpr.trans hsize.symm,
    fun m hm => hr.unmarked m (hum m hm), ?_, hr.records.congr hf.origins hf.steps hhas⟩
  have hsteps := congrArg (List.take past.length) hr.steps
  rw [List.take_take, List.length_cons, Nat.min_eq_left (Nat.le_succ _), carriedOut_cons,
    List.take_left' (by simp)] at hsteps
  rw [hf.steps]
  exact hsteps

/-- A lemma is taken back: the clauses and the trail are those before its line. -/
theorem ends_withdraw (hr : Restored L (fr :: past) A s) (hstep : fr.step = .add h) :
    Ends L.excuse R (withdraw h) s fun _ s' => Restored L past fr.attached s' ∧
      s'.trail.entries = fr.entries ∧ s'.arena = s.arena ∧ s'.justified = s.justified := by
  obtain ⟨hcar, -, -, -, hpast⟩ := hr.chronicle
  have hs := hr.chronicle.addition hstep
  have hfresh : ¬ Involved fr.attached fr.entries h := fun hi => L.not_known hs (hpast.known hi)
  have hh := hr.has_lemma hs
  obtain ⟨new, rfl, hent, hne, -, hnew⟩ := (hstep ▸ hcar).of_add
  simp only [withdraw, watchable, ends_bind, ends_ask, hh.isWatchable, yields_ok,
    decide_eq_true_eq]
  rw [ends_when]
  refine (ends_detachLong hr.coherent hh fun hA => hfresh (Or.inl hA)).mono ?_
  rintro - s₁ ⟨hco, heq⟩
  have harena : s₁.arena = s.arena := by rw [heq]
  have htrail : s₁.trail = s.trail := by rw [heq]
  refine (ends_release hco (harena ▸ hh) hne (htrail ▸ hent) hnew
    (fun e he hre => hfresh (Or.inr ⟨e, he, hre⟩)) (htrail ▸ hr.forced)
    (htrail ▸ hr.processed)).mono ?_
  rintro - s' ⟨hco', heq', hent', hfo, hpr, hum⟩
  have harena' : s'.arena = s.arena := by rw [heq', heq]
  have hframed : Framed s s' := by
    rw [heq', heq]
    exact ⟨rfl, rfl, rfl, rfl⟩
  refine ⟨hr.back hco' hent' ?_ hfo hpr (htrail ▸ hum) hframed (by simp [harena']), hent', harena',
    hframed.justified⟩
  intro fr' hfr' c hc hca
  rw [harena']
  exact hr.boundaries fr' (by simp [hfr']) c (subset_grow hc) hca

end Withdrawal

section Audit

theorem Certified.mono {j : Nat} (hc : Certified L s j)
    (hcore : ∀ d, s.arena.Has d → s.arena.inCore d = true →
      s'.arena.Has d ∧ s'.arena.inCore d = true) : Certified L s' j := by
  obtain ⟨h, C, hs, hC, hp, hg⟩ := hc
  refine ⟨h, C, hs, fun d hd => ?_, hp, hg⟩
  obtain ⟨hh, hin, hk⟩ := hC d hd
  exact ⟨(hcore d hh hin).1, (hcore d hh hin).2, hk⟩

theorem Audited.congr (ha : Audited L past s) (hhas : ∀ d, s'.arena.Has d ↔ s.arena.Has d)
    (hcore : ∀ d, s.arena.Has d → s'.arena.inCore d = s.arena.inCore d)
    (hj : s'.justified = s.justified) : Audited L past s' := by
  have hback : ∀ d, s'.arena.Has d → s'.arena.inCore d = true →
      s.arena.Has d ∧ s.arena.inCore d = true := by
    intro d hd hc
    have hd := (hhas d).mp hd
    exact ⟨hd, hcore d hd ▸ hc⟩
  have hforth : ∀ d, s.arena.Has d → s.arena.inCore d = true →
      s'.arena.Has d ∧ s'.arena.inCore d = true := fun d hd hc =>
    ⟨(hhas d).mpr hd, (hcore d hd).trans hc⟩
  obtain ⟨C, hC, hg⟩ := ha.conflict
  refine ⟨fun d hd hc => ?_, fun d hd hc => ?_, ?_, hj ▸ ha.ordered, C, fun d hd => ?_, hg⟩
  · rw [hj]
    exact ha.source d (hback d hd hc).1 (hback d hd hc).2
  · exact ha.proper d (hback d hd hc).1 (hback d hd hc).2
  · rw [hj]
    exact fun j hm => ⟨(ha.certified j hm).1, (ha.certified j hm).2.mono hforth⟩
  · exact hforth d (hC d hd).1 (hC d hd).2

/-- A line whose lemma, if it has one, is not in the core needs no check. -/
theorem Audited.skip (ha : Audited L (fr :: past) s)
    (hno : ∀ h, fr.step = .add h → s.arena.inCore h = false) : Audited L past s := by
  refine ⟨fun d hd hc => ?_, ha.proper, fun j hj => ?_, ha.ordered, ha.conflict⟩
  · rcases ha.source d hd hc with hm | hj
    · rcases met_cons.mp hm with hm | he
      · exact Or.inl hm
      · rw [hno d he] at hc
        cases hc
    · exact Or.inr hj
  · obtain ⟨hle, hcert⟩ := ha.certified j hj
    rw [List.length_cons] at hle
    exact ⟨by omega, hcert⟩

/-- A lemma was checked, and what it follows from is in the core. -/
theorem Derived.audited (hd : Derived L.body A h s s') (ha : Audited L (fr :: past) s)
    (hstep : fr.step = .add h) (hs : L.steps[past.length]? = some (.add h))
    (hch : Chronicle L past A s.trail.entries) (hpr : ∀ l ∈ L.body h, l.Proper) :
    Audited L past { s' with justified := past.length :: s'.justified } := by
  obtain ⟨C, hC, hcore, hg⟩ := hd.follows
  have hj : s'.justified = s.justified := hd.backtracked.framed.justified
  have hforth : ∀ d, s.arena.Has d → s.arena.inCore d = true →
      s'.arena.Has d ∧ s'.arena.inCore d = true := fun d hh hc =>
    ⟨(hd.has d).mpr hh, (hcore d hh).mpr (Or.inl hc)⟩
  have hback : ∀ d, s'.arena.Has d → s'.arena.inCore d = true →
      (s.arena.Has d ∧ s.arena.inCore d = true) ∨ d ∈ C := by
    intro d hh hc
    have hh := (hd.has d).mp hh
    exact ((hcore d hh).mp hc).imp_left fun hc => ⟨hh, hc⟩
  obtain ⟨D, hD, hconf⟩ := ha.conflict
  refine ⟨fun d hh hc => ?_, fun d hh hc => ?_, fun j hmem => ?_, ?_, D, fun d hmem => ?_, hconf⟩
  · rcases hback d hh hc with ⟨hh, hc⟩ | hmem
    · rcases ha.source d hh hc with hm | ⟨j, hmem, hsj⟩
      · rcases met_cons.mp hm with hm | he
        · exact Or.inl hm
        · rw [hstep, Step.add.injEq] at he
          exact Or.inr ⟨past.length, by simp, he ▸ hs⟩
      · exact Or.inr ⟨j, by simp [hj, hmem], hsj⟩
    · exact Or.inl (hch.met (hC.known d hmem))
  · rcases hback d hh hc with ⟨hh, hc⟩ | hmem
    · exact ha.proper d hh hc
    · exact hC.proper d hmem
  · rcases List.mem_cons.mp hmem with rfl | hmem
    · refine ⟨Nat.le_refl _, h, C, hs, fun d hmem => ?_, hpr, hg⟩
      have hh := hC.has d hmem
      exact ⟨(hd.has d).mpr hh, (hcore d hh).mpr (Or.inr hmem),
        hch.known (hC.known d hmem)⟩
    · obtain ⟨hle, hcert⟩ := ha.certified j (hj ▸ hmem)
      rw [List.length_cons] at hle
      exact ⟨by omega, hcert.mono hforth⟩
  · rw [hj]
    refine List.pairwise_cons.mpr ⟨fun j hmem => ?_, ha.ordered⟩
    have hle := (ha.certified j hmem).1
    rw [List.length_cons] at hle
    omega
  · exact hforth d (hD d hmem).1 (hD d hmem).2

theorem Restored.entries_unwound (hr : Restored L past A s) (hu : Unwound A s s') :
    s'.trail.entries = s.trail.entries := by
  rw [hu.backtracked.entries, hr.forced, ← Trail.length_entries, List.take_length]

theorem Restored.unwound (hr : Restored L past A s) (hu : Unwound A s s')
    (hco : Coherent L.bound L.excuse L.body A s') : Restored L past A s' := by
  have hb := hu.backtracked
  have hent := hr.entries_unwound hu
  have hsize : s'.trail.assigned = s.trail.forced := by
    rw [hr.forced, ← Trail.length_entries, hent, Trail.length_entries]
  refine ⟨hco, hent ▸ hr.chronicle, fun fr hfr c hc hca => ?_, hb.forced.trans hsize.symm,
    hb.processed.trans hsize.symm, fun m hm => hb.unmarked m (hco.trail.mem_of_marked hm) hm,
    by rw [hb.framed.steps]; exact hr.steps,
    hr.records.congr hb.framed.origins hb.framed.steps hu.has⟩
  exact hu.settled_of_isPrefix hc (hent ▸ hr.chronicle.isPrefix hfr) (hr.boundaries fr hfr c hc hca)

end Audit

section Undoing

variable {given : Clause}

/-- The line of the newest frame is undone: the clauses and the trail are those before it, and
everything is settled as it was there. -/
structure Undone (L : Ledger) (past : List Frame) (A : Set Handle) (es : List Entry) (s : State) :
    Prop where
  restored : Restored L past A s
  audited : Audited L past s
  entries : s.trail.entries = es
  settled : ∀ c ∈ A, Settled (es.map Entry.literal) (s.arena.literals c)

theorem Undone.noted (hu : Undone L past A es s) (counters : Counters) (log : Log) :
    Undone L past A es { s with counters, log } :=
  ⟨hu.restored.noted _ _ _, hu.audited.noted _ _, hu.entries, hu.settled⟩

/-- A lemma of the core follows, or it is rightly rejected. -/
theorem ends_check (hb : L.Blames R) (hr : Restored L past A s)
    (hanch : Anchored L.body A s.trail.entries) (hup : Upheld L past A s.trail.entries)
    (hset : ∀ c ∈ A, Settled s.trail.falsified (s.arena.literals c))
    (hs : L.steps[past.length]? = some (.add h)) (hpr : ∀ l ∈ L.body h, l.Proper)
    (hline : L.lines[past.length]? = some (.add given)) (ha : Audited L (fr :: past) s)
    (hstep : fr.step = .add h) :
    Ends L.excuse R (check coreFirst past.length given h) s fun _ s' =>
      Undone L past A s.trail.entries s' := by
  have hh := hr.has_lemma hs
  simp only [check, ends_bind, ends_look, ends_emit]
  have hr₁ := hr.noted s.justified s.counters
    (s.log.push (.checking (s.arena.literals h) past.length))
  refine (ends_followsByUnits hr₁.coherent hanch hr.forced hr.processed hset
    hr.chronicle.reason_ne_none hh hpr).mono ?_
  rintro b s' ⟨hco, hres⟩
  cases b with
  | true =>
    simp only [if_true] at hres
    simp only [if_true, ends_bind, recordJustified, ends_modify, ends_count]
    have haud := hres.audited (ha.noted _ _) hstep hs hr.chronicle hpr
    have hent := hr₁.entries_unwound hres.toUnwound
    refine ⟨(hr₁.unwound hres.toUnwound hco).noted _ _ _, haud.noted _ _, hent, fun c hc => ?_⟩
    refine hres.toUnwound.settled_of_isPrefix hc (hent ▸ List.prefix_refl _) ?_
    rw [Trail.map_literal_entries]
    exact hset c hc
  | false =>
    simp only [Bool.false_eq_true, if_false] at hres ⊢
    obtain ⟨hframed, hhas, hsettled, hfal, hfalse⟩ := hres
    obtain ⟨given', hline', hbody⟩ := L.addition hs
    rw [hline, Option.some_inj, Derivation.Line.add.injEq] at hline'
    refine hb.notImplied _ _ _ (hr.chronicle.unfounded
      (hup.quiet hco hsettled (by simpa using hfal)) (fun l hl => hco.trail.not_mem_neg hl) hline ?_
      (by rw [hframed.steps]; exact hr.steps) hco.stored
      (hr.records.congr hframed.origins hframed.steps hhas))
    intro l hl
    rw [hline', ← Clause.mem_distinct, ← hbody] at hl
    exact hfalse l hl

theorem ends_undoLemma (hb : L.Blames R) (hr : Restored L (fr :: past) A s)
    (ha : Audited L (fr :: past) s) (hstep : fr.step = .add h)
    (hline : L.lines[past.length]? = some (.add given)) :
    Ends L.excuse R (undoLemma coreFirst past.length given h) s fun _ s' =>
      Undone L past fr.attached fr.entries s' := by
  obtain ⟨hcar, hanch, hup, -, -⟩ := hr.chronicle
  have hs := hr.chronicle.addition hstep
  obtain ⟨new, rfl, -, -, hpr, -⟩ := (hstep ▸ hcar).of_add
  simp only [undoLemma, ends_bind]
  refine (ends_withdraw hr hstep).mono ?_
  rintro - s₁ ⟨hr₁, hent, harena, hj⟩
  have hh := hr₁.has_lemma hs
  have ha₁ : Audited L (fr :: past) s₁ :=
    ha.congr (by simp [harena]) (by simp [harena]) hj
  have hset : ∀ c ∈ fr.attached,
      Settled (fr.entries.map Entry.literal) (s₁.arena.literals c) := by
    intro c hc
    rw [harena]
    exact hr.boundaries fr (by simp) c (subset_grow hc) hc
  simp only [ends_ask, hh.isCore, yields_ok, ends_ite, ends_count]
  split
  · have hset₁ := hset
    rw [← hent, Trail.map_literal_entries] at hset₁
    refine (ends_check hb hr₁ (hent ▸ hanch) (hent ▸ hup) hset₁ hs hpr hline ha₁ hstep).mono ?_
    intro _ s₂ hu
    rwa [hent] at hu
  · rename_i hno
    refine Undone.noted ⟨hr₁, ha₁.skip ?_, hent, hset⟩ _ _
    intro d hd
    rw [hstep, Step.add.injEq] at hd
    exact hd ▸ Bool.eq_false_iff.mpr hno

/-- A clause with no true literal that is not about to force one has two literals to watch. -/
theorem two_le_length_of_quiet {fs : List Literal} (hq : Quiet fs k) (hno : ∀ l ∈ k, -l ∉ fs)
    (hls : ∀ l ∈ k, l ∉ fs → l ∈ ls) : 2 ≤ ls.length := by
  rcases hq with ⟨l, hl, ht⟩ | ⟨l, hl, m, hm, hne, hlf, hmf⟩
  · exact (hno l hl ht).elim
  · have hl := hls l hl hlf
    have hm := hls m hm hmf
    match ls with
    | [] => cases hl
    | [x] => exact (hne ((List.mem_singleton.mp hl).trans (List.mem_singleton.mp hm).symm)).elim
    | x :: y :: rest => simp

/-- A clause with two literals in front that are not false was settled at every earlier time. -/
theorem Restored.settled_of_kept {past : List Frame} (hr : Restored L past A s) (hfr : fr ∈ past)
    {ks rest : Clause} (hk : ∀ l ∈ ks, l ∉ s.trail.falsified) (hlen : 2 ≤ ks.length) :
    Settled (fr.entries.map Entry.literal) (ks ++ rest) := by
  have hsub : ∀ l ∈ fr.entries.map Entry.literal, l ∈ s.trail.falsified := by
    rw [← Trail.map_literal_entries]
    exact ((hr.chronicle.isPrefix hfr).map Entry.literal).subset
  obtain ⟨x, y, more, rfl⟩ := exists_watches hlen
  exact settled_of_not_mem (fun hx => hk x (by simp) (hsub x hx))
    fun hy => hk y (by simp) (hsub y hy)

theorem ends_undoDelete (hr : Restored L (fr :: past) A s) (ha : Audited L (fr :: past) s)
    (hstep : fr.step = .delete h) :
    Ends L.excuse R (undoDelete h) s fun _ s' => Undone L past fr.attached fr.entries s' := by
  obtain ⟨hcar, -, -, -, hpast⟩ := hr.chronicle
  obtain ⟨rfl, hent, hA, hq, hno⟩ := (hstep ▸ hcar).of_delete
  have hco := hr.coherent
  have hh : s.arena.Has h :=
    (hr.records.has h).mpr (mem_added_of_take (hpast.known (Or.inl hA)))
  rw [← hent, Trail.map_literal_entries] at hq hno
  have hnr := hco.not_reason fun l hl =>
    hno l ((hco.stored.mem_iff hh).mp (List.mem_of_mem_head? hl))
  simp only [undoDelete, ends_bind]
  refine (ends_sortUnfalsified hco hh (by simp) hnr).mono ?_
  rintro view s₁ ⟨kept, dropped, hco₁, heq, hk, hic, hlit, hsorted, -⟩
  have hfront : ∀ l ∈ L.body h, l ∉ s.trail.falsified → l ∈ kept := fun l hl hlf =>
    hsorted.mem_iff.mpr ⟨(hco.stored.mem_iff hh).mpr hl, hlf⟩
  have htwo := two_le_length_of_quiet hq hno hfront
  have hkept : ∀ l ∈ kept, l ∉ s.trail.falsified := fun l hl => (hsorted.mem_iff.mp hl).2
  have hlen : 2 ≤ (s₁.arena.literals h).length := by
    rw [hlit, List.length_append]
    omega
  refine (ends_attach hco₁ ((hk.has h).mpr hh) hlen (by simp)).mono ?_
  rintro - s' ⟨hco', heq'⟩
  have harena : s'.arena = s₁.arena := by rw [heq']
  have htrail : s'.trail = s.trail := by rw [heq', heq]
  have hframed : Framed s s' := by
    rw [heq', heq]
    exact ⟨rfl, rfl, rfl, rfl⟩
  have hsize : s.trail.assigned = fr.entries.length := by rw [← hent, Trail.length_entries]
  rw [Set.insert_sdiff_self_of_mem hA] at hco'
  have hset : ∀ fr' ∈ fr :: past, ∀ c ∈ fr.attached, c ∈ fr'.attached →
      Settled (fr'.entries.map Entry.literal) (s'.arena.literals c) := by
    intro fr' hfr' c hc hca
    rw [harena]
    by_cases hch : c = h
    · rw [hch, hlit]
      exact hr.settled_of_kept hfr' hkept htwo
    · rw [hk.literals c (hco.attached c ⟨hc, hch⟩).1 hch]
      exact hr.boundaries fr' hfr' c ⟨hc, hch⟩ hca
  refine ⟨hr.back hco' (htrail ▸ hent) (fun fr' hfr' => hset fr' (by simp [hfr']))
    (by rw [htrail, hr.forced, hsize]) (by rw [htrail, hr.processed, hsize])
    (by rw [htrail]; exact fun _ hm => hm) hframed (by rw [harena]; exact hk.has),
    (ha.skip (by simp [hstep])).congr (by rw [harena]; exact hk.has) ?_ hframed.justified,
    htrail ▸ hent, fun c hc => hset fr (by simp) c hc hc⟩
  · intro d hd
    rw [harena]
    by_cases hdh : d = h
    · exact hdh ▸ hic
    · exact hk.inCore d hd hdh

/-- A line that did nothing. -/
theorem Restored.idle (hr : Restored L (fr :: past) A s) (ha : Audited L (fr :: past) s)
    (hstep : fr.step = .ignored ∨ ∃ h, fr.step = .satisfied h) :
    Undone L past fr.attached fr.entries s := by
  obtain ⟨rfl, hent⟩ := hr.chronicle.1.of_idle hstep
  have hsize : s.trail.assigned = fr.entries.length := by rw [← hent, Trail.length_entries]
  refine ⟨hr.back hr.coherent hent (fun fr' hfr' => hr.boundaries fr' (by simp [hfr']))
    (hr.forced.trans hsize) (hr.processed.trans hsize) (fun _ hm => hm) (Framed.refl s)
    fun _ => Iff.rfl, ha.skip fun h he => ?_, hent, fun c hc => hr.boundaries fr (by simp) c hc hc⟩
  rcases hstep with hs | ⟨k, hs⟩ <;> simp [hs] at he

theorem ends_undoStep (hb : L.Blames R) (hr : Restored L (fr :: past) A s)
    (ha : Audited L (fr :: past) s)
    (hline : ∀ c, L.lines[past.length]? = some (.add c) → c = given) :
    Ends L.excuse R (undoStep coreFirst past.length given fr.step) s fun _ s' =>
      Undone L past fr.attached fr.entries s' := by
  cases hstep : fr.step with
  | add h =>
    obtain ⟨c, hc, -⟩ := L.addition (hr.chronicle.addition hstep)
    exact ends_undoLemma hb hr ha hstep (hline c hc ▸ hc)
  | delete h => exact ends_undoDelete hr ha hstep
  | satisfied h => exact hr.idle ha (Or.inr ⟨h, hstep⟩)
  | ignored => exact hr.idle ha (Or.inl hstep)

end Undoing

variable {lemmas : Array Clause}

theorem Restored.getElem?_steps (hr : Restored L (fr :: past) A s) :
    s.steps[past.length]? = some fr.step := by
  have hget := congrArg (·[past.length]?) hr.steps
  simpa using hget

theorem ends_undoLine (hb : L.Blames R) (hr : Restored L (fr :: past) A s)
    (ha : Audited L (fr :: past) s)
    (hg : ∀ i c, L.lines[i]? = some (.add c) → c = lemmas.getD i []) :
    Ends L.excuse R (undoLine coreFirst lemmas past.length) s fun _ s' =>
      Undone L past fr.attached fr.entries s' := by
  simp only [undoLine, ends_bind, ends_ask, hr.getElem?_steps, Fault.require, yields_ok]
  exact ends_undoStep hb hr ha (hg past.length)

theorem ends_undoFrom (hb : L.Blames R) (hr : Restored L past A s) (ha : Audited L past s)
    (hg : ∀ i c, L.lines[i]? = some (.add c) → c = lemmas.getD i []) :
    Ends L.excuse R (undoFrom coreFirst lemmas past.length) s fun _ s' =>
      ∃ A', Restored L [] A' s' ∧ Audited L [] s' := by
  induction past generalizing A s with
  | nil => exact ⟨A, hr, ha⟩
  | cons fr past ih =>
    simp only [List.length_cons, undoFrom, ends_bind]
    exact (ends_undoLine hb hr ha hg).mono fun _ s' h => ih h.restored h.audited

/-- The second pass ends before the first line, with every lemma of the core checked. -/
theorem ends_justify {last : Nat} (hb : L.Blames R) (hr : Restored L past A s)
    (ha : Audited L past s) (hlast : past.length = last + 1)
    (hg : ∀ i c, L.lines[i]? = some (.add c) → c = lemmas.getD i []) :
    Ends L.excuse R (justify coreFirst lemmas last) s fun _ s' =>
      ∃ A', Restored L [] A' s' ∧ Audited L [] s' := by
  have hfix : { s.trail with forced := s.trail.processed } = s.trail := by
    rw [hr.processed, ← hr.forced]
  simp only [justify, ends_bind, ends_emit, ends_fixProcessed, hfix, ← hlast]
  exact ends_undoFrom hb (hr.noted s.justified s.counters _) (ha.noted s.counters _) hg

end UnsatCore.Engine
