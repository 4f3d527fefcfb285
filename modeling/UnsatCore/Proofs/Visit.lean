import UnsatCore.Engine.Sweep
import UnsatCore.Proofs.Dependency

/-! What a visit to a clause does. A watch that moves away, or a literal that is derived, disturbs
no clause for the literals that were propagated before; a conflict is explained by clauses that are
attached or reasons. -/
namespace UnsatCore.Engine

open CheckM

variable {n i j k : Nat} {F : Prop} {R : Rejection → State → Prop} {body : Handle → Clause}
  {A C : Set Handle} {a a' : Arena} {t : WatchTable} {s s' s₁ s₂ : State} {c d : Handle}
  {b l m x y : Literal} {rest rest' : Clause} {w : Watcher} {pre post : List Watcher}

/-- Propagation went on. The new entries are forced by attached clauses, and what was settled for
the literals up to some place still is. -/
structure Grew (A : Set Handle) (s s' : State) : Prop where
  framed : Framed s s'
  has : ∀ d, s'.arena.Has d ↔ s.arena.Has d
  inCore : ∀ d, s.arena.Has d → s'.arena.inCore d = s.arena.inCore d
  entries : ∃ new, s'.trail.entries = s.trail.entries ++ new ∧
    ∀ e ∈ new, ∃ c ∈ A, e.reason = some c
  forced : s'.trail.forced = s.trail.forced
  marked : ∀ m, s'.trail.Marked m → s.trail.Marked m
  settled : ∀ c ∈ A, ∀ j ≤ s.trail.assigned,
    Settled (s.trail.falsified.take j) (s.arena.literals c) →
    Settled (s'.trail.falsified.take j) (s'.arena.literals c)

/-- The clauses of `C` are attached or reasons, and unit propagation could use them. -/
structure Sources (body : Handle → Clause) (A : Set Handle) (s : State) (C : Set Handle) :
    Prop where
  has : ∀ d ∈ C, s.arena.Has d
  known : ∀ d ∈ C, d ∈ A ∨ ∃ e ∈ s.trail.entries, e.reason = some d
  proper : ∀ d ∈ C, ∀ l ∈ body d, l.Proper

/-- Propagation was taken back, and what was settled for the literals that stay still is. -/
structure Unwound (A : Set Handle) (s s' : State) : Prop where
  backtracked : Backtracked s s'
  has : ∀ d, s'.arena.Has d ↔ s.arena.Has d
  settled : ∀ c ∈ A, ∀ j ≤ s.trail.forced,
    Settled (s.trail.falsified.take j) (s.arena.literals c) →
    Settled (s'.trail.falsified.take j) (s'.arena.literals c)

/-- A conflict was met and explained: unit propagation over the clauses that entered the core, or
were in it, meets it again. -/
structure Refuted (body : Handle → Clause) (A : Set Handle) (s s' : State) : Prop
    extends Unwound A s s' where
  conflict : ∃ C, Sources body A s C ∧
    (∀ d, s.arena.Has d → (s'.arena.inCore d = true ↔ s.arena.inCore d = true ∨ d ∈ C)) ∧
    ∀ g start, Lists body C g → (∀ e ∈ s.trail.entries, e.reason = none → start (-e.literal)) →
      Conflicting g start

/-- What is reported and counted does not matter. -/
theorem grew_note (A : Set Handle) (s : State) (log : Log) (counters : Counters) :
    Grew A s { s with log, counters } where
  framed := ⟨rfl, rfl, rfl, rfl⟩
  has := fun _ => Iff.rfl
  inCore := fun _ _ => rfl
  entries := ⟨[], by simp, by simp⟩
  forced := rfl
  marked := fun _ h => h
  settled := fun _ _ _ _ h => h

theorem Grew.refl (A : Set Handle) (s : State) : Grew A s s := grew_note A s s.log s.counters

theorem Grew.falsified (h : Grew A s s') :
    ∃ new, s'.trail.falsified = s.trail.falsified ++ new := by
  obtain ⟨new, he, -⟩ := h.entries
  exact ⟨new.map Entry.literal, Trail.falsified_of_append he⟩

theorem Grew.assigned_le (h : Grew A s s') : s.trail.assigned ≤ s'.trail.assigned := by
  obtain ⟨new, he⟩ := h.falsified
  rw [← Trail.length_falsified, ← Trail.length_falsified, he, List.length_append]
  omega

theorem Grew.trans {s₁ s₂ s₃ : State} (h : Grew A s₁ s₂) (h' : Grew A s₂ s₃) :
    Grew A s₁ s₃ where
  framed := h.framed.trans h'.framed
  has := fun d => (h'.has d).trans (h.has d)
  inCore := fun d hd => (h'.inCore d ((h.has d).mpr hd)).trans (h.inCore d hd)
  entries := by
    obtain ⟨new, he, hn⟩ := h.entries
    obtain ⟨new', he', hn'⟩ := h'.entries
    refine ⟨new ++ new', by rw [he', he, List.append_assoc], ?_⟩
    intro e hmem
    rcases List.mem_append.mp hmem with hmem | hmem
    · exact hn e hmem
    · exact hn' e hmem
  forced := h'.forced.trans h.forced
  marked := fun m hm => h.marked m (h'.marked m hm)
  settled := fun c hc j hj hs =>
    h'.settled c hc j (Nat.le_trans hj h.assigned_le) (h.settled c hc j hj hs)

theorem Grew.getElem? (h : Grew A s s') (hl : s.trail.falsified[i]? = some l) :
    s'.trail.falsified[i]? = some l := by
  obtain ⟨new, he⟩ := h.falsified
  have hlt := (List.getElem?_eq_some_iff.mp hl).1
  rw [he, List.getElem?_append_left hlt, hl]

theorem Grew.anchored (h : Grew A s s') (ha : Anchored body A s.trail.entries) :
    Anchored body A s'.trail.entries := by
  obtain ⟨new, he, hn⟩ := h.entries
  intro e hmem c hr hlen
  rw [he] at hmem
  rcases List.mem_append.mp hmem with hmem | hmem
  · exact ha e hmem c hr hlen
  · obtain ⟨c', hc', hr'⟩ := hn e hmem
    rw [hr] at hr'
    cases hr'
    exact hc'

theorem Grew.refuted (h : Grew A s s₁) (h' : Refuted body A s₁ s')
    (hf : s.trail.forced ≤ s.trail.assigned) : Refuted body A s s' where
  backtracked := by
    obtain ⟨new, he, -⟩ := h.entries
    have hb := h'.backtracked
    refine ⟨h.framed.trans hb.framed, ?_, hb.processed.trans h.forced, hb.forced.trans h.forced,
      hb.unmarked⟩
    rw [hb.entries, h.forced, he, List.take_append_of_le_length]
    rw [Trail.length_entries]
    exact hf
  has := fun d => (h'.has d).trans (h.has d)
  settled := fun c hc j hj hs =>
    h'.settled c hc j (h.forced ▸ hj) (h.settled c hc j (Nat.le_trans hj hf) hs)
  conflict := by
    obtain ⟨new, he, hn⟩ := h.entries
    obtain ⟨C, hC, hcore, hg⟩ := h'.conflict
    refine ⟨C, ⟨fun d hd => (h.has d).mp (hC.has d hd), ?_, hC.proper⟩, ?_, ?_⟩
    · intro d hd
      rcases hC.known d hd with hA | ⟨e, hmem, hr⟩
      · exact Or.inl hA
      · rw [he] at hmem
        rcases List.mem_append.mp hmem with hmem | hmem
        · exact Or.inr ⟨e, hmem, hr⟩
        · obtain ⟨c', hc', hr'⟩ := hn e hmem
          rw [hr] at hr'
          cases hr'
          exact Or.inl hc'
    · intro d hd
      rw [hcore d ((h.has d).mpr hd), h.inCore d hd]
    · intro g start hlist hstart
      refine hg g start hlist fun e hmem hr => ?_
      rw [he] at hmem
      rcases List.mem_append.mp hmem with hmem | hmem
      · exact hstart e hmem hr
      · obtain ⟨c', -, hr'⟩ := hn e hmem
        rw [hr] at hr'
        cases hr'

section Explanation

variable {K : Set Literal}

/-- The clauses that a trace finds force literals of the trail. -/
theorem Traced.sources (h : Traced s.arena s.trail.entries K C) (hs : Coherent n F body A s) :
    Sources body A s C where
  has := by
    intro d hd
    obtain ⟨e, he, -, hr⟩ := h.source d hd
    exact hs.grounded.has he hr
  known := by
    intro d hd
    obtain ⟨e, he, -, hr⟩ := h.source d hd
    exact Or.inr ⟨e, he, hr⟩
  proper := by
    intro d hd l hl
    obtain ⟨e, he, -, hr⟩ := h.source d hd
    obtain ⟨pre, post, hsplit⟩ := List.append_of_mem he
    obtain ⟨hh, rest, hlit, hrest⟩ := hs.grounded pre e post d hsplit hr
    rw [← hs.stored.mem_iff hh, hlit] at hl
    rcases List.mem_cons.mp hl with rfl | hl
    · exact (hs.trail.proper _ (Trail.literal_mem_falsified he)).neg
    · apply hs.trail.proper
      rw [← Trail.map_literal_entries, hsplit, List.map_append]
      exact List.mem_append_left _ (hrest l hl)

/-- Marking clauses and backtracking leave settled clauses settled. -/
theorem Backtracked.settled (hb : Backtracked s s') (he : Enlarged s.arena s'.arena C)
    (hc : s.arena.Has c) (hj : j ≤ s.trail.forced)
    (hs : Settled (s.trail.falsified.take j) (s.arena.literals c)) :
    Settled (s'.trail.falsified.take j) (s'.arena.literals c) := by
  rw [he.literals c hc, Trail.take_falsified, hb.entries, List.take_take, Nat.min_eq_left hj,
    ← Trail.take_falsified]
  exact hs

theorem ends_explain_refuted (h : Coherent n F body A s)
    (ha : Anchored body A s.trail.entries) (hf : s.trail.forced ≤ s.trail.assigned)
    (hc : c ∈ A) (hl : ∀ m ∈ s.arena.literals c, m ∈ s.trail.falsified) :
    Ends F R (explain c) s fun _ s' => Coherent n F body A s' ∧ Refuted body A s s' := by
  have hhas := (h.attached c hc).1
  refine (ends_explain h ha hf hc hl).mono ?_
  rintro - s' ⟨h', hb, hent⟩
  have hen := hent.enlarged
  have htr := traced_reached (M := fun m => m ∈ s.arena.literals c ∨ s.trail.Marked m) h.grounded
  have hsrc := htr.sources h
  have hK : ∀ m ∈ s.arena.literals c, m ∈ s.trail.entries.map Entry.literal ∧
      Reached s.arena s.trail.entries (fun m => m ∈ s.arena.literals c ∨ s.trail.Marked m) m := by
    intro m hm
    rw [Trail.map_literal_entries]
    exact ⟨hl m hm, .marked (Or.inl hm)⟩
  refine ⟨h', ⟨hb, hen.has, fun d hd j hj => hb.settled hen (h.attached d hd).1 hj⟩,
    Dependency c s, ⟨?_, ?_, ?_⟩, hen.inCore, ?_⟩
  · rintro d (rfl | hd)
    · exact hhas
    · exact hsrc.has d hd
  · rintro d (rfl | hd)
    · exact Or.inl hc
    · exact hsrc.known d hd
  · rintro d (rfl | hd) l hm
    · exact h.trail.proper l (hl l ((h.stored.mem_iff hhas).mpr hm))
    · exact hsrc.proper d hd l hm
  · exact fun g start hg hs => htr.conflicting h.stored h.grounded hg hs hhas hK

end Explanation

/-- A step that changes the arrangement of one attached clause, which is no reason, and perhaps the
watch lists. -/
structure Shuffled (c : Handle) (s s' : State) : Prop where
  framed : Framed s s'
  kept : s.arena.Kept s'.arena c
  inCore : s'.arena.inCore c = s.arena.inCore c
  trail : s'.trail = s.trail

theorem Shuffled.inCore_eq (h : Shuffled c s s') (hd : s.arena.Has d) :
    s'.arena.inCore d = s.arena.inCore d := by
  by_cases he : d = c
  · exact he ▸ h.inCore
  · exact h.kept.inCore d hd he

/-- A rearrangement that settles what it has to settle is a step of propagation. -/
theorem Shuffled.grew (h : Shuffled c s s') (hA : ∀ d ∈ A, s.arena.Has d)
    (hs : ∀ j, Settled (s.trail.falsified.take j) (s.arena.literals c) →
      Settled (s.trail.falsified.take j) (s'.arena.literals c)) : Grew A s s' where
  framed := h.framed
  has := h.kept.has
  inCore := fun d hd => h.inCore_eq hd
  entries := ⟨[], by simp [h.trail], by simp⟩
  forced := by rw [h.trail]
  marked := fun m hm => h.trail ▸ hm
  settled := by
    intro d hd j _ hset
    rw [h.trail]
    by_cases he : d = c
    · subst he
      exact hs j hset
    · rw [h.kept.literals d (hA d hd) he]
      exact hset

theorem yields_eitherTrue (h : s.trail.Wf n) (hx : x.var.index ≤ n) (hy : y.var.index ≤ n)
    (hmx : x.val = Int32.minValue → F) (hmy : y.val = Int32.minValue → F) {Q : Bool → Prop}
    (ht : -x ∈ s.trail.falsified ∨ -y ∈ s.trail.falsified → Q true)
    (hn : x.val ≠ Int32.minValue → y.val ≠ Int32.minValue → -x ∉ s.trail.falsified →
      -y ∉ s.trail.falsified → Q false) : Yields F (eitherTrue x y s) Q := by
  simp only [eitherTrue, yields_bind]
  refine yields_isTrue h hx hmx fun hx' => ?_
  simp only [decide_eq_true_eq, yields_ite, yields_pure]
  split
  · rename_i hm
    exact ht (Or.inl hm)
  · rename_i hm
    refine yields_isTrue h hy hmy fun hy' => ?_
    by_cases hm' : -y ∈ s.trail.falsified
    · simpa [hm'] using ht (Or.inr hm')
    · simpa [hm'] using hn hx' hy' hm hm'

/-- A clause whose first literal is not true is no reason. -/
theorem Coherent.not_reason (h : Coherent n F body A s)
    (hno : ∀ l ∈ (s.arena.literals c).head?, -l ∉ s.trail.falsified) :
    ∀ e ∈ s.trail.entries, e.reason ≠ some c := by
  intro e he hr
  obtain ⟨rest, hl⟩ := h.grounded.head he hr
  refine hno (-e.literal) (by simp [hl]) ?_
  rw [Literal.neg_neg]
  exact Trail.literal_mem_falsified he

theorem ends_bringBack (h : Coherent n F body A s) (hc : c ∈ A)
    (hl : s.arena.literals c = x :: y :: rest) (hxy : l = x ∨ l = y)
    (hr : ∀ e ∈ s.trail.entries, e.reason ≠ some c) :
    Ends F R (bringBack l c x) s fun _ s' => Coherent n F body A s' ∧ Shuffled c s s' ∧
      s'.watches = s.watches ∧
      ∃ b, Pair (s.arena.literals c) b l ∧ s'.arena.literals c = b :: l :: rest := by
  have hh := (h.attached c hc).1
  have hne : x ≠ y := by
    have hnd := h.stored.nodup_literals hh
    rw [hl] at hnd
    rintro rfl
    simp at hnd
  simp only [bringBack]
  rw [ends_when, ends_ite]
  split
  · rename_i hx
    subst hx
    obtain ⟨a', hswap, hk, hlit, hcore, -⟩ :=
      hh.swap (i := 0) (j := 1) (by simp [hl]) (by simp [hl])
    have hlit' : a'.literals c = y :: x :: rest := by
      rw [hlit, hl]
      rfl
    have hw : Watched n A a' s.watches := by
      apply h.watched.turn
      · intro d hd m
        by_cases he : d = c
        · subst he
          simp [hlit', hl, or_comm]
        · rw [hk.literals d (h.attached d hd).1 he]
      · intro d hd
        by_cases he : d = c
        · exact he ▸ hcore
        · exact hk.inCore d (h.attached d hd).1 he
    have hp : (a'.literals c).Perm (s.arena.literals c) := by
      rw [hlit', hl]
      exact List.Perm.swap x y rest
    have hx₁ := ((hk.has c).mpr hh).literal (i := 1) (l := x) (by simp [hlit'])
    simp only [ends_onArena, hswap, yields_ok, literalOf, ends_bind, ends_ask, hx₁, if_true,
      ends_pure]
    exact ⟨h.replace hk hh hp (fun e he hd => (hr e he hd).elim) hw,
      ⟨⟨rfl, rfl, rfl, rfl⟩, hk, hcore, rfl⟩, trivial, y, ⟨rest, Or.inr hl⟩, hlit'⟩
  · rename_i hx
    have hly : l = y := hxy.resolve_left fun he => hx he.symm
    subst hly
    have hx₁ := hh.literal (i := 1) (l := l) (by simp [hl])
    simp only [ends_pure, literalOf, ends_bind, ends_ask, hx₁, yields_ok, if_true]
    exact ⟨h, ⟨Framed.refl s, Arena.Kept.refl h.stored.wf c, rfl, rfl⟩, trivial, x,
      ⟨rest, Or.inl hl⟩, hl⟩

/-- The search for another literal to watch. -/
theorem yields_firstUnfalsified {t : Trail} {ls : Clause} (h : t.Wf n)
    (hs : ∀ l ∈ ls, l.var.index ≤ n) {Q : Option (Nat × Literal) → Prop}
    (hnone : (∀ l ∈ ls, l ∈ t.falsified) → Q none)
    (hsome : ∀ pre m post, ls = pre ++ m :: post → m ∉ t.falsified → Q (some (k + pre.length, m))) :
    Yields F (firstUnfalsified t ls k) Q := by
  induction ls generalizing k with
  | nil => exact hnone (by simp)
  | cons l ls ih =>
    rw [firstUnfalsified, h.isFalse (hs l (by simp))]
    by_cases hm : l ∈ t.falsified
    · simp only [hm, decide_true]
      refine ih (fun m hm => hs m (by simp [hm])) ?_ ?_
      · intro hall
        apply hnone
        intro m hm'
        rcases List.mem_cons.mp hm' with rfl | hm'
        · exact hm
        · exact hall m hm'
      · intro pre m post he hm'
        have := hsome (l :: pre) m post (by simp [he]) hm'
        rwa [List.length_cons, show k + (pre.length + 1) = k + 1 + pre.length by omega] at this
    · simp only [hm, decide_false, yields_ok]
      exact hsome [] l ls rfl hm

end UnsatCore.Engine
