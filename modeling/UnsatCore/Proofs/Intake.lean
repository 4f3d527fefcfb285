import UnsatCore.Engine.Intake
import UnsatCore.Proofs.Attachment
import UnsatCore.Proofs.ClauseIndex
import UnsatCore.Proofs.Transcript

/-! Reading the formula and the derivation: every clause is stored without repetitions, the units of
the formula are true, its longer clauses are attached, and the lines are written down in steps. -/
namespace UnsatCore.Engine

open CheckM

variable {n i : Nat} {F : Prop} {R : Rejection → State → Prop} {body : Handle → Clause}
  {A : Set Handle} {a' : Arena} {s s' : State} {f : Formula} {d : Derivation} {c x : Clause}
  {h : Handle} {l : Literal}

/-- The clauses of the formula that are attached. -/
def longOf (a : Arena) (origins : List Handle) : Set Handle :=
  {c | c ∈ origins ∧ 2 ≤ (a.literals c).length}

/-- The clauses of `f` are stored, the longer ones attached, and beside them only lemmas are. -/
structure Stocked (n : Nat) (F : Prop) (f : Formula) (s : State) : Prop where
  coherent : Coherent n F s.arena.literals (longOf s.arena s.origins.toList) s
  origins : s.origins.toList.map s.arena.literals = f.map Clause.distinct
  has : ∀ h, s.arena.Has h ↔ h ∈ s.origins.toList ++ added s.steps.toList
  nodup : s.origins.toList.Nodup

/-- What is known once the clauses of `f` and the lines of `d` are read. -/
structure Loaded (n : Nat) (F : Prop) (f : Formula) (d : Derivation) (s : State) : Prop
    extends Stocked n F f s where
  forcing : ∀ e ∈ s.trail.entries, ∃ h ∈ s.origins.toList, e.reason = some h ∧
    s.arena.literals h = [-e.literal]
  unit : ∀ h ∈ s.origins.toList, ∀ l, s.arena.literals h = [l] → -l ∈ s.trail.falsified
  nonempty : ∀ h ∈ s.origins.toList, s.arena.literals h ≠ []
  unmarked : ∀ m, ¬ s.trail.Marked m
  processed : s.trail.processed = 0
  forced : s.trail.forced = 0
  unneeded : ∀ h, s.arena.Has h → s.arena.inCore h = false
  justified : s.justified = []
  count : s.arena.clauseCount ≤ f.length + d.length
  transcript : Transcript s.arena.literals s.origins.toList f d s.steps.toList
  index : s.index.Lists s.arena (aliveAfter s.origins.toList s.steps.toList)

/-- Reports and counts do not matter to what is read. -/
theorem Stocked.noted (hs : Stocked n F f s) (log : Log) (counters : Counters) :
    Stocked n F f { s with log, counters } :=
  ⟨hs.coherent.congr rfl rfl rfl, hs.origins, hs.has, hs.nodup⟩

theorem Loaded.noted (hs : Loaded n F f d s) (log : Log) (counters : Counters) :
    Loaded n F f d { s with log, counters } :=
  ⟨hs.toStocked.noted log counters, hs.forcing, hs.unit, hs.nonempty, hs.unmarked, hs.processed,
    hs.forced, hs.unneeded, hs.justified, hs.count, hs.transcript, hs.index⟩

theorem loaded_initial (n : Nat) (F : Prop) : Loaded n F [] [] (.initial n) where
  coherent := by
    refine ⟨⟨Arena.wf_empty, ?_, ?_, ?_, ?_⟩, ?_, ⟨WatchTable.fits_blank n, ?_, ?_⟩,
      Trail.wf_blank n, ?_⟩
    · exact fun c hc => (Arena.not_has_empty c hc).elim
    · exact fun c hc => (Arena.not_has_empty c hc).elim
    · exact fun c hc => (Arena.not_has_empty c hc).elim
    · exact fun c hc => (Arena.not_has_empty c hc).elim
    · rintro c ⟨hc, -⟩
      cases hc
    · intro l
      simp [State.initial, WatchTable.watchers_blank]
    · intro l w
      simp [State.initial, WatchTable.watchers_blank, longOf]
    · intro pre e post c he
      simp [State.initial, Trail.blank, Trail.entries, Trail.falsified] at he
  origins := rfl
  forcing := by simp [State.initial, Trail.blank, Trail.entries, Trail.falsified]
  unit := by simp [State.initial]
  nonempty := by simp [State.initial]
  unmarked := Trail.not_marked_blank n
  processed := rfl
  forced := rfl
  unneeded := fun h hh => (Arena.not_has_empty h hh).elim
  justified := rfl
  count := Nat.le_refl _
  has := fun h => iff_of_false (Arena.not_has_empty h) (by simp [State.initial, added])
  nodup := List.nodup_nil
  transcript := ⟨rfl, by simp [State.initial, added], by simp, by simp [State.initial, aliveAfter],
    fun i _ => by simpa [State.initial, aliveAfter, Derivation.live] using covers_nil _⟩
  index := ClauseIndex.lists_empty _

/-- A clause that is stored and not attached changes nothing for the others. -/
theorem Coherent.store (hs : Coherent n F s.arena.literals A s) (hg : s.arena.Grown a' h x)
    (hnd : x.Nodup) (hsm : ∀ l ∈ x, l.var.index ≤ n) (hle : ∀ l ∈ x, l.val = Int32.minValue → F)
    (ha : s'.arena = a') (hw : s'.watches = s.watches) (ht : s'.trail = s.trail) :
    Coherent n F a'.literals A s' := by
  have hall : ∀ P : Clause → Prop, P x → (∀ c, s.arena.Has c → P (s.arena.literals c)) →
      ∀ c, a'.Has c → P (a'.literals c) := by
    intro P hx hold c hc
    rcases (hg.has c).mp hc with hc | rfl
    · rw [hg.literals c hc]
      exact hold c hc
    · rw [hg.literals_new]
      exact hx
  refine ⟨?_, ?_, ?_, ht ▸ hs.trail, ?_⟩
  · rw [ha]
    exact ⟨hg.wf, fun c _ => List.Perm.refl _, hall List.Nodup hnd hs.stored.nodup,
      hall (fun y => ∀ l ∈ y, l.var.index ≤ n) hsm hs.stored.small,
      hall (fun y => ∀ l ∈ y, l.val = Int32.minValue → F) hle hs.stored.least⟩
  · intro c hc
    obtain ⟨hh, hlen⟩ := hs.attached c hc
    rw [ha, hg.literals c hh]
    exact ⟨(hg.has c).mpr (Or.inl hh), hlen⟩
  · rw [ha, hw]
    exact hs.watched.congr (fun c hc => hg.literals c (hs.attached c hc).1)
      fun c hc => hg.inCore c (hs.attached c hc).1
  · rw [ha, ht]
    exact hs.grounded.congr (fun c hc => (hg.has c).mpr (Or.inl hc))
      fun e he c hr => hg.literals c (hs.grounded.has he hr)

theorem longOf_congr {a a' : Arena} {origins : List Handle}
    (hl : ∀ h ∈ origins, a'.literals h = a.literals h) : longOf a' origins = longOf a origins := by
  ext c
  simp only [longOf, Set.mem_ofPred_eq]
  constructor
  · rintro ⟨hc, hlen⟩
    exact ⟨hc, hl c hc ▸ hlen⟩
  · rintro ⟨hc, hlen⟩
    exact ⟨hc, (hl c hc).symm ▸ hlen⟩

theorem Loaded.has_origin (hs : Loaded n F f d s) (hh : h ∈ s.origins.toList) : s.arena.Has h :=
  (hs.has h).mpr (List.mem_append_left _ hh)

/-- The given clause of an origin. -/
theorem Loaded.exists_given (hs : Loaded n F f d s) (hh : h ∈ s.origins.toList) :
    ∃ c ∈ f, s.arena.literals h = c.distinct := by
  have hm : s.arena.literals h ∈ f.map Clause.distinct := by
    rw [← hs.origins]
    exact List.mem_map_of_mem hh
  obtain ⟨c, hc, he⟩ := List.mem_map.mp hm
  exact ⟨c, hc, he.symm⟩

/-- Handles that deletions can name are of stored clauses without repetitions. -/
theorem Loaded.alive (hs : Loaded n F f d s) :
    ∀ h ∈ aliveAfter s.origins.toList s.steps.toList,
      s.arena.Has h ∧ (s.arena.literals h).Nodup := by
  intro h hh
  have hhas := (hs.has h).mpr (mem_of_mem_aliveAfter hh)
  exact ⟨hhas, hs.coherent.stored.nodup h hhas⟩

/-- A clause of the formula was stored and written down as the next one. -/
structure Lodged (s s' : State) (h : Handle) (c : Clause) : Prop where
  grown : s.arena.Grown s'.arena h c.distinct
  origins : s'.origins = s.origins.push h
  steps : s'.steps = s.steps
  index : s'.index = s.index.insert c.distinct h
  justified : s'.justified = s.justified

/-- The trail `t'` is `t`, or has the literal of the unit `h` on top. If `h` is a unit, its literal is
true. -/
structure Fixes (h : Handle) (c : Clause) (t t' : Trail) : Prop where
  mono : ∀ l ∈ t.falsified, l ∈ t'.falsified
  entries : ∀ e ∈ t'.entries, e ∈ t.entries ∨ e.reason = some h ∧ c.distinct = [-e.literal]
  unit : ∀ l, c.distinct = [l] → -l ∈ t'.falsified
  marked : ∀ m, t'.Marked m → t.Marked m
  processed : t'.processed = t.processed
  forced : t'.forced = t.forced

theorem Fixes.refl {t : Trail} (hunit : ∀ l, c.distinct = [l] → -l ∈ t.falsified) :
    Fixes h c t t :=
  ⟨fun _ hm => hm, fun _ he => Or.inl he, hunit, fun _ hm => hm, rfl, rfl⟩

theorem Fixes.assigned {t t' : Trail} (hc : c.distinct = [l])
    (hent : t'.entries = t.entries ++ [⟨-l, some h⟩]) (hp : t'.processed = t.processed)
    (hf : t'.forced = t.forced) (hm : ∀ m, t'.Marked m ↔ t.Marked m) : Fixes h c t t' := by
  have hfal : t'.falsified = t.falsified ++ [-l] := Trail.falsified_of_append hent
  refine ⟨fun m hmem => ?_, fun e he => ?_, fun m hmem => ?_, fun m => (hm m).mp, hp, hf⟩
  · rw [hfal]
    exact List.mem_append_left _ hmem
  · rw [hent, List.mem_append, List.mem_singleton] at he
    rcases he with he | rfl
    · exact Or.inl he
    · exact Or.inr ⟨rfl, by simpa using hc⟩
  · rw [hc, List.singleton_inj] at hmem
    simp [hfal, hmem]

theorem Loaded.steps_eq_nil (hs : Loaded n F f [] s) : s.steps.toList = [] :=
  List.length_eq_zero_iff.mp hs.transcript.length

section Lodged

theorem Lodged.origins_toList (hg : Lodged s s' h c) :
    s'.origins.toList = s.origins.toList ++ [h] := by
  rw [hg.origins, Array.toList_push]

theorem Lodged.not_mem (hg : Lodged s s' h c) (hs : Loaded n F f d s) :
    h ∉ s.origins.toList := fun hh => hg.grown.fresh (hs.has_origin hh)

theorem Lodged.literals (hg : Lodged s s' h c) (hs : Loaded n F f d s) :
    ∀ k ∈ s.origins.toList, s'.arena.literals k = s.arena.literals k := fun k hk =>
  hg.grown.literals k (hs.has_origin hk)

theorem Lodged.forall_origins (hg : Lodged s s' h c) {P : Handle → Prop}
    (hold : ∀ k ∈ s.origins.toList, P k) (hnew : P h) : ∀ k ∈ s'.origins.toList, P k := by
  intro k hk
  rw [hg.origins_toList] at hk
  rcases List.mem_append.mp hk with hk | hk
  · exact hold k hk
  · exact List.mem_singleton.mp hk ▸ hnew

theorem Lodged.stocked (hg : Lodged s s' h c) (hs : Loaded n F f [] s)
    (hco : Coherent n F s'.arena.literals (longOf s'.arena s'.origins.toList) s') :
    Stocked n F (f ++ [c]) s' := by
  refine ⟨hco, ?_, fun k => ?_, ?_⟩
  · rw [hg.origins_toList, List.map_append, List.map_append, ← hs.origins,
      List.map_congr_left (hg.literals hs), List.map_singleton, List.map_singleton,
      hg.grown.literals_new]
  · rw [hg.grown.has, hs.has, hg.origins_toList, hg.steps, hs.steps_eq_nil]
    simp [added]
  · rw [hg.origins_toList]
    exact List.nodup_append_comm.mp (List.nodup_cons.mpr ⟨hg.not_mem hs, hs.nodup⟩)

theorem Lodged.transcript (hg : Lodged s s' h c) (hs : Loaded n F f [] s) :
    Transcript s'.arena.literals s'.origins.toList (f ++ [c]) [] s'.steps.toList := by
  have ht := hs.transcript
  rw [hs.steps_eq_nil] at ht
  rw [hg.origins_toList, hg.steps, hs.steps_eq_nil]
  refine (ht.congr fun k hk => hg.literals hs k ?_).origin (hg.not_mem hs) ?_
  · simpa [added] using hk
  · rw [hg.grown.literals_new]
    exact Clause.distinct_same c

theorem Lodged.lists (hg : Lodged s s' h c) (hs : Loaded n F f [] s) :
    s'.index.Lists s'.arena (aliveAfter s'.origins.toList s'.steps.toList) := by
  have hidx := hs.index
  rw [hs.steps_eq_nil] at hidx
  rw [hg.origins_toList, hg.steps, hs.steps_eq_nil, hg.index]
  exact (hidx.insert hg.grown.literals_new (hg.literals hs)).perm
    (List.perm_append_singleton h _).symm

/-- A clause of the formula that was stored is taken care of: it is attached, or its literal is
true. -/
theorem Lodged.loaded (hg : Lodged s s' h c) (hs : Loaded n F f [] s)
    (hco : Coherent n F s'.arena.literals (longOf s'.arena s'.origins.toList) s')
    (hne : c.distinct ≠ []) (ht : Fixes h c s.trail s'.trail) : Loaded n F (f ++ [c]) [] s' where
  toStocked := hg.stocked hs hco
  forcing := by
    intro e he
    rcases ht.entries e he with he | ⟨hr, hl⟩
    · obtain ⟨k, hk, hr, hl⟩ := hs.forcing e he
      exact ⟨k, by simp [hg.origins_toList, hk], hr, (hg.literals hs k hk).trans hl⟩
    · exact ⟨h, by simp [hg.origins_toList], hr, hg.grown.literals_new.trans hl⟩
  unit := by
    refine hg.forall_origins (fun k hk l hl => ?_) ?_
    · exact ht.mono _ (hs.unit k hk l (hg.literals hs k hk ▸ hl))
    · rw [hg.grown.literals_new]
      exact ht.unit
  nonempty := by
    refine hg.forall_origins (fun k hk hl => ?_) ?_
    · exact hs.nonempty k hk (hg.literals hs k hk ▸ hl)
    · rwa [hg.grown.literals_new]
  unmarked := fun m hm => hs.unmarked m (ht.marked m hm)
  processed := ht.processed.trans hs.processed
  forced := ht.forced.trans hs.forced
  unneeded := by
    intro k hk
    rcases (hg.grown.has k).mp hk with hk | rfl
    · exact (hg.grown.inCore k hk).trans (hs.unneeded k hk)
    · exact hg.grown.inCore_new
  justified := hg.justified.trans hs.justified
  count := by
    have hcount := hs.count
    simp only [List.length_nil, Nat.add_zero, List.length_append, List.length_singleton] at hcount ⊢
    rw [hg.grown.count]
    omega
  transcript := hg.transcript hs
  index := hg.lists hs

end Lodged

/-- A clause that was attached right after it was stored. -/
theorem longOf_push {a : Arena} {origins : List Handle} (hlen : 2 ≤ (a.literals h).length) :
    longOf a (origins ++ [h]) = insert h (longOf a origins) := by
  ext c
  simp only [longOf, Set.mem_ofPred_eq, Set.mem_insert_iff, List.mem_append, List.mem_singleton]
  constructor
  · rintro ⟨hc | rfl, hl⟩
    · exact Or.inr ⟨hc, hl⟩
    · exact Or.inl rfl
  · rintro (rfl | ⟨hc, hl⟩)
    · exact ⟨Or.inr rfl, hlen⟩
    · exact ⟨Or.inl hc, hl⟩

theorem longOf_push_short {a : Arena} {origins : List Handle}
    (hlen : (a.literals h).length < 2) : longOf a (origins ++ [h]) = longOf a origins := by
  ext c
  simp only [longOf, Set.mem_ofPred_eq, List.mem_append, List.mem_singleton]
  constructor
  · rintro ⟨hc | rfl, hl⟩
    · exact ⟨hc, hl⟩
    · omega
  · exact fun hc => ⟨Or.inl hc.1, hc.2⟩

theorem ends_reportRepeated {part : Part} {ls : Clause} {Q : Unit → State → Prop}
    (hq : ∀ log, Q () { s with log }) : Ends F R (reportRepeated part i ls) s Q := by
  induction ls generalizing s with
  | nil => exact hq s.log
  | cons l ls ih =>
    simp only [reportRepeated, ends_bind, ends_emit]
    exact ih hq

theorem ends_normalize {part : Part} {Q : Clause → State → Prop}
    (hz : c.hasZero = true → R (.zeroLiteral part i) s)
    (hq : c.hasZero = false → ∀ log, Q c.distinct { s with log }) :
    Ends F R (normalize part i c) s Q := by
  simp only [normalize, ends_ite]
  split
  · rename_i hc
    exact hz hc
  · rename_i hc
    simp only [ends_bind, ends_pure]
    exact ends_reportRepeated fun log => hq (by simpa using hc) log

theorem hasZero_distinct (hz : c.hasZero = false) : c.distinct.hasZero = false := by
  rw [Clause.hasZero_eq_false] at hz ⊢
  exact fun l hl => hz l (Clause.mem_distinct.mp hl)

/-- Storing a clause gives a handle, unless there are too many clauses. -/
theorem ends_store_grown {Q : Handle → State → Prop} (hw : s.arena.Wf) (hz : x.hasZero = false)
    (hmany : s.arena.clauseCount = 2147483647 → F)
    (hq : ∀ h a', s.arena.Grown a' h x → Q h { s with arena := a', index := s.index.insert x h }) :
    Ends F R (store x) s Q := by
  rw [ends_store]
  rcases hw.add hz with ⟨hc, he⟩ | ⟨h, a', he, hg⟩
  · rw [he]
    exact hmany hc
  · rw [he]
    exact hq h a' hg

/-- How the formula so far was found: taken care of, or contradictory in its units. -/
def Opened (n : Nat) (F : Prop) (f : Formula) (s : State) : Intake → Prop
  | .ready => Loaded n F f [] s
  | .trivial => ¬ f.Satisfiable ∧ s.steps = #[] ∧ ∃ read, read <+: f ∧ Stocked n F read s

theorem not_satisfiable_of_nil (h : [] ∈ f) : ¬ f.Satisfiable := by
  rintro ⟨σ, hσ⟩
  obtain ⟨l, hl, -⟩ := hσ [] h
  cases hl

theorem holds_of_distinct {σ : Assignment} (hc : c.distinct = [l]) (hσ : c.Holds σ) :
    l.Holds σ := by
  obtain ⟨m, hm, hσ⟩ := hσ
  rw [← Clause.mem_distinct, hc, List.mem_singleton] at hm
  exact hm ▸ hσ

/-- Two units that clash. -/
theorem Loaded.not_satisfiable (hs : Loaded n F f d s) (hl : l ∈ s.trail.falsified)
    (hc : c.distinct = [l]) : ¬ Formula.Satisfiable (f ++ [c]) := by
  rintro ⟨σ, hσ⟩
  rw [← Trail.map_literal_entries] at hl
  obtain ⟨e, he, rfl⟩ := List.mem_map.mp hl
  obtain ⟨h, hh, -, hlit⟩ := hs.forcing e he
  obtain ⟨c', hc', hgiven⟩ := hs.exists_given hh
  have hneg := holds_of_distinct (hgiven.symm.trans hlit) (hσ c' (by simp [hc']))
  have hproper := hs.coherent.trail.proper _ (Trail.literal_mem_falsified he)
  exact hproper.holds_neg.mp hneg (holds_of_distinct hc (hσ c (by simp)))

theorem ends_assignUnit (hs : Loaded n F f [] s) (hc : c.distinct = [l]) (hg : Lodged s s' h c)
    (ht : s'.trail = s.trail)
    (hco : Coherent n F s'.arena.literals (longOf s'.arena s'.origins.toList) s') :
    Ends F R (assignUnit i l h) s' fun r s'' => Opened n F (f ++ [c]) s'' r := by
  have hhas : s'.arena.Has h := (hg.grown.has h).mpr (Or.inr rfl)
  have hlit : s'.arena.literals h = [l] := hg.grown.literals_new.trans hc
  have hmem : l ∈ s'.arena.literals h := by simp [hlit]
  have hsmall := hco.stored.small_literal hhas hmem
  have hne : c.distinct ≠ [] := by simp [hc]
  simp only [assignUnit, isFalseNow, isTrueNow, ends_bind, ends_ask, hco.trail.isFalse hsmall,
    yields_ok, ends_ite, decide_eq_true_eq, ends_emit, ends_pure]
  split
  · rename_i hf
    have hno := hs.not_satisfiable (ht ▸ hf) hc
    have hempty : s'.steps = #[] := hg.steps.trans (Array.toList_eq_nil_iff.mp hs.steps_eq_nil)
    exact ⟨hno, hempty, _, List.prefix_refl _, (hg.stocked hs hco).noted _ _⟩
  · rename_i hf
    refine yields_isTrue hco.trail hsmall (hco.stored.least_literal hhas hmem) fun hmin => ?_
    by_cases htrue : -l ∈ s'.trail.falsified
    · simp only [htrue, decide_true, if_true]
      have hfix : Fixes h c s'.trail s'.trail := .refl fun m hm => by
        rw [hc, List.singleton_inj] at hm
        exact hm ▸ htrue
      exact hg.loaded hs hco hne (ht ▸ hfix)
    · have hproper := Stored.proper_literal hhas hmem hmin
      obtain ⟨t, hassign, hw, hent, hp, hfo, hmk⟩ :=
        hco.trail.assign hproper hsmall hf htrue (some h)
      simp only [htrue, decide_false, Bool.false_eq_true, if_false, ends_onTrail, hassign,
        yields_ok]
      have hgr : Grounded s'.arena t.entries := by
        rw [hent]
        apply hco.grounded.push
        intro c' hc'
        cases hc'
        exact ⟨hhas, [], by simpa using hlit, by simp⟩
      rw [ht] at hent hp hfo hmk
      have hg' : Lodged s { s' with trail := t } h c := { hg with }
      exact hg'.loaded hs ⟨hco.stored, hco.attached, hco.watched, hw, hgr⟩ hne
        (.assigned hc hent hp hfo hmk)

/-- A clause that was stored is coherent with the clauses attached so far, whatever it is. -/
theorem Lodged.coherent (hg : Lodged s s' h c) (hs : Loaded n F f d s)
    (hsm : ∀ l ∈ c, l.var.index ≤ n) (hle : ∀ l ∈ c, l.val = Int32.minValue → F)
    (hw : s'.watches = s.watches) (ht : s'.trail = s.trail) :
    Coherent n F s'.arena.literals (longOf s'.arena s.origins.toList) s' := by
  rw [longOf_congr (hg.literals hs)]
  exact hs.coherent.store hg.grown (Clause.nodup_distinct c)
    (fun l hl => hsm l (Clause.mem_distinct.mp hl))
    (fun l hl => hle l (Clause.mem_distinct.mp hl)) rfl hw ht

theorem ends_settleClause (hs : Loaded n F f [] s) (hg : Lodged s s' h c)
    (ht : s'.trail = s.trail)
    (hco : Coherent n F s'.arena.literals (longOf s'.arena s.origins.toList) s') :
    Ends F R (settleClause i h c.distinct) s' fun r s'' => Opened n F (f ++ [c]) s'' r := by
  have hlit := hg.grown.literals_new
  -- A clause that is not attached leaves the set of those that are as it was.
  have hshort : c.distinct.length < 2 →
      Coherent n F s'.arena.literals (longOf s'.arena s'.origins.toList) s' := fun hlen => by
    rw [hg.origins_toList, longOf_push_short (hlit.symm ▸ hlen)]
    exact hco
  rcases hd : c.distinct with _ | ⟨x, _ | ⟨y, rest⟩⟩
  · simp only [settleClause, ends_bind, ends_emit, ends_pure]
    have hno : ¬ Formula.Satisfiable (f ++ [c]) :=
      not_satisfiable_of_nil (by simp [Clause.distinct_eq_nil.mp hd])
    have hempty : s'.steps = #[] := hg.steps.trans (Array.toList_eq_nil_iff.mp hs.steps_eq_nil)
    exact ⟨hno, hempty, _, List.prefix_refl _,
      (hg.stocked hs (hshort (by simp [hd]))).noted _ _⟩
  · exact ends_assignUnit hs hd hg ht (hshort (by simp [hd]))
  · have hlen : 2 ≤ (s'.arena.literals h).length := by simp [hlit, hd]
    have hfix : Fixes h c s.trail s.trail := .refl fun l hl => by simp [hd] at hl
    rw [settleClause, ends_bind]
    · refine (ends_attach hco ((hg.grown.has h).mpr (Or.inr rfl)) hlen
        fun hm => hg.not_mem hs hm.1).mono ?_
      rintro - s'' ⟨hco', heq⟩
      rw [ends_pure, heq]
      rw [heq] at hco'
      have hg' : Lodged s { s' with watches := s''.watches } h c := { hg with }
      refine hg'.loaded hs ?_ (by simp [hd]) (ht ▸ hfix)
      rw [hg'.origins_toList, longOf_push hlen]
      exact hco'
    · simp
    · simp

theorem ends_readClause (hs : Loaded n F f [] s) (hsm : ∀ l ∈ c, l.var.index ≤ n)
    (hle : ∀ l ∈ c, l.val = Int32.minValue → F) (hmany : 2147483647 ≤ f.length → F)
    (hz : c.hasZero = true → ∀ s, R (.zeroLiteral .formula i) s) :
    Ends F R (readClause i c) s fun r s' => Opened n F (f ++ [c]) s' r := by
  simp only [readClause, ends_bind]
  refine ends_normalize (fun hc => hz hc s) fun hc log => ?_
  refine ends_store_grown hs.coherent.stored.wf (hasZero_distinct hc) ?_ fun h a' hg => ?_
  · intro hcount
    have hle := hs.count
    simp only [List.length_nil, Nat.add_zero] at hle
    exact hmany (hcount ▸ hle)
  simp only [recordOrigin, ends_modify]
  have hlodged : Lodged s { s with arena := a', index := s.index.insert c.distinct h,
                                   origins := s.origins.push h, log } h c :=
    ⟨hg, rfl, rfl, rfl, rfl⟩
  exact ends_settleClause hs hlodged rfl (hlodged.coherent hs hsm hle rfl rfl)

/-- The variables up to `n` suffice for the input. If it has the least word or too many clauses,
faults are excused. -/
structure Fitting (n : Nat) (F : Prop) (f : Formula) (d : Derivation) : Prop where
  small : ∀ c ∈ f ++ d.map Derivation.Line.clause, ∀ l ∈ c, l.var.index ≤ n
  least : ∀ c ∈ f ++ d.map Derivation.Line.clause, ∀ l ∈ c, l.val = Int32.minValue → F
  many : 2147483648 ≤ f.length + d.length → F

section Reading

variable {settings : Settings} {read rest : Formula} {lines more : Derivation}
  {line : Derivation.Line}

/-- What reading the input may be rejected for. -/
def Objects (settings : Settings) (f : Formula) (d : Derivation) (R : Rejection → State → Prop) :
    Prop :=
  ∀ r s, r.AtReading → r.Warranted settings f d → R r s

theorem ends_readFormula (read : Formula) (hfit : Fitting n F f d) (hR : Objects settings f d R)
    (hs : Loaded n F read [] s) (hf : f = read ++ rest) :
    Ends F R (readFormula read.length rest) s fun r s' => Opened n F f s' r := by
  induction rest generalizing read s with
  | nil =>
    rw [List.append_nil] at hf
    subst hf
    simp only [readFormula, reportFormula, ends_bind, ends_look, ends_emit, ends_pure]
    exact hs.noted _ _
  | cons c rest ih =>
    have hmem : c ∈ f ++ d.map Derivation.Line.clause := by simp [hf]
    have hlen : f.length = read.length + 1 + rest.length := by
      simp [hf]
      omega
    have hsplit : f = read ++ [c] ++ rest := by simp [hf]
    simp only [readFormula, ends_bind]
    refine (ends_readClause hs (hfit.small c hmem) (hfit.least c hmem) ?_ ?_).mono ?_
    · exact fun hmany => hfit.many (by omega)
    · exact fun hz s => hR _ s trivial ⟨c, by simp [hf], hz⟩
    · intro r s' hr
      cases r with
      | trivial =>
        obtain ⟨hno, hst, part, hpart, hstock⟩ := hr
        refine ⟨?_, hst, part, hpart.trans ⟨rest, hsplit.symm⟩, hstock⟩
        rintro ⟨σ, hσ⟩
        refine hno ⟨σ, fun k hk => hσ k ?_⟩
        rw [hsplit]
        exact List.mem_append_left _ hk
      | ready => simpa using ih (read ++ [c]) hr hsplit

/-- A lemma was stored. -/
theorem Loaded.lemma (hs : Loaded n F f d s) (hg : s.arena.Grown a' h c.distinct)
    (hsm : ∀ l ∈ c, l.var.index ≤ n) (hle : ∀ l ∈ c, l.val = Int32.minValue → F) :
    Loaded n F f (d ++ [.add c]) { s with arena := a', index := s.index.insert c.distinct h,
                                          steps := s.steps.push (.add h) } := by
  have hold : ∀ k ∈ s.origins.toList ++ added s.steps.toList,
      a'.literals k = s.arena.literals k := fun k hk => hg.literals k ((hs.has k).mpr hk)
  have hlit : ∀ k ∈ s.origins.toList, a'.literals k = s.arena.literals k := fun k hk =>
    hg.literals k (hs.has_origin hk)
  have hnew : h ∉ s.origins.toList ++ added s.steps.toList := fun hh =>
    hg.fresh ((hs.has h).mpr hh)
  have ht := hs.transcript.congr hold
  refine ⟨⟨?_, ?_, ?_, hs.nodup⟩, ?_, ?_, ?_, hs.unmarked, hs.processed, hs.forced, ?_,
    hs.justified, ?_, ?_, ?_⟩
  · rw [longOf_congr hlit]
    exact hs.coherent.store hg (Clause.nodup_distinct c)
      (fun l hl => hsm l (Clause.mem_distinct.mp hl))
      (fun l hl => hle l (Clause.mem_distinct.mp hl)) rfl rfl rfl
  · exact (List.map_congr_left hlit).trans hs.origins
  · intro k
    simp only [hg.has, hs.has, Array.toList_push, added_append, ← List.append_assoc]
    rw [List.mem_append (t := added [.add h])]
    simp [added]
  · intro e he
    obtain ⟨k, hk, hr, hl⟩ := hs.forcing e he
    exact ⟨k, hk, hr, (hlit k hk).trans hl⟩
  · exact fun k hk l hl => hs.unit k hk l ((hlit k hk).symm.trans hl)
  · exact fun k hk hl => hs.nonempty k hk ((hlit k hk).symm.trans hl)
  · intro k hk
    rcases (hg.has k).mp hk with hk | rfl
    · exact (hg.inCore k hk).trans (hs.unneeded k hk)
    · exact hg.inCore_new
  · have hcount := hs.count
    simp only [List.length_append, List.length_singleton, hg.count]
    omega
  · simp only [Array.toList_push]
    refine ht.snoc (fun k hk => ?_) hg.literals_new ?_
    · cases hk
      exact hnew
    · refine ht.covers_all.add ?_
      rw [hg.literals_new]
      exact Clause.distinct_same c
  · simp only [Array.toList_push, aliveAfter_append_singleton]
    exact hs.index.insert hg.literals_new fun k hk => hold k (mem_of_mem_aliveAfter hk)

/-- A deletion was read, and left out or matched. -/
theorem Loaded.deletion {step : Step} {index : ClauseIndex} (hs : Loaded n F f d s)
    (hstep : ∀ k, step ≠ .add k)
    (hread : ReadAs s.arena.literals (aliveAfter s.origins.toList s.steps.toList) (.delete c) step)
    (hcov : Covers s.arena.literals (step.carryOut (aliveAfter s.origins.toList s.steps.toList))
      ((Derivation.live f d).eraseP fun k => c.Same k))
    (hindex : index.Lists s.arena
      (step.carryOut (aliveAfter s.origins.toList s.steps.toList))) :
    Loaded n F f (d ++ [.delete c]) { s with index, steps := s.steps.push step } := by
  have hnone : added [step] = [] := by
    rw [List.eq_nil_iff_forall_not_mem]
    exact fun k hk => hstep k (List.mem_singleton.mp (mem_added.mp hk)).symm
  refine ⟨⟨hs.coherent.congr rfl rfl rfl, hs.origins, ?_, hs.nodup⟩, hs.forcing, hs.unit,
    hs.nonempty, hs.unmarked, hs.processed, hs.forced, hs.unneeded, hs.justified, ?_, ?_, ?_⟩
  · simp only [Array.toList_push, added_append, hnone, List.append_nil]
    exact hs.has
  · have hcount := hs.count
    simp only [List.length_append, List.length_singleton]
    omega
  · simp only [Array.toList_push]
    exact hs.transcript.snoc (fun k hk => (hstep k hk).elim) hread hcov
  · simpa only [Array.toList_push, aliveAfter_append_singleton] using hindex

theorem Loaded.ignore (hs : Loaded n F f d s) (c : Clause) :
    Loaded n F f (d ++ [.delete c]) { s with steps := s.steps.push .ignored } :=
  hs.deletion (by simp) trivial (hs.transcript.covers_all.ignore c) hs.index

theorem Loaded.delete (hs : Loaded n F f d s)
    (hl : s.index.lookup? s.arena c.distinct = some (i, h)) (hlen : 2 ≤ c.distinct.length) :
    Loaded n F f (d ++ [.delete c])
      { s with index := s.index.removeAt c.distinct i, steps := s.steps.push (.delete h) } := by
  obtain ⟨hi, hmem, hsame, hdig⟩ := ClauseIndex.same_of_lookup? hs.index (Clause.nodup_distinct c)
    hs.alive hl
  have hc : c.Same (s.arena.literals h) := (Clause.distinct_same c).symm.trans hsame
  have hnd := (hs.alive h hmem).2
  refine hs.deletion (by simp) ⟨hmem, hc, ?_⟩ (hs.transcript.covers_all.delete hmem hc.symm)
    (hs.index.removeAt hi hmem hdig)
  rw [← (hsame.perm (Clause.nodup_distinct c) hnd).length_eq]
  exact hlen

/-- A deletion that matches nothing names no live clause. -/
theorem Loaded.unmatched (hs : Loaded n F f d s)
    (hl : s.index.lookup? s.arena c.distinct = none) :
    ∀ k ∈ Derivation.live f d, ¬ c.Same k := by
  intro k hk hck
  obtain ⟨h, hh, hkh⟩ := hs.transcript.covers_all.exists_same hk
  exact ClauseIndex.not_same_of_lookup? hs.index (Clause.nodup_distinct c) hs.alive hl h hh
    ((Clause.distinct_same c).trans (hck.trans hkh))

theorem ends_resolve (hR : Objects settings f d R) (hs : Loaded n F f lines s)
    (hd : d = lines ++ .delete c :: more) (hno : .add [] ∉ lines) :
    Ends F R (resolve settings lines.length c c.distinct) s
      fun step s' => Loaded n F f (lines ++ [.delete c])
        { s' with steps := s'.steps.push step } := by
  have htake : d.take lines.length = lines := by simp [hd]
  simp only [resolve, ends_ite, ends_pure]
  split
  · exact hs.ignore c
  · rename_i hig
    simp only [ends_bind, ends_look]
    cases hl : s.index.lookup? s.arena c.distinct with
    | some found =>
      obtain ⟨i, h⟩ := found
      simp only [resolveMatch, ends_ite, ends_bind, ends_emit, ends_modify, ends_pure]
      split
      · exact (hs.noted (s.log.push (.unitDeletion c lines.length)) s.counters).ignore c
      · exact hs.delete hl (by omega)
    | none =>
      simp only [resolveUnmatched, ends_ite, ends_bind, ends_emit, ends_pure, ends_reject]
      split
      · rename_i hstrict
        refine hR _ _ trivial ⟨hstrict, by simpa using hig, ?_, by simp [hd], ?_⟩
        · intro j hj he
          rw [hd, List.getElem?_append_left hj] at he
          exact hno (List.mem_of_getElem? he)
        · rw [htake]
          exact hs.unmatched hl
      · exact (hs.noted (s.log.push (.unknownDeletion c lines.length)) s.counters).ignore c

theorem ends_readDeletion (hR : Objects settings f d R) (hs : Loaded n F f lines s)
    (hd : d = lines ++ .delete c :: more) (hno : .add [] ∉ lines) :
    Ends F R (readDeletion settings lines.length c c.distinct) s
      fun _ s' => Loaded n F f (lines ++ [.delete c]) s' := by
  simp only [readDeletion, ends_bind, ends_count]
  refine (ends_resolve hR (hs.noted s.log s.counters.countDeletion) hd hno).mono ?_
  intro step s' hs'
  simp only [recordStep]
  rw [ends_when]
  simp only [ends_ite, ends_count, ends_pure, ends_modify]
  split
  · exact hs'.noted s'.log s'.counters.countIgnored
  · exact hs'

theorem ends_readLemma (hs : Loaded n F f lines s) (hz : c.hasZero = false)
    (hsm : ∀ l ∈ c, l.var.index ≤ n) (hle : ∀ l ∈ c, l.val = Int32.minValue → F)
    (hmany : 2147483647 ≤ f.length + lines.length → F) :
    Ends F R (readLemma c.distinct) s fun _ s' => Loaded n F f (lines ++ [.add c]) s' := by
  simp only [readLemma, ends_bind, ends_count]
  have hs' := hs.noted s.log s.counters.countLemma
  refine ends_store_grown hs'.coherent.stored.wf (hasZero_distinct hz) ?_ fun h a' hg => ?_
  · intro hcount
    exact hmany (hcount ▸ hs.count)
  · exact hs'.lemma hg hsm hle

theorem ends_readLine (hfit : Fitting n F f d) (hR : Objects settings f d R)
    (hs : Loaded n F f lines s) (hd : d = lines ++ line :: more) (hno : .add [] ∉ lines) :
    Ends F R (readLine settings lines.length line) s
      fun last s' => Loaded n F f (lines ++ [line]) s' ∧ (last = true ↔ line = .add []) := by
  have hmem : line.clause ∈ f ++ d.map Derivation.Line.clause := by simp [hd]
  have hlen : d.length = lines.length + 1 + more.length := by
    simp [hd]
    omega
  simp only [readLine, ends_bind]
  refine ends_normalize (fun hz => hR _ s trivial ⟨line, by simp [hd], hz⟩) fun hz log => ?_
  have hs' := hs.noted log s.counters
  cases line with
  | delete c =>
    simp only [ends_bind]
    refine (ends_readDeletion hR hs' hd hno).mono ?_
    exact fun _ s' h => ⟨h, by simp⟩
  | add c =>
    simp only [ends_bind]
    refine (ends_readLemma hs' hz (hfit.small c hmem) (hfit.least c hmem) ?_).mono ?_
    · exact fun hmany => hfit.many (by omega)
    · intro _ s' hs'
      have hempty : c.distinct.isEmpty = true ↔ Derivation.Line.add c = .add [] := by
        rw [List.isEmpty_iff, Clause.distinct_eq_nil, Derivation.Line.add.injEq]
      rw [ends_when]
      simp only [ends_ite, ends_emit, ends_pure]
      split
      · exact ⟨hs'.noted _ _, hempty⟩
      · exact ⟨hs', hempty⟩

/-- How far a derivation was read: to its end, or to the empty lemma. -/
structure ReadTo (n : Nat) (F : Prop) (f : Formula) (d lines : Derivation) (s : State) : Prop where
  loaded : Loaded n F f lines s
  head : lines <+: d
  reaches : ∀ i, i < lines.length → d.Reaches i
  complete : lines = d ∨ .add [] ∈ lines

theorem ends_readLines (hfit : Fitting n F f d) (hR : Objects settings f d R)
    (hs : Loaded n F f lines s) (hd : d = lines ++ more) (hno : .add [] ∉ lines) :
    Ends F R (readLines settings lines.length more) s
      fun _ s' => ∃ lines', ReadTo n F f d lines' s' := by
  have hreach : d.Reaches lines.length := by
    intro j hj he
    rw [hd, List.getElem?_append_left hj] at he
    exact hno (List.mem_of_getElem? he)
  induction more generalizing lines s with
  | nil =>
    rw [List.append_nil] at hd
    refine ⟨lines, hs, hd ▸ List.prefix_refl _, ?_, Or.inl hd.symm⟩
    exact fun i hi j hj => hreach j (by omega)
  | cons line more ih =>
    simp only [readLines, ends_bind]
    refine (ends_readLine hfit hR hs hd hno).mono ?_
    rintro last s' ⟨hs', hlast⟩
    have hsplit : d = lines ++ [line] ++ more := by simp [hd]
    simp only [ends_ite, ends_pure]
    split
    · rename_i hl
      refine ⟨lines ++ [line], hs', ⟨more, hsplit.symm⟩, ?_, Or.inr (by simp [hlast.mp hl])⟩
      intro i hi j hj
      exact hreach j (by simp at hi; omega)
    · rename_i hl
      have hno' : .add [] ∉ lines ++ [line] := by
        intro hm
        rcases List.mem_append.mp hm with hm | hm
        · exact hno hm
        · exact hl (hlast.mpr (List.mem_singleton.mp hm).symm)
      have hrec := ih hs' hsplit hno' ?_
      · simpa using hrec
      · intro j hj he
        rw [hsplit, List.getElem?_append_left hj] at he
        exact hno' (List.mem_of_getElem? he)

theorem ends_readDerivation (hfit : Fitting n F f d) (hR : Objects settings f d R)
    (hs : Loaded n F f [] s) :
    Ends F R (readDerivation settings d) s
      fun _ s' => ∃ lines, ReadTo n F f d lines s' := by
  simp only [readDerivation, ends_bind, ends_look, ends_emit]
  refine (ends_readLines hfit hR hs rfl (by simp)).mono ?_
  rintro - s' ⟨lines, h⟩
  exact ⟨lines, h.loaded.noted _ _, h.head, h.reaches, h.complete⟩

end Reading

end UnsatCore.Engine
