import UnsatCore.Proofs.Sifting

/-! Deletions that are tolerated do nothing: a derivation gives the same result without them. -/
namespace UnsatCore

variable {settings : Settings} {f g : Formula} {d : Derivation} {c k : Clause}
  {line : Derivation.Line}

namespace Derivation

/-- Whether a line deletes a unit or the empty clause, which are never taken away. -/
def Line.isUnitDeletion (line : Line) : Bool :=
  line.isDeletion && line.clause.distinct.length ≤ 1

/-- The clauses that a deletion can name after the lines of a derivation. -/
def nameable (f : Formula) (d : Derivation) : Formula :=
  live f (d.filter fun line => !line.isUnitDeletion)

/-- Whether a line is a lemma. -/
def isLemma (d : Derivation) (j : Nat) : Bool := d[j]?.any fun line => !line.isDeletion

/-- Whether a line is a lemma, or a deletion that matches a clause. -/
def isMatched (f : Formula) (d : Derivation) (j : Nat) : Bool :=
  d[j]?.any fun
    | .add _ => true
    | .delete c => (nameable f (d.take j)).any fun k => c.Same k

theorem nameable_append_singleton :
    nameable f (d ++ [line]) =
      if line.isUnitDeletion then nameable f d else line.carryOut (nameable f d) := by
  rw [nameable, List.filter_append]
  by_cases h : line.isUnitDeletion = true
  · simp [h, nameable]
  · simp [h, nameable, live_append_singleton]

theorem sift_isLemma : d.sift d.isLemma = d.filter fun line => !line.isDeletion := by
  have hkept : d.numbered d.isLemma 0 = d.zipIdx.filter fun x => !x.1.isDeletion := by
    refine List.filter_congr fun x hx => ?_
    rw [isLemma, List.mem_zipIdx_iff_getElem?.mp hx]
    rfl
  calc d.sift d.isLemma = (d.zipIdx.filter fun x => !x.1.isDeletion).map Prod.fst := by
        rw [sift, hkept]
    _ = (d.zipIdx.map Prod.fst).filter fun line => !line.isDeletion := by
        rw [List.filter_map]
        rfl
    _ = d.filter fun line => !line.isDeletion := by rw [List.zipIdx_map_fst]

end Derivation

namespace Engine

open CheckM

variable {body body' : Handle → Clause} {alive : List Handle} {h : Handle} {s : State} {n i : Nat}
  {F : Prop} {lines : Derivation}

/-- For each copy of a clause there is a handle, and there are no others. -/
def Tallies (body : Handle → Clause) (alive : List Handle) (f : Formula) : Prop :=
  ∀ k : Clause, f.countP (fun d => k.Same d) = alive.countP fun h => k.Same (body h)

namespace Tallies

theorem exists_same_iff (ht : Tallies body alive f) :
    (∃ k ∈ f, c.Same k) ↔ ∃ h ∈ alive, c.Same (body h) := by
  have hpos : 0 < f.countP (fun d => c.Same d) ↔ 0 < alive.countP fun h => c.Same (body h) := by
    rw [ht c]
  simpa [List.countP_pos_iff] using hpos

theorem congr (ht : Tallies body alive f) (hb : ∀ h ∈ alive, body' h = body h) :
    Tallies body' alive f := by
  intro k
  rw [List.countP_congr (p := fun h => k.Same (body' h)) (q := fun h => k.Same (body h))
    fun h hh => by rw [hb h hh]]
  exact ht k

theorem add (ht : Tallies body alive f) (hs : (body h).Same c) :
    Tallies body (h :: alive) (c :: f) := by
  intro k
  have hiff : k.Same c ↔ k.Same (body h) := ⟨fun hk => hk.trans hs.symm, fun hk => hk.trans hs⟩
  simp only [List.countP_cons, hiff, ht k]

theorem delete (ht : Tallies body alive f) (hh : h ∈ alive) (hs : c.Same (body h)) :
    Tallies body (alive.erase h) (f.eraseP fun d => c.Same d) := by
  intro k
  obtain ⟨d, hd, hcd⟩ := ht.exists_same_iff.mpr ⟨h, hh, hs⟩
  obtain ⟨d', f₁, f₂, -, hcd', he, herase⟩ := List.exists_of_eraseP hd (p := fun d => c.Same d)
    (by simpa using hcd)
  have hsame : c.Same d' := by simpa using hcd'
  have hiff : k.Same d' ↔ k.Same (body h) :=
    ⟨fun hk => hk.trans (hsame.symm.trans hs), fun hk => hk.trans (hs.symm.trans hsame)⟩
  have hk := ht k
  rw [(List.perm_cons_erase hh).countP_eq, he] at hk
  rw [herase]
  simp only [List.countP_append, List.countP_cons, hiff] at hk ⊢
  omega

end Tallies

/-- What deletions can name in a state. -/
def State.Names (s : State) (f : Formula) : Prop :=
  Tallies s.arena.literals (aliveAfter s.origins.toList s.steps.toList) f

/-- The clauses of the formula are stored as often as they are given. -/
theorem Loaded.countP_origins (hl : Loaded n F f d s) (k : Clause) :
    f.countP (fun c => k.Same c) =
      s.origins.toList.countP fun h => k.Same (s.arena.literals h) := by
  have hiff : ∀ c : Clause, k.Same c ↔ k.Same c.distinct := fun c =>
    ⟨fun hk => hk.trans (Clause.distinct_same c).symm, fun hk => hk.trans (Clause.distinct_same c)⟩
  calc f.countP (fun c => k.Same c)
      = (f.map Clause.distinct).countP (fun c => k.Same c) := by
        rw [List.countP_map]
        exact List.countP_congr fun c _ => by simp [hiff c]
    _ = (s.origins.toList.map s.arena.literals).countP (fun c => k.Same c) := by rw [hl.origins]
    _ = s.origins.toList.countP fun h => k.Same (s.arena.literals h) := by
        rw [List.countP_map]
        rfl

theorem Loaded.names (hl : Loaded n F f [] s) : s.Names f := by
  have hsteps : s.steps.toList = [] := List.length_eq_zero_iff.mp hl.transcript.length
  intro k
  rw [hl.countP_origins k, hsteps]
  rfl

/-- Whether a deletion matches is told by the clauses alone. -/
theorem Loaded.lookup?_ne_none_iff (hl : Loaded n F f lines s) (hs : s.Names g) :
    s.index.lookup? s.arena c.distinct ≠ none ↔ ∃ k ∈ g, c.Same k := by
  rw [hs.exists_same_iff]
  constructor
  · intro hne
    obtain ⟨⟨i, h⟩, hi⟩ := Option.ne_none_iff_exists'.mp hne
    obtain ⟨-, hmem, hsame, -⟩ :=
      ClauseIndex.same_of_lookup? hl.index (Clause.nodup_distinct c) hl.alive hi
    exact ⟨h, hmem, (Clause.distinct_same c).symm.trans hsame⟩
  · rintro ⟨h, hh, hsame⟩ hnone
    exact ClauseIndex.not_same_of_lookup? hl.index (Clause.nodup_distinct c) hl.alive hnone h hh
      ((Clause.distinct_same c).trans hsame)

/-- Clauses are taken away by the deletions that match one of at least two literals. -/
theorem ends_resolve_names (hl : Loaded n F f lines s)
    (hs : s.Names (Derivation.nameable f lines)) (hig : settings.ignoreDeletions = false) :
    Ends True (fun _ _ => True) (resolve settings i c c.distinct) s fun step t =>
      t.arena = s.arena ∧ t.origins = s.origins ∧ t.steps = s.steps ∧
        Tallies s.arena.literals (step.carryOut (aliveAfter s.origins.toList s.steps.toList))
          (Derivation.nameable f (lines ++ [.delete c])) := by
  have hunit : (Derivation.Line.delete c).isUnitDeletion = true ↔ c.distinct.length ≤ 1 :=
    decide_eq_true_iff
  simp only [resolve, hig, Bool.false_eq_true, if_false, ends_bind, ends_look,
    Derivation.nameable_append_singleton, hunit]
  have hlook := hl.lookup?_ne_none_iff (c := c) hs
  cases hfind : s.index.lookup? s.arena c.distinct with
  | some found =>
    obtain ⟨i, h⟩ := found
    obtain ⟨-, hmem, hsame, -⟩ :=
      ClauseIndex.same_of_lookup? hl.index (Clause.nodup_distinct c) hl.alive hfind
    simp only [resolveMatch, ends_ite, ends_bind, ends_emit, ends_modify, ends_pure, true_and]
    split
    · exact hs
    · exact hs.delete hmem ((Clause.distinct_same c).symm.trans hsame)
  | none =>
    -- Nothing has the literals of `c`, so there is nothing to take away from the names either.
    have hnone : ∀ k ∈ Derivation.nameable f lines, ¬ c.Same k := fun k hk hck =>
      hlook.mpr ⟨k, hk, hck⟩ hfind
    have hgone : Derivation.Line.carryOut (Derivation.nameable f lines) (.delete c) =
        Derivation.nameable f lines :=
      List.eraseP_of_forall_not fun k hk => by simpa using hnone k hk
    simp only [resolveUnmatched, ends_ite, ends_bind, ends_emit, ends_pure, ends_reject, true_and,
      hgone, ite_self]
    split
    · trivial
    · exact hs

theorem ends_readLine_names (hl : Loaded n F f lines s)
    (hs : s.Names (Derivation.nameable f lines)) (hig : settings.ignoreDeletions = false) :
    Ends True (fun _ _ => True) (readLine settings i line) s fun _ t =>
      t.Names (Derivation.nameable f (lines ++ [line])) := by
  simp only [readLine, ends_bind]
  refine ends_normalize (fun _ => trivial) fun hz log => ?_
  cases line with
  | delete c =>
    simp only [readDeletion, ends_bind, ends_count]
    refine (ends_resolve_names (hl.noted log s.counters.countDeletion) hs hig).mono ?_
    rintro step t ⟨ha, ho, hst, ht⟩
    have hend : ∀ n, State.Names { t with counters := n, steps := t.steps.push step }
        (Derivation.nameable f (lines ++ [.delete c])) := by
      intro n
      rw [State.Names, ha, ho, hst, Array.toList_push, aliveAfter_append_singleton]
      exact ht
    rw [ends_when]
    simp only [ends_ite, ends_count, ends_pure, recordStep, ends_modify]
    split
    · exact hend _
    · exact hend t.counters
  | add c =>
    simp only [readLemma, ends_bind, ends_count]
    refine ends_store_grown hl.coherent.stored.wf (hasZero_distinct hz) (fun _ => trivial)
      fun h a' hg => ?_
    have hend : State.Names { s with arena := a', steps := s.steps.push (.add h) }
        (Derivation.nameable f (lines ++ [.add c])) := by
      rw [State.Names, Array.toList_push, aliveAfter_append_singleton,
        Derivation.nameable_append_singleton]
      refine (hs.congr fun k hk => hg.literals k (hl.alive k hk).1).add ?_
      rw [hg.literals_new]
      exact Clause.distinct_same c
    rw [recordStep, ends_modify, ends_when]
    simp only [ends_ite, ends_emit, ends_pure]
    split
    · exact hend
    · exact hend

/-- What is known when a line comes. -/
structure Arrives (f : Formula) (d : Derivation) (j : Nat) (s : State) : Prop where
  loaded : Loaded (maxVar f d) True f (d.take j) s
  going : .add [] ∉ d.take j
  names : s.Names (Derivation.nameable f (d.take j))

theorem Arrives.next {j : Nat} {t : State} (ha : Arrives f d j s) (hj : d[j]? = some line)
    (hig : settings.ignoreDeletions = false) (hrun : readLine settings j line s = .ok (false, t)) :
    Arrives f d (j + 1) t := by
  obtain ⟨hlt, hget⟩ := List.getElem?_eq_some_iff.mp hj
  have hlen : (d.take j).length = j := List.length_take_of_le (Nat.le_of_lt hlt)
  have hsplit := eq_take_append_cons_drop hj
  have htake : d.take (j + 1) = d.take j ++ [line] := by
    rw [List.take_add_one, hj]
    rfl
  have hR : Objects settings f d fun _ _ => True := fun _ _ _ _ => trivial
  have hline := ends_readLine (fitting_excused f d) hR ha.loaded hsplit ha.going
  rw [hlen] at hline
  obtain ⟨hloaded, hlast⟩ := hline.of_ok hrun
  refine ⟨htake ▸ hloaded, ?_, htake ▸ (ends_readLine_names ha.loaded ha.names hig).of_ok hrun⟩
  rw [htake, List.mem_append, List.mem_singleton]
  rintro (hm | rfl)
  · exact ha.going hm
  · exact absurd (hlast.mpr rfl) (by simp)

theorem sifts_isLemma (hz : ∀ line ∈ d, line.isDeletion = true → line.clause.hasZero = false)
    (hig : settings.ignoreDeletions = true) :
    Sifts (.start (maxVar f (d.sift d.isLemma)) d.isLemma .lemmas) settings settings d
      fun _ _ => True where
  next := fun _ _ _ => trivial
  kept := fun hj _ hk => ⟨small_of_kept hj hk, fun _ _ => Or.inl rfl⟩
  passed := by
    intro j line s hj _ hk
    refine ⟨by simp [Bond.start], ?_⟩
    cases line with
    | add c => exact absurd (by simp [Bond.start, Derivation.isLemma, hj]; rfl) hk
    | delete c => exact ⟨c, rfl, hz _ (List.mem_of_getElem? hj) rfl, Or.inl hig⟩

theorem sifts_isMatched (hz : ∀ line ∈ d, line.isDeletion = true → line.clause.hasZero = false)
    (hig : settings.ignoreDeletions = false) (hst : settings.strictDeletions = false) :
    Sifts (.start (maxVar f (d.sift (d.isMatched f))) (d.isMatched f) .lemmas)
      { settings with strictDeletions := true } settings d (Arrives f d) where
  next := fun hj ha hrun => ha.next hj hig hrun
  kept := by
    intro j line s hj ha hk
    refine ⟨small_of_kept hj hk, ?_⟩
    rintro c rfl
    refine Or.inr ⟨rfl, (ha.loaded.lookup?_ne_none_iff ha.names).mpr ?_⟩
    simpa [Bond.start, Derivation.isMatched, hj] using hk
  passed := by
    intro j line s hj ha hk
    refine ⟨by simp [Bond.start], ?_⟩
    cases line with
    | add c => exact absurd (by simp [Bond.start, Derivation.isMatched, hj]) hk
    | delete c =>
      refine ⟨c, rfl, hz _ (List.mem_of_getElem? hj) rfl, Or.inr ⟨hst, ?_⟩⟩
      by_contra hne
      refine hk ?_
      simpa [Bond.start, Derivation.isMatched, hj] using
        (ha.loaded.lookup?_ne_none_iff ha.names).mp hne

end Engine

open Engine

/-- Deletions that are tolerated change neither the result nor the line that it is rejected for,
whose number is the one before they were taken out, nor any counter but those of the deletions. -/
theorem extract_tolerates (hz : ∀ line ∈ d, line.isDeletion = true → line.clause.hasZero = false) :
    (settings.ignoreDeletions = true →
      (extract settings f d).result.map (Core.within .lemmas) =
        ((extract settings f (d.filter fun line => !line.isDeletion)).result.map
          (Core.within .lemmas)).mapError (Failure.renumber (d.number d.isLemma))) ∧
    (settings.ignoreDeletions = false → settings.strictDeletions = false →
      (extract settings f d).result.map (Core.within .lemmas) =
        ((extract { settings with strictDeletions := true } f (d.sift (d.isMatched f))).result.map
          (Core.within .lemmas)).mapError (Failure.renumber (d.number (d.isMatched f)))) := by
  have hlt : ∀ {p : Derivation.Line → Bool} {j : Nat}, d[j]?.any p = true → j < d.length := by
    intro p j h
    obtain ⟨line, hj, -⟩ := (Option.any_eq_true _ _).mp h
    exact (List.getElem?_eq_some_iff.mp hj).1
  refine ⟨fun hig => ?_, fun hig hst => ?_⟩
  · rw [← Derivation.sift_isLemma]
    exact extract_sift (sifts_isLemma hz hig) (fun _ _ => trivial) rfl fun _ => hlt
  · exact extract_sift (sifts_isMatched hz hig hst)
      (fun s hl => ⟨hl, List.not_mem_nil, hl.names⟩) rfl fun _ => hlt

/-- The empty lemma is rejected as the first line, and as the second one after a deletion that
matches nothing or is ignored. -/
theorem extract_tolerates_shift :
    (extract { strictDeletions := false } [[⟨1⟩, ⟨2⟩]] [.delete [⟨3⟩], .add []]).result.map
      (Core.within .lemmas) = .error (.rejected (.conflictNotFound 1)) ∧
    (extract { ignoreDeletions := true } [[⟨1⟩, ⟨2⟩]] [.delete [⟨2⟩, ⟨1⟩], .add []]).result.map
      (Core.within .lemmas) = .error (.rejected (.conflictNotFound 1)) := by
  constructor
  · rw [(extract_tolerates (by decide)).2 rfl rfl]
    rw [(Outcome.rejection?_eq_some_iff (r := .conflictNotFound 0)).mp (by decide +kernel)]
    rfl
  · rw [(extract_tolerates (by decide)).1 rfl]
    rw [(Outcome.rejection?_eq_some_iff (r := .conflictNotFound 0)).mp (by decide +kernel)]
    rfl

end UnsatCore
