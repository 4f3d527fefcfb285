import UnsatCore.Proofs.Independence
import UnsatCore.Proofs.Tolerance

/-! How deletions are matched. A deletion takes a clause away if more clauses with its literals came
before it than were taken away, whatever the digests of the clauses are. -/
namespace UnsatCore

variable {settings : Settings} {f : Formula} {d : Derivation} {c k : Clause} {i j n : Nat}
  {F : Prop} {line : Derivation.Line}

namespace Derivation

/-- The clauses that the lines of a derivation add. -/
def additions (d : Derivation) : Formula :=
  d.filterMap fun
    | .add c => some c
    | .delete _ => none

@[simp] theorem additions_append_add (d : Derivation) (c : Clause) :
    additions (d ++ [.add c]) = additions d ++ [c] := List.filterMap_append

@[simp] theorem additions_append_delete (d : Derivation) (c : Clause) :
    additions (d ++ [.delete c]) = additions d :=
  List.filterMap_append.trans (List.append_nil _)

/-- How many clauses with the literals of `c` come in the formula and in the lines. -/
def copies (f : Formula) (d : Derivation) (c : Clause) : Nat :=
  (f ++ d.additions).countP fun k => c.Same k

end Derivation

namespace Engine

open CheckM

variable {body : Handle → Clause} {origins : List Handle} {steps : List Step} {s s' t : State}
  {step : Step} {h : Handle}

/-- Whether a line deletes a clause with the literals of `c` and was read as the deletion of one. -/
def takesAway (c : Clause) : Derivation.Line × Step → Bool
  | (.delete k, .delete _) => c.Same k
  | _ => false

/-- How many of the lines took away a clause with the literals of `c`. -/
def takenAway (c : Clause) (d : Derivation) (steps : List Step) : Nat :=
  (d.zip steps).countP (takesAway c)

theorem takenAway_append_singleton (hlen : d.length = steps.length) :
    takenAway c (d ++ [line]) (steps ++ [step]) =
      takenAway c d steps + if takesAway c (line, step) = true then 1 else 0 := by
  rw [takenAway, List.zip_append hlen, List.countP_append, ← takenAway, List.zip_cons_cons,
    List.zip_nil_left, List.countP_singleton]

/-- The state in which line `j` is read, if the run comes to it. -/
def stateBefore (settings : Settings) (f : Formula) (d : Derivation) : (j : Nat) → Option State
  | 0 => after (do emit (.started f.length d.length); readFormula 0 f) .ready
      (.initial (maxVar f d))
  | j + 1 => (stateBefore settings f d j).bind fun s =>
      (d[j]?).bind fun line => after (readLine settings j line) false s

section Reading

theorem stateBefore_succ (h : stateBefore settings f d (j + 1) = some t) :
    ∃ s line, stateBefore settings f d j = some s ∧ d[j]? = some line ∧
      readLine settings j line s = .ok (false, t) := by
  obtain ⟨s, hs, h⟩ := Option.bind_eq_some_iff.mp h
  obtain ⟨line, hj, h⟩ := Option.bind_eq_some_iff.mp h
  exact ⟨s, line, hs, hj, after_eq_some_iff.mp h⟩

/-- Reading the lines goes through these states. -/
theorem readLines_of_stateBefore (h : stateBefore settings f d j = some s) :
    ∃ s₀, stateBefore settings f d 0 = some s₀ ∧
      readLines settings 0 d s₀ = readLines settings j (d.drop j) s := by
  induction j generalizing s with
  | zero => exact ⟨s, h, rfl⟩
  | succ j ih =>
    obtain ⟨s', line, hs', hj, hrun⟩ := stateBefore_succ h
    obtain ⟨s₀, hs₀, he⟩ := ih hs'
    refine ⟨s₀, hs₀, he.trans ?_⟩
    obtain ⟨hlt, rfl⟩ := List.getElem?_eq_some_iff.mp hj
    rw [← List.getElem_cons_drop hlt, readLines, bind_of_ok hrun]
    rfl

/-- A line that is refused ends the run. -/
theorem result_of_refused {r : Rejection} (hs : stateBefore settings f d j = some s)
    (hj : d[j]? = some line) (hr : readLine settings j line s = .error (.rejected r t)) :
    (extract settings f d).result = .error (.rejected r) := by
  obtain ⟨s₀, hs₀, he⟩ := readLines_of_stateBefore hs
  obtain ⟨⟨⟩, s₁, hstart, hformula⟩ := bind_eq_ok_iff.mp (after_eq_some_iff.mp hs₀)
  obtain ⟨hlt, rfl⟩ := List.getElem?_eq_some_iff.mp hj
  have hlines : readLines settings 0 d s₀ = .error (.rejected r t) := by
    rw [he, ← List.getElem_cons_drop hlt, readLines]
    exact bind_of_error hr
  have hrun : run settings f d (.initial (maxVar f d)) = .error (.rejected r t) := by
    refine (bind_of_ok hstart).trans ((bind_of_ok hformula).trans ?_)
    exact bind_of_error (bind_of_error hlines)
  rw [extract, hrun]

theorem loaded_of_stateBefore_zero (h : stateBefore settings f d 0 = some s) :
    Loaded (maxVar f d) True f [] s := by
  have hR : Objects settings f d fun _ _ => True := fun _ _ _ _ => trivial
  have hends : Ends True (fun _ _ => True)
      (do emit (.started f.length d.length); readFormula 0 f) (.initial (maxVar f d))
      fun r s => Opened (maxVar f d) True f s r := by
    simp only [ends_bind, ends_emit]
    exact ends_readFormula [] (fitting_excused f d) hR ((loaded_initial _ True).noted _ _) rfl
  exact hends.of_ok (after_eq_some_iff.mp h)

theorem arrives_of_stateBefore (hig : settings.ignoreDeletions = false)
    (h : stateBefore settings f d j = some s) : Arrives f d j s := by
  induction j generalizing s with
  | zero =>
    have hs := loaded_of_stateBefore_zero h
    exact ⟨hs, List.not_mem_nil, hs.names⟩
  | succ j ih =>
    obtain ⟨s', line, hs', hj, hrun⟩ := stateBefore_succ h
    exact (ih hs').next hj hig hrun

end Reading

section Counting

/-- Each clause that came can still be named, or was taken away. -/
theorem Transcript.balance (ht : Transcript body origins f d steps) (c : Clause)
    (hi : i ≤ d.length) :
    (aliveAfter origins (steps.take i)).countP (fun h => c.Same (body h)) +
        takenAway c (d.take i) (steps.take i) =
      origins.countP (fun h => c.Same (body h)) +
        (Derivation.additions (d.take i)).countP fun k => c.Same k := by
  induction i with
  | zero => rfl
  | succ i ih =>
    have ih := ih (by omega)
    obtain ⟨line, hline⟩ : ∃ line, d[i]? = some line := ⟨_, List.getElem?_eq_getElem hi⟩
    obtain ⟨step, hstep⟩ : ∃ step, steps[i]? = some step :=
      ⟨_, List.getElem?_eq_getElem (ht.length ▸ hi)⟩
    have hread := ht.read i line step hline hstep
    have hlen : (d.take i).length = (steps.take i).length := by
      simp only [List.length_take, ht.length]
    simp only [List.take_add_one, hline, hstep, Option.toList_some, aliveAfter_append_singleton,
      takenAway_append_singleton hlen]
    cases line with
    | add k =>
      cases step with
      | add h =>
        have hsame : (body h).Same k := by
          rw [show body h = k.distinct from hread]
          exact k.distinct_same
        have hiff : decide (c.Same (body h)) = decide (c.Same k) :=
          decide_eq_decide.mpr ⟨fun hc => hc.trans hsame, fun hc => hc.trans hsame.symm⟩
        simp only [Step.carryOut, List.countP_cons, hiff, takesAway, Bool.false_eq_true, if_false,
          Derivation.additions_append_add, List.countP_append, List.countP_nil]
        omega
      | delete h => cases hread
      | satisfied h => cases hread
      | ignored => cases hread
    | delete k =>
      rw [Derivation.additions_append_delete]
      cases step with
      | add h => cases hread
      | delete h =>
        obtain ⟨hmem, hsame, -⟩ := hread
        have hiff : decide (c.Same (body h)) = decide (c.Same k) :=
          decide_eq_decide.mpr ⟨fun hc => hc.trans hsame.symm, fun hc => hc.trans hsame⟩
        simp only [(List.perm_cons_erase hmem).countP_eq, List.countP_cons, hiff] at ih
        rw [Step.carryOut, show takesAway c (.delete k, .delete h) = decide (c.Same k) from rfl]
        omega
      | satisfied h => cases hread
      | ignored => simpa [Step.carryOut, takesAway] using ih

/-- A clause of fewer than two literals is never taken away. -/
theorem Loaded.takenAway_eq_zero (hl : Loaded n F f d s) (hc : c.distinct.length ≤ 1) :
    takenAway c d s.steps.toList = 0 := by
  rw [takenAway, List.countP_eq_zero]
  rintro ⟨line, step⟩ hm
  obtain ⟨i, hi⟩ := List.mem_iff_getElem?.mp hm
  obtain ⟨hline, hstep⟩ := List.getElem?_zip_eq_some.mp hi
  have hread := hl.transcript.read i line step hline hstep
  cases line with
  | add k => simp [takesAway]
  | delete k =>
    cases step with
    | add h => cases hread
    | satisfied h => cases hread
    | ignored => simp [takesAway]
    | delete h =>
      obtain ⟨hmem, hsame, hlen⟩ := hread
      have hnodup := hl.coherent.stored.nodup h
        ((hl.has h).mpr (mem_added_of_take (mem_of_mem_aliveAfter hmem)))
      simp only [takesAway, decide_eq_true_eq]
      intro hck
      have hperm := ((c.distinct_same.trans hck).trans hsame).perm c.nodup_distinct hnodup
      rw [hperm.length_eq] at hc
      omega

/-- A clause can be named as long as more copies of it came than were taken away. -/
theorem Loaded.exists_alive_iff (hl : Loaded n F f d s) (c : Clause) :
    (∃ h ∈ aliveAfter s.origins.toList s.steps.toList, c.Same (s.arena.literals h)) ↔
      takenAway c d s.steps.toList < d.copies f c := by
  have hb := hl.transcript.balance c (Nat.le_refl _)
  rw [← hl.countP_origins c, List.take_length, ← hl.transcript.length, List.take_length] at hb
  have hpos := List.countP_pos_iff (p := fun h => c.Same (s.arena.literals h))
    (l := aliveAfter s.origins.toList s.steps.toList)
  simp only [decide_eq_true_eq] at hpos
  rw [← hpos, Derivation.copies, List.countP_append]
  omega

end Counting

section Deleting

/-- Line `j`, which is read in the state `s`, becomes `step`. -/
def Becomes (settings : Settings) (f : Formula) (d : Derivation) (j : Nat) (s : State)
    (step : Step) : Prop :=
  ∃ t, stateBefore settings f d (j + 1) = some t ∧ t.steps = s.steps.push step

/-- Line `j`, a deletion of `c` that is read in the state `s`, is found to match nothing. -/
def Unmatched (settings : Settings) (f : Formula) (d : Derivation) (j : Nat) (c : Clause)
    (s : State) : Prop :=
  if settings.strictDeletions = true then
    (extract settings f d).result = .error (.rejected (.unmatchedDeletion j c))
  else Becomes settings f d j s .ignored

theorem Becomes.unique {step' : Step} (h : Becomes settings f d j s step)
    (h' : Becomes settings f d j s step') : step = step' := by
  obtain ⟨t, ht, hsteps⟩ := h
  obtain ⟨t', ht', hsteps'⟩ := h'
  rw [ht] at ht'
  cases ht'
  exact (Array.push_eq_push.mp (hsteps.symm.trans hsteps')).1

/-- A deletion is read by resolving it. -/
theorem ends_readLine_delete {R : Rejection → State → Prop} {Q : Bool → State → Prop}
    (hz : c.hasZero = false)
    (h : ∀ log, Ends F R (resolve settings j c c.distinct)
      { s with log, counters := s.counters.countDeletion } fun step t =>
        ∀ counters, Q false { t with counters, steps := t.steps.push step }) :
    Ends F R (readLine settings j (.delete c)) s Q := by
  simp only [readLine, ends_bind]
  refine ends_normalize (fun hc => ?_) fun _ log => ?_
  · rw [Derivation.Line.clause, hz] at hc
    cases hc
  simp only [readDeletion, Derivation.Line.clause, ends_bind, ends_count, ends_pure]
  refine (h log).mono fun step t ht => ?_
  rw [ends_when]
  simp only [ends_ite, ends_count, ends_pure, recordStep, ends_modify]
  split
  · exact ht _
  · exact ht t.counters

theorem becomes_of_ends (hs : stateBefore settings f d j = some s) (hj : d[j]? = some line)
    (h : Ends False (fun _ _ => False) (readLine settings j line) s fun last t =>
      last = false ∧ t.steps = s.steps.push step) : Becomes settings f d j s step := by
  obtain ⟨_, t, hrun, rfl, hsteps⟩ := h.exists_ok
  refine ⟨t, ?_, hsteps⟩
  rw [stateBefore, hs, Option.bind_some, hj, Option.bind_some, after_eq_some_iff]
  exact hrun

/-- A clause that can be named is found. -/
theorem Loaded.exists_lookup? (hl : Loaded n F f d s)
    (hm : ∃ h ∈ aliveAfter s.origins.toList s.steps.toList, c.Same (s.arena.literals h)) :
    ∃ i h, s.index.lookup? s.arena c.distinct = some (i, h) ∧
      h ∈ aliveAfter s.origins.toList s.steps.toList ∧ c.Same (s.arena.literals h) := by
  have hfound : s.index.lookup? s.arena c.distinct ≠ none := by
    intro hnone
    obtain ⟨h, hh, hsame⟩ := hm
    exact ClauseIndex.not_same_of_lookup? hl.index c.nodup_distinct hl.alive hnone h hh
      (c.distinct_same.trans hsame)
  obtain ⟨⟨i, h⟩, hi⟩ := Option.ne_none_iff_exists'.mp hfound
  obtain ⟨-, hmem, hsame, -⟩ := ClauseIndex.same_of_lookup? hl.index c.nodup_distinct hl.alive hi
  exact ⟨i, h, hi, hmem, c.distinct_same.symm.trans hsame⟩

theorem becomes_delete (hs : stateBefore settings f d j = some s)
    (hj : d[j]? = some (.delete c)) (hig : settings.ignoreDeletions = false)
    (hz : c.hasZero = false) (hlen : 2 ≤ c.distinct.length)
    (hm : ∃ h ∈ aliveAfter s.origins.toList s.steps.toList, c.Same (s.arena.literals h)) :
    ∃ h ∈ aliveAfter s.origins.toList s.steps.toList, c.Same (s.arena.literals h) ∧
      Becomes settings f d j s (.delete h) := by
  obtain ⟨i, h, hi, hmem, hsame⟩ := (arrives_of_stateBefore hig hs).loaded.exists_lookup? hm
  refine ⟨h, hmem, hsame, becomes_of_ends hs hj (ends_readLine_delete hz fun log => ?_)⟩
  simp only [resolve, hig, Bool.false_eq_true, if_false, ends_bind, ends_look, hi, resolveMatch,
    if_neg (Nat.not_le.mpr hlen), ends_modify, ends_pure]
  exact fun _ => ⟨trivial, trivial⟩

theorem becomes_ignored (hs : stateBefore settings f d j = some s)
    (hj : d[j]? = some (.delete c)) (hig : settings.ignoreDeletions = false)
    (hz : c.hasZero = false) (hlen : c.distinct.length ≤ 1)
    (hm : ∃ h ∈ aliveAfter s.origins.toList s.steps.toList, c.Same (s.arena.literals h)) :
    Becomes settings f d j s .ignored := by
  obtain ⟨i, h, hi, -, -⟩ := (arrives_of_stateBefore hig hs).loaded.exists_lookup? hm
  refine becomes_of_ends hs hj (ends_readLine_delete hz fun log => ?_)
  simp only [resolve, hig, Bool.false_eq_true, if_false, ends_bind, ends_look, hi, resolveMatch,
    if_pos hlen, ends_emit, ends_pure]
  exact fun _ => ⟨trivial, trivial⟩

theorem unmatched_of_not_alive (hs : stateBefore settings f d j = some s)
    (hj : d[j]? = some (.delete c)) (hig : settings.ignoreDeletions = false)
    (hz : c.hasZero = false)
    (hno : ¬ ∃ h ∈ aliveAfter s.origins.toList s.steps.toList, c.Same (s.arena.literals h)) :
    Unmatched settings f d j c s := by
  have hl := (arrives_of_stateBefore hig hs).loaded
  have hnone : s.index.lookup? s.arena c.distinct = none := by
    by_contra hfound
    obtain ⟨⟨i, h⟩, hi⟩ := Option.ne_none_iff_exists'.mp hfound
    obtain ⟨-, hmem, hsame, -⟩ :=
      ClauseIndex.same_of_lookup? hl.index c.nodup_distinct hl.alive hi
    exact hno ⟨h, hmem, c.distinct_same.symm.trans hsame⟩
  rw [Unmatched]
  split
  · rename_i hstrict
    have hends : Ends False (fun r _ => r = .unmatchedDeletion j c)
        (readLine settings j (.delete c)) s fun _ _ => False := by
      refine ends_readLine_delete hz fun log => ?_
      simp only [resolve, hig, Bool.false_eq_true, if_false, ends_bind, ends_look, hnone,
        resolveUnmatched, if_pos hstrict, ends_reject]
    obtain ⟨_, t, hrun, rfl⟩ := hends.exists_rejected
    exact result_of_refused hs hj hrun
  · rename_i hstrict
    refine becomes_of_ends hs hj (ends_readLine_delete hz fun log => ?_)
    simp only [resolve, hig, Bool.false_eq_true, if_false, ends_bind, ends_look, hnone,
      resolveUnmatched, if_neg hstrict, ends_emit, ends_pure]
    exact fun _ => ⟨trivial, trivial⟩

/-- What is taken away could be named. -/
theorem alive_of_becomes (hs : stateBefore settings f d j = some s)
    (hj : d[j]? = some (.delete c)) (hig : settings.ignoreDeletions = false)
    (hz : c.hasZero = false) (hb : Becomes settings f d j s (.delete h)) :
    h ∈ aliveAfter s.origins.toList s.steps.toList ∧ c.Same (s.arena.literals h) := by
  have hl := (arrives_of_stateBefore hig hs).loaded
  obtain ⟨t, ht, hsteps⟩ := hb
  obtain ⟨s', line, hs', hline, hrun⟩ := stateBefore_succ ht
  obtain rfl : s = s' := Option.some_inj.mp (hs.symm.trans hs')
  obtain rfl : Derivation.Line.delete c = line := Option.some_inj.mp (hj.symm.trans hline)
  have hends : Ends True (fun _ _ => True) (readLine settings j (.delete c)) s fun _ t =>
      ∃ step, t.steps = s.steps.push step ∧ ∀ h, step = .delete h →
        h ∈ aliveAfter s.origins.toList s.steps.toList ∧ c.Same (s.arena.literals h) := by
    refine ends_readLine_delete hz fun log => ?_
    simp only [resolve, hig, Bool.false_eq_true, if_false, ends_bind, ends_look]
    cases hfind : s.index.lookup? s.arena c.distinct with
    | none =>
      simp only [resolveUnmatched, ends_ite, ends_reject, ends_bind, ends_emit, ends_pure]
      split
      · trivial
      · exact fun _ => ⟨_, rfl, by simp⟩
    | some found =>
      obtain ⟨i, h⟩ := found
      obtain ⟨-, hmem, hsame, -⟩ :=
        ClauseIndex.same_of_lookup? hl.index c.nodup_distinct hl.alive hfind
      simp only [resolveMatch, ends_ite, ends_bind, ends_emit, ends_modify, ends_pure]
      split
      · exact fun _ => ⟨_, rfl, by simp⟩
      · refine fun _ => ⟨_, rfl, ?_⟩
        rintro _ ⟨⟩
        exact ⟨hmem, c.distinct_same.symm.trans hsame⟩
  obtain ⟨step, hpush, hstep⟩ := hends.of_ok hrun
  exact hstep h (Array.push_eq_push.mp (hpush.symm.trans hsteps)).1

/-- A handle comes from a clause of the formula or from a lemma with the literals of `c`. -/
def Brought (f : Formula) (d : Derivation) (s : State) (h : Handle) (c : Clause) : Prop :=
  ∃ (i : Nat) (k : Clause), c.Same k ∧ (s.origins[i]? = some h ∧ f[i]? = some k ∨
    s.steps[i]? = some (.add h) ∧ d[i]? = some (.add k))

theorem Loaded.brought (hl : Loaded n F f d s)
    (hh : h ∈ aliveAfter s.origins.toList s.steps.toList) (hc : c.Same (s.arena.literals h)) :
    Brought f d s h c := by
  rcases List.mem_append.mp (mem_of_mem_aliveAfter hh) with hh | hh
  · obtain ⟨i, hi⟩ := List.mem_iff_getElem?.mp hh
    rw [Array.getElem?_toList] at hi
    have hlt : i < f.length := hl.toStocked.origins_size ▸ (Array.getElem?_eq_some_iff.mp hi).1
    have hlit := hl.toStocked.literals_origin hi (List.getElem?_eq_getElem hlt)
    rw [hlit] at hc
    exact ⟨i, f[i], hc.trans (Clause.distinct_same _), Or.inl ⟨hi, List.getElem?_eq_getElem hlt⟩⟩
  · obtain ⟨i, hi⟩ := List.mem_iff_getElem?.mp (mem_added.mp hh)
    obtain ⟨k, hk, hlit⟩ := hl.ledger.addition hi
    rw [show s.arena.literals h = k.distinct from hlit] at hc
    exact ⟨i, k, hc.trans k.distinct_same, Or.inr ⟨by rw [← Array.getElem?_toList]; exact hi, hk⟩⟩

/-- A clause that was taken away is known and cannot be named again. -/
theorem Ledger.known_and_not_alive {L : Ledger} (hi : i ≤ L.steps.length)
    (hd : .delete h ∈ L.steps.take i) :
    L.Known i h ∧ h ∉ aliveAfter L.origins (L.steps.take i) := by
  induction i with
  | zero => cases hd
  | succ i ih =>
    have ih := ih (by omega)
    obtain ⟨step, hstep⟩ : ∃ step, L.steps[i]? = some step := ⟨_, List.getElem?_eq_getElem hi⟩
    obtain ⟨line, hline⟩ : ∃ line, L.lines[i]? = some line :=
      ⟨_, List.getElem?_eq_getElem (L.transcript.length ▸ hi)⟩
    have hread := L.transcript.read i line step hline hstep
    simp only [List.take_add_one, hstep, Option.toList_some, List.mem_append,
      List.mem_singleton, aliveAfter_append_singleton] at hd ⊢
    cases step with
    | add h' =>
      obtain ⟨hknown, hno⟩ := ih (hd.resolve_right (by simp))
      refine ⟨hknown.mono (Nat.le_succ i), fun hm => ?_⟩
      rcases List.mem_cons.mp hm with rfl | hm
      · exact Ledger.not_known hstep hknown
      · exact hno hm
    | delete h' =>
      rcases hd with hd | hd
      · obtain ⟨hknown, hno⟩ := ih hd
        exact ⟨hknown.mono (Nat.le_succ i), fun hm => hno (List.mem_of_mem_erase hm)⟩
      · cases hd
        cases line with
        | add c => cases hread
        | delete c =>
          have hknown : L.Known i h := mem_of_mem_aliveAfter hread.1
          exact ⟨hknown.mono (Nat.le_succ i), (L.transcript.nodup i).not_mem_erase⟩
    | satisfied h' => cases line <;> cases hread
    | ignored =>
      obtain ⟨hknown, hno⟩ := ih (hd.resolve_right (by simp))
      exact ⟨hknown.mono (Nat.le_succ i), hno⟩

/-- A clause that can be named was not taken away. -/
theorem Loaded.not_taken (hl : Loaded n F f d s)
    (hh : h ∈ aliveAfter s.origins.toList s.steps.toList) : .delete h ∉ s.steps := by
  intro hd
  have hall : s.steps.toList.take s.steps.toList.length = s.steps.toList := List.take_length
  have hgone := Ledger.known_and_not_alive (L := hl.ledger) (i := s.steps.toList.length)
    (Nat.le_refl _) (by
      show _ ∈ s.steps.toList.take _
      rw [hall]
      exact Array.mem_toList_iff.mpr hd)
  refine hgone.2 ?_
  show h ∈ aliveAfter s.origins.toList (s.steps.toList.take _)
  rw [hall]
  exact hh

end Deleting

end Engine

open Engine

/-- A deletion of at least two literals takes away one of the clauses with these literals, unless
there are no more of them. A deletion of one literal takes nothing away, but the clause has to be
there. What matches nothing is refused or ignored, as the settings say. -/
theorem stateBefore_deletion {s : State} (hig : settings.ignoreDeletions = false)
    (hs : stateBefore settings f d j = some s) (hj : d[j]? = some (.delete c))
    (hz : c.hasZero = false) :
    (2 ≤ c.distinct.length →
      ((∃ h, Becomes settings f d j s (.delete h)) ↔
        takenAway c (d.take j) s.steps.toList < Derivation.copies f (d.take j) c) ∧
      (∀ h, Becomes settings f d j s (.delete h) →
        c.Same (s.arena.literals h) ∧ Brought f (d.take j) s h c ∧ .delete h ∉ s.steps) ∧
      ((¬ ∃ h, Becomes settings f d j s (.delete h)) → Unmatched settings f d j c s)) ∧
    (c.distinct.length = 1 →
      ((∃ k ∈ f ++ Derivation.additions (d.take j), c.Same k) →
        Becomes settings f d j s .ignored) ∧
      ((¬ ∃ k ∈ f ++ Derivation.additions (d.take j), c.Same k) →
        Unmatched settings f d j c s)) ∧
    (c.distinct.length = 0 → Unmatched settings f d j c s) := by
  obtain ⟨hl, hgoing, -⟩ := arrives_of_stateBefore hig hs
  have hiff := hl.exists_alive_iff c
  refine ⟨fun hlen => ⟨⟨?_, ?_⟩, ?_, ?_⟩, fun hlen => ?_, fun hlen => ?_⟩
  · rintro ⟨h, hb⟩
    exact hiff.mp ⟨h, alive_of_becomes hs hj hig hz hb⟩
  · intro hlt
    obtain ⟨h, -, -, hb⟩ := becomes_delete hs hj hig hz hlen (hiff.mpr hlt)
    exact ⟨h, hb⟩
  · intro h hb
    obtain ⟨hh, hsame⟩ := alive_of_becomes hs hj hig hz hb
    exact ⟨hsame, hl.brought hh hsame, hl.not_taken hh⟩
  · intro hno
    refine unmatched_of_not_alive hs hj hig hz fun hm => hno ?_
    obtain ⟨h, -, -, hb⟩ := becomes_delete hs hj hig hz hlen hm
    exact ⟨h, hb⟩
  · have hzero := hl.takenAway_eq_zero (Nat.le_of_eq hlen)
    rw [hzero, Derivation.copies, List.countP_pos_iff] at hiff
    simp only [decide_eq_true_eq] at hiff
    rw [← hiff]
    exact ⟨becomes_ignored hs hj hig hz (Nat.le_of_eq hlen),
      unmatched_of_not_alive hs hj hig hz⟩
  · obtain rfl := Clause.distinct_eq_nil.mp (List.length_eq_zero_iff.mp hlen)
    refine unmatched_of_not_alive hs hj hig hz ?_
    rintro ⟨h, hh, hsame⟩
    obtain ⟨i, k, hk, horigin⟩ := hl.brought hh hsame
    obtain rfl : k = [] :=
      List.eq_nil_iff_forall_not_mem.mpr fun l hl => by simpa using (hk l).mpr hl
    rcases horigin with ⟨horigin, -⟩ | ⟨-, hadd⟩
    · refine hl.nonempty h ?_ (List.eq_nil_iff_forall_not_mem.mpr fun l hl => ?_)
      · exact Array.mem_toList_iff.mpr (Array.mem_of_getElem? horigin)
      · simpa using (hsame l).mpr hl
    · exact hgoing (List.mem_of_getElem? hadd)

/-- The clause was there twice, and the third deletion of it is refused. -/
theorem stateBefore_deletion_thrice :
    (extract {} [[⟨1⟩, ⟨2⟩], [⟨2⟩, ⟨1⟩]]
      [.delete [⟨2⟩, ⟨1⟩, ⟨2⟩], .delete [⟨1⟩, ⟨2⟩], .delete [⟨2⟩, ⟨1⟩]]).result =
        .error (.rejected (.unmatchedDeletion 2 [⟨2⟩, ⟨1⟩])) := by
  obtain ⟨s, hs, htaken⟩ := Option.map_eq_some_iff.mp (show
    (stateBefore {} [[⟨1⟩, ⟨2⟩], [⟨2⟩, ⟨1⟩]]
      [.delete [⟨2⟩, ⟨1⟩, ⟨2⟩], .delete [⟨1⟩, ⟨2⟩], .delete [⟨2⟩, ⟨1⟩]] 2).map
        (fun s => takenAway [⟨2⟩, ⟨1⟩] [.delete [⟨2⟩, ⟨1⟩, ⟨2⟩], .delete [⟨1⟩, ⟨2⟩]]
          s.steps.toList) = some 2 by decide +kernel)
  obtain ⟨hiff, -, hrest⟩ := (stateBefore_deletion rfl hs rfl (by decide)).1 (by decide)
  refine hrest fun hb => ?_
  have hlt := hiff.mp hb
  exact absurd (htaken ▸ hlt) (by decide)

end UnsatCore
