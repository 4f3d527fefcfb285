import UnsatCore.Proofs.Consistency
import UnsatCore.Proofs.Handles
import UnsatCore.Proofs.Reversal

/-! Sorting a clause partitions it in place. The trail may be any table of values in which no literal
is false together with its opposite, whatever is on its stack. The clause may repeat literals and may
have both literals of a variable. -/
namespace UnsatCore.Engine

open CheckM

variable {γ : Type} {f : State → γ} {n m i k : Nat} {F : Prop} {t : Trail} {s : State}
  {c : Handle} {l : Literal} {x rest : Clause} {view : View}

/-- The same loop without a list of the literals to come: each is read where the loop stands, after
all exchanges so far, up to the closing 0. There are at most `n` turns. -/
def sortInPlace (c : Handle) : (n i : Nat) → View → CheckM View
  | 0, _, _ => fault .exhausted
  | n + 1, i, view => do
    let l ← literalOf c i
    if l.isZero then return view
    if ← isFalseNow l then sortInPlace c n (i + 1) view
    else
      let holds ← isTrueNow l
      onArena (·.swap c i view.size)
      sortInPlace c n (i + 1) ⟨view.satisfied || holds, view.size + 1⟩

/-- The tables of the trail are made for the variables up to `n`, and no clause has another one. -/
structure State.MadeFor (n : Nat) (s : State) : Prop where
  status : s.trail.status.size = 2 * n + 3
  small : ∀ d, s.arena.Has d → (s.arena.literals d).maxVar ≤ n

/-- The literals of a clause that are not false are its first ones, in their order, and nothing but
the order of its literals has changed. -/
structure Partitioned (t : Trail) (c : Handle) (view : View) (a a' : Arena) : Prop where
  /-- The header, the closing 0 and all other clauses lie outside of the literals. -/
  words : ∀ k, k < c.offset ∨ c.offset + (a.literals c).length ≤ k → a'.words[k]? = a.words[k]?
  nextId : a'.nextId = a.nextId
  kept : a.Kept a' c
  perm : (a'.literals c).Perm (a.literals c)
  order : (a'.literals c).filter (t.isFalse · = .ok false) =
    (a.literals c).filter (t.isFalse · = .ok false)
  size_le : view.size ≤ (a.literals c).length
  isFalse : ∀ i l, (a'.literals c)[i]? = some l → t.isFalse l = .ok (decide (view.size ≤ i))
  satisfied : view.satisfied = true ↔ ∃ l ∈ a.literals c, t.isTrue l = .ok true

theorem sortUnfalsified_eq (hc : s.arena.Has c) :
    sortUnfalsified c s = sortFrom c (s.arena.literals c) 0 ⟨false, 0⟩ s :=
  bind_of_ok (ask_of_ok (hc.body (Nat.zero_le _)))

section InPlace

/-- An exchange behind the place where the loop stands does not touch what it has still to read. -/
theorem sortInPlace_eq (done : Clause) (hc : s.arena.Has c) (hl : s.arena.literals c = done ++ rest)
    (hi : i = done.length) (hn : rest.length < n) (hv : view.size ≤ i) :
    sortInPlace c n i view s = sortFrom c rest i view s := by
  induction rest generalizing n done i view s with
  | nil =>
    obtain ⟨n, rfl⟩ := Nat.exists_eq_add_one.mpr hn
    have hend : literalOf c i s = .ok (⟨0⟩, s) := by
      have hzero := hc.literal_end
      rw [hl, List.append_nil, ← hi] at hzero
      exact ask_of_ok hzero
    exact bind_of_ok hend
  | cons l rest ih =>
    obtain ⟨n, rfl⟩ := Nat.exists_eq_add_one.mpr (Nat.zero_lt_of_lt hn)
    have hmem : l ∈ s.arena.literals c := by simp [hl]
    have hread : literalOf c i s = .ok (l, s) := ask_of_ok (hc.literal (by simp [hl, hi]))
    have hzero : l.isZero = false := by simpa [Literal.isZero] using hc.zeroFree l hmem
    have hlen : rest.length < n := Nat.lt_of_succ_lt_succ hn
    have hdone : s.arena.literals c = (done ++ [l]) ++ rest := by simp [hl]
    have hnext : i + 1 = (done ++ [l]).length := by simp [hi]
    rw [sortInPlace, bind_of_ok hread, hzero, sortFrom]
    refine bind_congr_ok rfl fun b s₁ hfalse => ?_
    obtain ⟨-, rfl⟩ := ask_eq_ok_iff.mp hfalse
    cases b with
    | true => exact ih (done ++ [l]) hc hdone hnext hlen (Nat.le_succ_of_le hv)
    | false =>
      refine bind_congr_ok rfl fun holds s₂ htrue => ?_
      obtain ⟨-, rfl⟩ := ask_eq_ok_iff.mp htrue
      obtain ⟨a, hswap, hkept, hlit, -⟩ := hc.swap (i := i) (j := view.size)
        (by rw [hl, List.length_append, List.length_cons]; omega)
        (by rw [hl, List.length_append, List.length_cons]; omega)
      refine bind_congr_ok rfl fun _ s₃ hrun => ?_
      simp only [onArena, hswap, Except.ok.injEq, Prod.mk.injEq, true_and] at hrun
      subst hrun
      rw [hdone, Clause.exchange_append_of_lt (by omega) (by omega)] at hlit
      refine ih _ ((hkept.has c).mpr hc) hlit ?_ hlen (Nat.succ_le_succ hv)
      rw [(Clause.perm_exchange _ _ _).length_eq, hnext]

/-- Reading each literal where the loop stands gives what the stored literals give. -/
theorem sortInPlace_eq_sortUnfalsified (hc : s.arena.Has c)
    (hn : (s.arena.literals c).length < n) :
    sortInPlace c n 0 ⟨false, 0⟩ s = sortUnfalsified c s :=
  (sortInPlace_eq [] hc (List.nil_append _).symm rfl hn (Nat.le_refl 0)).trans
    (sortUnfalsified_eq hc).symm

end InPlace

section Frame

/-- What no exchange of the first `m` literals changes is not changed by sorting them. -/
theorem Keeps.sortFrom (hf : ∀ i j, i < m → j < m → ∀ s a, s.arena.swap c i j = .ok a →
      f { s with arena := a } = f s)
    (hm : i + rest.length ≤ m) (hv : view.size ≤ i) : Keeps f (sortFrom c rest i view) := by
  induction rest generalizing i view with
  | nil => exact .pure _
  | cons l rest ih =>
    rw [List.length_cons] at hm
    refine .bind (.ask _) fun _ => .ite (ih (by omega) (by omega)) <| .bind (.ask _) fun _ => ?_
    refine .bind (.onArena_of_ok (hf i view.size (by omega) (by omega))) fun _ => ?_
    exact ih (by omega) (Nat.succ_le_succ hv)

/-- Sorting a clause writes to the places of its literals only. -/
theorem words_of_sortUnfalsified {s' : State} (hc : s.arena.Has c)
    (hrun : sortUnfalsified c s = .ok (view, s'))
    (hk : k < c.offset ∨ c.offset + (s.arena.literals c).length ≤ k) :
    s'.arena.words[k]? = s.arena.words[k]? ∧ s'.arena.nextId = s.arena.nextId := by
  rw [sortUnfalsified_eq hc] at hrun
  have hkeeps : Keeps (fun s => (s.arena.words[k]?, s.arena.nextId))
      (Engine.sortFrom c (s.arena.literals c) 0 ⟨false, 0⟩) := by
    refine .sortFrom (m := (s.arena.literals c).length) (fun i j hi hj s a hswap => ?_)
      (by omega) (Nat.le_refl 0)
    obtain ⟨hwords, hnext⟩ := Arena.swap_apart (k := k) hswap (by omega) (by omega)
    exact Prod.ext hwords hnext
  exact Prod.mk.inj (hkeeps hrun)

end Frame

section Reading

/-- The literals of a clause and their opposites that a trail calls false. -/
def falseAmong (t : Trail) (x : Clause) : List Literal :=
  (x ++ x.map (-·)).filter (t.isFalse · = .ok true)

theorem mem_falseAmong (hl : l ∈ x) :
    (l ∈ falseAmong t x ↔ t.isFalse l = .ok true) ∧
      (-l ∈ falseAmong t x ↔ t.isFalse (-l) = .ok true) := by
  have hneg : -l ∈ x.map (-·) := List.mem_map_of_mem hl
  simp only [falseAmong, List.mem_filter, List.mem_append, decide_eq_true_eq]
  exact ⟨and_iff_right (Or.inl hl), and_iff_right (Or.inr hneg)⟩

/-- Within the room that a trail has, each literal is false or not. -/
theorem State.MadeFor.isFalse_eq (h : s.MadeFor n) (hl : l.var.index ≤ n) {fs : List Literal}
    (hfs : l ∈ fs ↔ s.trail.isFalse l = .ok true) :
    s.trail.isFalse l = .ok (decide (l ∈ fs)) := by
  obtain ⟨st, hst⟩ := SlotMap.exists_get? (m := s.trail.status) (k := l)
    (by rw [h.status]; exact Trail.slot_lt hl)
  have hget : s.trail.isFalse l = .ok (st != .unset) := by
    simp [Trail.isFalse, Trail.statusOf, hst, Fault.require]
  rw [hget] at hfs ⊢
  cases hb : st != .unset <;> simp_all

theorem State.MadeFor.seen (h : s.MadeFor n) (hc : s.arena.Has c)
    (hleast : ∀ l ∈ s.arena.literals c, l.val ≠ Int32.minValue) :
    Seen False (falseAmong s.trail (s.arena.literals c)) s.trail (s.arena.literals c) where
  isFalse l hl :=
    h.isFalse_eq (Clause.maxVar_le_iff.mp (h.small c hc) l hl) (mem_falseAmong hl).1
  isTrue l hl hm := by
    have hsmall := Clause.maxVar_le_iff.mp (h.small c hc) l hl
    rw [Trail.isTrue, Literal.opposite?_eq_some hm]
    exact h.isFalse_eq (by simpa using hsmall) (mem_falseAmong hl).2
  least l hl hm := hleast l hl hm

/-- Whatever has been called on the arena and on the trail, a state is made for the variables of the
clauses that were added. -/
theorem madeFor_of_history {cs : List Change} (ha : Arena.History cs s.arena)
    (ht : Trail.Reachable n s.trail)
    (hcs : ∀ d ∈ Change.handles cs, (Change.content d cs).maxVar ≤ n) : s.MadeFor n where
  status := ht.wf.statusSize
  small d hd := by
    have hd := (ha.tracks.has d).mp hd
    rw [ha.tracks.literals d hd]
    exact hcs d hd

/-- Between two steps of a run the state is made for the variables of the input, and no literal is
false together with its opposite. -/
theorem madeFor_of_stateAt {settings : Settings} {f : Formula} {d : Derivation} {m : Moment}
    (h : stateAt settings f d m = some s) : s.MadeFor (maxVar f d) ∧
      ∀ l, s.trail.isFalse l = .ok true → s.trail.isFalse (-l) ≠ .ok true := by
  obtain ⟨F, body, A, hco, -⟩ := coherent_of_stateAt h
  exact ⟨⟨hco.trail.statusSize, fun _ hd => Clause.maxVar_le_iff.mpr fun _ hl =>
    hco.stored.small_literal hd hl⟩, fun _ => hco.trail.isFalse_neg_ne⟩

end Reading

section Assembly

variable {fs : List Literal} {kept dropped : Clause}

theorem Seen.unfalsified_iff (h : Seen F fs t x) (hl : l ∈ x) :
    t.isFalse l = .ok false ↔ l ∉ fs := by
  simp [h.isFalse l hl]

theorem SortedInto.order (hs : SortedInto fs x kept view) (h : Seen F fs t x)
    (hp : (kept ++ dropped).Perm x) (hd : ∀ l ∈ dropped, l ∈ fs) :
    (kept ++ dropped).filter (t.isFalse · = .ok false) = x.filter (t.isFalse · = .ok false) := by
  have hread : ∀ y : Clause, (∀ l ∈ y, l ∈ x) →
      y.filter (t.isFalse · = .ok false) = y.filter (· ∉ fs) := fun y hy =>
    List.filter_congr fun l hl => by simp only [h.unfalsified_iff (hy l hl)]
  have hkept : kept.filter (· ∉ fs) = kept :=
    List.filter_eq_self.mpr fun l hl => by simpa using (hs.mem_iff.mp hl).2
  have hdropped : dropped.filter (· ∉ fs) = [] :=
    List.filter_eq_nil_iff.mpr fun l hl => by simpa using hd l hl
  rw [hread _ fun l hl => hp.mem_iff.mp hl, hread x fun _ hl => hl, List.filter_append, hkept,
    hdropped, List.append_nil, hs.eq_filter]

/-- The kept literals fill the first places, and false ones all others. -/
theorem SortedInto.isFalse_at (hs : SortedInto fs x kept view) (h : Seen F fs t x)
    (hp : (kept ++ dropped).Perm x) (hd : ∀ l ∈ dropped, l ∈ fs)
    (hl : (kept ++ dropped)[i]? = some l) : t.isFalse l = .ok (decide (view.size ≤ i)) := by
  have hx : l ∈ x := hp.mem_iff.mp (List.mem_of_getElem? hl)
  rw [h.isFalse l hx, hs.size]
  congr 2
  rw [List.getElem?_append] at hl
  split at hl
  · rename_i hi
    have hno := (hs.mem_iff.mp (List.mem_of_getElem? hl)).2
    exact propext (iff_of_false hno (Nat.not_le_of_lt hi))
  · rename_i hi
    exact propext (iff_of_true (hd l (List.mem_of_getElem? hl)) (Nat.le_of_not_lt hi))

/-- A true literal is not left out if none is false as well. -/
theorem SortedInto.satisfied_iff (hs : SortedInto fs x kept view) (h : Seen False fs t x)
    (hapart : ∀ l ∈ x, l ∈ fs → -l ∉ fs) :
    view.satisfied = true ↔ ∃ l ∈ x, t.isTrue l = .ok true := by
  have htrue : ∀ l ∈ x, (t.isTrue l = .ok true ↔ -l ∈ fs) := fun l hl => by
    simp [h.isTrue l hl fun hm => h.least l hl hm]
  rw [hs.satisfied]
  constructor
  · rintro ⟨l, hl, ht⟩
    have hx := (hs.mem_iff.mp hl).1
    exact ⟨l, hx, (htrue l hx).mpr ht⟩
  · rintro ⟨l, hx, ht⟩
    have hneg := (htrue l hx).mp ht
    exact ⟨l, hs.mem_iff.mpr ⟨hx, fun hf => hapart l hx hf hneg⟩, hneg⟩

end Assembly

/-- Sorting a clause, with its literals at hand or in place, succeeds and partitions it. Nothing else
in the state changes. -/
theorem sortUnfalsified_partitions (h : s.MadeFor n) (hc : s.arena.Has c)
    (hleast : ∀ l ∈ s.arena.literals c, l.val ≠ Int32.minValue)
    (hapart : ∀ l : Literal, l.Proper → s.trail.isFalse l = .ok true →
      s.trail.isFalse (-l) ≠ .ok true) :
    ∃ view a, sortUnfalsified c s = .ok (view, { s with arena := a }) ∧
      (∀ k, (s.arena.literals c).length < k →
        sortInPlace c k 0 ⟨false, 0⟩ s = .ok (view, { s with arena := a })) ∧
      Partitioned s.trail c view s.arena a := by
  have hseen := h.seen hc hleast
  obtain ⟨view, s', hrun, kept, dropped, hs, hk, -, hlit, hperm, hsort, hdrop⟩ :=
    (ends_sortSeen hc hseen).exists_ok
  have hwords := fun k hk => words_of_sortUnfalsified (k := k) hc hrun hk
  rw [hs] at hrun
  refine ⟨view, s'.arena, hrun, fun k hlen => ?_, ?_⟩
  · exact (sortInPlace_eq_sortUnfalsified hc hlen).trans hrun
  · refine ⟨fun k hk => (hwords k hk).1, (hwords 0 (Or.inl (Nat.succ_pos _))).2, hk, hlit ▸ hperm,
      hlit ▸ hsort.order hseen hperm hdrop, ?_, fun i l hl => ?_, ?_⟩
    · rw [hsort.size, ← hperm.length_eq, List.length_append]
      exact Nat.le_add_right _ _
    · exact hsort.isFalse_at hseen hperm hdrop (hlit ▸ hl)
    · refine hsort.satisfied_iff hseen fun l hl hf hn => ?_
      have hproper : l.Proper := ⟨hc.zeroFree l hl, hleast l hl⟩
      exact hapart l hproper ((mem_falseAmong hl).1.mp hf) ((mem_falseAmong hl).2.mp hn)

/-- The clause repeats literals and has both literals of a variable. One of the false literals is
marked. -/
theorem sortUnfalsified_partitions_mixed :
    ∃ s view a, s.MadeFor 4 ∧ s.arena.Has ⟨4⟩ ∧
      s.arena.literals ⟨4⟩ = [⟨-1⟩, ⟨2⟩, ⟨3⟩, ⟨-1⟩, ⟨4⟩, ⟨2⟩, ⟨-3⟩] ∧
      s.trail.falsified = [⟨-1⟩, ⟨3⟩] ∧ s.trail.Marked ⟨3⟩ ∧
      sortUnfalsified ⟨4⟩ s = .ok (view, { s with arena := a }) ∧ view.satisfied = true ∧
      view.size = 4 ∧ a.literals ⟨4⟩ = [⟨2⟩, ⟨4⟩, ⟨2⟩, ⟨-3⟩, ⟨-1⟩, ⟨3⟩, ⟨-1⟩] ∧
      Partitioned s.trail ⟨4⟩ view s.arena a := by
  have hfirst : Arena.History [.added ⟨0⟩ [⟨4⟩, ⟨-4⟩]] _ := .change .empty rfl
  have hsecond : Arena.History
      (.added ⟨4⟩ [⟨-1⟩, ⟨2⟩, ⟨3⟩, ⟨-1⟩, ⟨4⟩, ⟨2⟩, ⟨-3⟩] :: _) _ := .change hfirst rfl
  have hstored : Arena.History (.marked ⟨4⟩ true :: _) _ :=
    .change hsecond ⟨by decide, rfl⟩
  have htrue : Trail.Reachable 4 _ := .assign .blank (l := ⟨1⟩) (c := none) (by decide) rfl
  have hboth : Trail.Reachable 4 _ := .assign htrue (l := ⟨-3⟩) (c := none) (by decide) rfl
  have htrail : Trail.Reachable 4 _ := .mark (l := ⟨3⟩) hboth rfl
  obtain ⟨s, hs, hc, hbody, hleast, hstack, hmarked, hapart, hcheck⟩ : ∃ s : State,
      s.MadeFor 4 ∧ s.arena.Has ⟨4⟩ ∧
      s.arena.literals ⟨4⟩ = [⟨-1⟩, ⟨2⟩, ⟨3⟩, ⟨-1⟩, ⟨4⟩, ⟨2⟩, ⟨-3⟩] ∧
      (∀ l ∈ s.arena.literals ⟨4⟩, l.val ≠ Int32.minValue) ∧
      s.trail.falsified = [⟨-1⟩, ⟨3⟩] ∧ s.trail.Marked ⟨3⟩ ∧
      (∀ l : Literal, l.Proper → s.trail.isFalse l = .ok true →
        s.trail.isFalse (-l) ≠ .ok true) ∧
      ((sortUnfalsified ⟨4⟩ s).toOption.any fun r => r.1.satisfied ∧ r.1.size = 4 ∧
        r.2.arena.literals ⟨4⟩ = [⟨2⟩, ⟨4⟩, ⟨2⟩, ⟨-3⟩, ⟨-1⟩, ⟨3⟩, ⟨-1⟩]) = true :=
    ⟨{ State.initial 4 with arena := _, trail := _ },
      madeFor_of_history hstored htrail (by decide), (hstored.tracks.has ⟨4⟩).mpr (by decide), rfl,
      by decide, rfl, rfl, fun l _ => htrail.wf.isFalse_neg_ne, by decide +kernel⟩
  obtain ⟨view, a, hrun, -, hp⟩ := sortUnfalsified_partitions hs hc hleast hapart
  simp only [hrun, Except.toOption, Option.any_some, decide_eq_true_eq] at hcheck
  exact ⟨s, view, a, hs, hc, hbody, hstack, hmarked, hrun, hcheck.1, hcheck.2.1, hcheck.2.2, hp⟩

end UnsatCore.Engine
