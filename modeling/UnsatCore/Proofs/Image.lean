import UnsatCore.Proofs.Correspondence
import UnsatCore.Proofs.Twin

/-! The trail of a run and the trail of a run on another input. What the first one holds is found in
the second one under other names, in the same order; the second one may hold literals of its own in
between. -/
namespace UnsatCore

open Engine

section Filtering

variable {α β : Type} {xs : List α} {ys : List β} {f : α → β} {p : β → Bool} {i : Nat}

/-- What passes a filter, up to a place and from there on. -/
theorem filter_take_drop_of_map (h : ys.filter p = xs.map f) (i : Nat) :
    (ys.take i).filter p = (xs.take ((ys.take i).countP p)).map f ∧
      (ys.drop i).filter p = (xs.drop ((ys.take i).countP p)).map f := by
  have hsplit : xs.map f = (ys.take i).filter p ++ (ys.drop i).filter p := by
    rw [← List.filter_append, List.take_append_drop, h]
  rw [List.map_take, List.map_drop, hsplit, List.countP_eq_length_filter]
  exact ⟨List.take_left.symm, List.drop_left.symm⟩

/-- What passes a filter at a place is the image of what stands at the rank of the place. -/
theorem exists_of_filter_map (h : ys.filter p = xs.map f) {y : β} (hi : ys[i]? = some y)
    (hy : p y = true) : ∃ x, xs[(ys.take i).countP p]? = some x ∧ y = f x := by
  obtain ⟨hlt, rfl⟩ := List.getElem?_eq_some_iff.mp hi
  have hdrop := (filter_take_drop_of_map h i).2
  rw [List.drop_eq_getElem_cons hlt, List.filter_cons_of_pos hy] at hdrop
  have hhead := congrArg List.head? hdrop
  rw [List.head?_cons, List.head?_map, List.head?_drop] at hhead
  obtain ⟨x, hx, hf⟩ := Option.map_eq_some_iff.mp hhead.symm
  exact ⟨x, hx, hf.symm⟩

theorem countP_take_succ {y : β} (hi : ys[i]? = some y) :
    (ys.take (i + 1)).countP p = (ys.take i).countP p + if p y = true then 1 else 0 := by
  rw [List.take_add_one, hi, Option.toList_some, List.countP_append, List.countP_singleton]

theorem countP_take_mono (ys : List β) (p : β → Bool) {j : Nat} (h : i ≤ j) :
    (ys.take i).countP p ≤ (ys.take j).countP p :=
  (List.take_prefix_take_left h).sublist.countP_le

end Filtering

/-- How the literals and clauses of a run are found in another run. -/
structure Image where
  lit : Literal → Literal
  handle : Handle → Handle
  /-- The literals that the first run comes across. -/
  legal : Literal → Prop
  /-- Whether a literal of the second run is found in the first one. -/
  own : Literal → Bool
  /-- Which of the other literals of the second run can be false. -/
  down : Literal → Prop
  /-- The largest variable that the first run has room for. -/
  bound : Nat
  bound' : Nat
  /-- The number of literals of each clause of the first run. -/
  size : Handle → Option Nat
  /-- The clauses of at least so many literals that only the second run has. -/
  alien : Nat → Handle → Prop
  /-- The clauses of the formula of the first run that have been read. -/
  read : Formula
  read' : Formula
  /-- Whether faults and propagations are compared. -/
  exact : Bool
  /-- Whether all literals that only the second run has are fixed. -/
  clear : Prop
  proper : ∀ {l}, legal l → l.Proper
  small : ∀ {l}, legal l → l.var.index ≤ bound
  legal_neg : ∀ {l}, legal l → legal (-l)
  lit_neg : ∀ {l}, legal l → lit (-l) = -lit l
  lit_inj : ∀ {l m}, legal l → legal m → lit l = lit m → l = m
  lit_proper : ∀ {l}, legal l → (lit l).Proper
  lit_small : ∀ {l}, legal l → (lit l).var.index ≤ bound'
  own_lit : ∀ {l}, legal l → own (lit l) = true
  own_neg : ∀ {l}, own (-l) = own l
  down_or : ∀ {l}, own l = false → l.Proper → down l ∨ down (-l)

namespace Image

variable {g : Image} {l m : Literal}

/-- A clause of the first run of at least `n` literals. -/
def AtLeast (g : Image) (n : Nat) (c : Handle) : Prop := ∃ m, g.size c = some m ∧ n ≤ m

/-- A literal that only the second run comes across. -/
structure Foreign (g : Image) (l : Literal) : Prop where
  own : g.own l = false
  proper : l.Proper
  small : l.var.index ≤ g.bound'

def entry (g : Image) (e : Entry) : Entry := ⟨g.lit e.literal, e.reason.map g.handle⟩

def owns (g : Image) (e : Entry) : Bool := g.own e.literal

/-- How the ends of the two runs are compared. -/
def comparison (g : Image) : Comparison where
  image := Failure.image g.lit g.handle
  lax := g.exact = false

theorem lit_inj_iff (hl : g.legal l) (hm : g.legal m) : g.lit l = g.lit m ↔ l = m :=
  ⟨g.lit_inj hl hm, congrArg g.lit⟩

theorem var_lit (hl : g.legal l) (h : m.var = l.var) : (g.lit m).var = (g.lit l).var := by
  rcases Literal.eq_or_eq_neg_of_var_eq (g.proper hl) h.symm with rfl | rfl
  · rfl
  · rw [g.lit_neg hl, Literal.var_neg]

/-- A literal of the first run is found wherever the row has it. -/
theorem mem_iff {ls ls' : List Literal} (h : ls'.filter g.own = ls.map g.lit)
    (hls : ∀ m ∈ ls, g.legal m) (hl : g.legal l) : g.lit l ∈ ls' ↔ l ∈ ls := by
  have hown : g.lit l ∈ ls' ↔ g.lit l ∈ ls'.filter g.own := by simp [g.own_lit hl]
  rw [hown, h, List.mem_map]
  constructor
  · rintro ⟨m, hm, he⟩
    rwa [← g.lit_inj (hls m hm) hl he]
  · exact fun hm => ⟨l, hm, rfl⟩

theorem answers_error (e : Fault) {α α' : Type} {V : α → α' → Prop} :
    Answers g.comparison (.error e) (.error (e.image g.lit g.handle)) V :=
  Or.inr rfl

/-- How many of the first `i` literals of a trail of the second run are found in the first one. -/
def rank (g : Image) (t : Trail) (i : Nat) : Nat := (t.falsified.take i).countP g.own

/-- The places `i` of a trail of the first run and `i'` of a trail of the second one correspond. -/
def Level (g : Image) (t : Trail) (i i' : Nat) : Prop := i = g.rank t i' ∧ i' ≤ t.assigned

namespace Level

variable {t u : Trail} {i i' j j' : Nat}

theorem rank (h : g.Level t i i') : i = g.rank t i' := h.1

theorem le (h : g.Level t i i') : i' ≤ t.assigned := h.2

theorem mono (h : g.Level t i i') (hj : g.Level t j j') (hle : i' ≤ j') : i ≤ j := by
  rw [h.rank, hj.rank]
  exact countP_take_mono _ _ hle

theorem next (h : g.Level t i i') (hl : t.falsified[i']? = some l) :
    g.Level t (if g.own l = true then i + 1 else i) (i' + 1) := by
  have hlt := (List.getElem?_eq_some_iff.mp hl).1
  rw [Trail.length_falsified] at hlt
  refine ⟨?_, hlt⟩
  rw [Image.rank, countP_take_succ hl, h.rank, Image.rank]
  split <;> rfl

theorem lt_iff (h : g.Level t i i') (hj : g.Level t j j') (hl : t.falsified[i']? = some l)
    (ho : g.own l = true) : i' < j' ↔ i < j := by
  have hnext := h.next hl
  rw [if_pos ho] at hnext
  refine ⟨fun hlt => hnext.mono hj hlt, fun hlt => ?_⟩
  by_contra hge
  have hle := hj.mono h (Nat.not_lt.mp hge)
  omega

/-- What is pushed later does not matter to the places before. -/
theorem extend (h : g.Level t i i') (hu : t.falsified <+: u.falsified) : g.Level u i i' := by
  have hlen := hu.length_le
  simp only [Trail.length_falsified] at hlen
  refine ⟨?_, Nat.le_trans h.le hlen⟩
  obtain ⟨more, hmore⟩ := hu
  rw [h.rank, Image.rank, Image.rank, ← hmore, List.take_append_of_le_length]
  rw [Trail.length_falsified]
  exact h.le

end Level

end Image

namespace Trail

/-- The trails of two runs: the entries of the first one are found in the second one. -/
structure Mirror (g : Image) (t t' : Trail) : Prop where
  wf : t.Wf g.bound
  wf' : t'.Wf g.bound'
  legal : ∀ l ∈ t.falsified, g.legal l
  reasons : ∀ e ∈ t.entries, ∀ c, e.reason = some c → g.AtLeast 1 c
  entries : t'.entries.filter g.owns = t.entries.map g.entry
  down : ∀ l ∈ t'.falsified, g.own l = false → g.down l
  marked : ∀ m, g.legal m → (t'.Marked (g.lit m) ↔ t.Marked m)
  unmarked : ∀ m, g.own m = false → ¬ t'.Marked m
  processed : g.Level t' t.processed t'.processed
  forced : g.Level t' t.forced t'.forced
  ordered : t'.forced ≤ t'.processed
  clear : g.clear → ∀ l ∈ t'.falsified.drop t'.forced, g.own l = true

namespace Mirror

variable {g : Image} {t t' u u' : Trail} {l m : Literal} {i i' : Nat} {c : Option Handle}

theorem falsified (h : Mirror g t t') :
    t'.falsified.filter g.own = t.falsified.map g.lit := by
  rw [← map_literal_entries, ← map_literal_entries, List.filter_map,
    show g.own ∘ Entry.literal = g.owns from rfl, h.entries, List.map_map, List.map_map]
  rfl

theorem mem_iff (h : Mirror g t t') (hl : g.legal l) :
    g.lit l ∈ t'.falsified ↔ l ∈ t.falsified :=
  g.mem_iff h.falsified h.legal hl

theorem neg_mem_iff (h : Mirror g t t') (hl : g.legal l) :
    -g.lit l ∈ t'.falsified ↔ -l ∈ t.falsified := by
  rw [← g.lit_neg hl]
  exact h.mem_iff (g.legal_neg hl)

theorem top (h : Mirror g t t') : g.Level t' t.assigned t'.assigned := by
  refine ⟨?_, Nat.le_refl _⟩
  have hlen := congrArg List.length h.falsified
  rw [List.length_map, length_falsified, ← List.countP_eq_length_filter] at hlen
  rw [Image.rank, List.take_of_length_le (Nat.le_of_eq t'.length_falsified), hlen]

theorem le_assigned (h : Mirror g t t') (hi : g.Level t' i i') : i ≤ t.assigned :=
  hi.mono h.top hi.le

/-- The literal of the first run that a literal of the second one stands for. -/
theorem exists_own (h : Mirror g t t') (hi : g.Level t' i i') (hl : t'.falsified[i']? = some m)
    (ho : g.own m = true) : ∃ l, t.falsified[i]? = some l ∧ g.legal l ∧ m = g.lit l := by
  obtain ⟨l, hget, rfl⟩ := exists_of_filter_map h.falsified hl ho
  rw [← Image.rank, ← hi.rank] at hget
  exact ⟨l, hget, h.legal l (List.mem_of_getElem? hget), rfl⟩

theorem take_entries (h : Mirror g t t') (hi : g.Level t' i i') :
    (t'.entries.take i').filter g.owns = (t.entries.take i).map g.entry := by
  have hrank : (t'.entries.take i').countP g.owns = i := by
    rw [hi.rank, Image.rank, take_falsified, List.countP_map]
    rfl
  rw [(filter_take_drop_of_map h.entries i').1, hrank]

/-- Other clauses may be known, and more of the trail may be fixed. -/
theorem amend (h : Mirror g t t') {size : Handle → Option Nat} {alien : Nat → Handle → Prop}
    {read read' : Formula} {clear : Prop}
    (hs : ∀ c, g.AtLeast 1 c → Image.AtLeast { g with size, alien, read, read', clear } 1 c)
    (hclear : clear → ∀ l ∈ t'.falsified.drop t'.forced, g.own l = true) :
    Mirror { g with size, alien, read, read', clear } t t' :=
  { h with
    reasons := fun e he c hc => hs c (h.reasons e he c hc)
    clear := hclear }

section Reading

theorem isFalse (h : Mirror g t t') (hl : g.legal l) : t'.isFalse (g.lit l) = t.isFalse l := by
  rw [h.wf.isFalse (g.small hl), h.wf'.isFalse (g.lit_small hl),
    decide_eq_decide.mpr (h.mem_iff hl)]

theorem isTrue (h : Mirror g t t') (hl : g.legal l) : t'.isTrue (g.lit l) = t.isTrue l := by
  rw [h.wf.isTrue (g.small hl) (g.proper hl).2, h.wf'.isTrue (g.lit_small hl) (g.lit_proper hl).2,
    decide_eq_decide.mpr (h.neg_mem_iff hl)]

theorem isMarked (h : Mirror g t t') (hl : g.legal l) :
    t'.isMarked (g.lit l) = t.isMarked l := by
  classical
  rw [h.wf.isMarked (g.small hl), h.wf'.isMarked (g.lit_small hl),
    decide_eq_decide.mpr (h.marked l hl)]

theorem reasonAt (h : Mirror g t t') (hl : g.legal l) :
    t'.reasonAt (g.lit l).var = (t.reasonAt l.var).map g.handle := by
  by_cases hm : ∃ m ∈ t.falsified, m.var = l.var
  · obtain ⟨m, hm, hv⟩ := hm
    have he : (⟨m, t.reasonAt m.var⟩ : Entry) ∈ t.entries := List.mem_map.mpr ⟨m, hm, rfl⟩
    have he' : g.entry ⟨m, t.reasonAt m.var⟩ ∈ t'.entries := by
      refine List.mem_of_mem_filter (p := g.owns) ?_
      rw [h.entries]
      exact List.mem_map_of_mem he
    have hr := mem_entries_reason he'
    simp only [Image.entry, g.var_lit hl hv, hv] at hr
    exact hr
  · -- The variable has no value in either run.
    have hnone : t.reasonAt l.var = none := by
      rw [Option.eq_none_iff_forall_ne_some]
      intro d hd
      obtain ⟨m, hv, he⟩ := h.wf.mem_of_reasonAt hd
      exact hm ⟨m, literal_mem_falsified he, hv⟩
    rw [hnone, Option.map_none, Option.eq_none_iff_forall_ne_some]
    intro d hd
    obtain ⟨m, hv, he⟩ := h.wf'.mem_of_reasonAt hd
    have hmem : m ∈ t'.falsified := literal_mem_falsified he
    rcases Literal.eq_or_eq_neg_of_var_eq (g.lit_proper hl) hv.symm with rfl | rfl
    · exact hm ⟨l, (h.mem_iff hl).mp hmem, rfl⟩
    · exact hm ⟨-l, (h.neg_mem_iff hl).mp hmem, Literal.var_neg l⟩

theorem reasonOf (h : Mirror g t t') (hl : g.legal l) :
    ∃ r, t.reasonOf l.var = .ok r ∧ t'.reasonOf (g.lit l).var = .ok (r.map g.handle) ∧
      ∀ d, r = some d → g.AtLeast 1 d := by
  refine ⟨t.reasonAt l.var, h.wf.reasonOf (g.small hl), ?_, ?_⟩
  · rw [h.wf'.reasonOf (g.lit_small hl), h.reasonAt hl]
  · intro d hd
    obtain ⟨m, -, he⟩ := h.wf.mem_of_reasonAt hd
    exact h.reasons _ he d rfl

end Reading

section Writing

/-- Other marks. -/
theorem remark (h : Mirror g t t') (hw : u.Wf g.bound) (hw' : u'.Wf g.bound')
    (he : u.entries = t.entries) (he' : u'.entries = t'.entries)
    (hp : u.processed = t.processed) (hp' : u'.processed = t'.processed)
    (hf : u.forced = t.forced) (hf' : u'.forced = t'.forced)
    (hm : ∀ m, g.legal m → (u'.Marked (g.lit m) ↔ u.Marked m))
    (hm' : ∀ m, g.own m = false → ¬ u'.Marked m) : Mirror g u u' := by
  have hfs := falsified_of_entries he
  have hfs' := falsified_of_entries he'
  have hlevel : ∀ {i i'}, g.Level t' i i' → g.Level u' i i' := fun hi =>
    hi.extend (by rw [hfs'])
  refine ⟨hw, hw', hfs ▸ h.legal, he ▸ h.reasons, by rw [he, he', h.entries], hfs' ▸ h.down, hm,
    hm', ?_, ?_, by rw [hf', hp']; exact h.ordered, by rw [hf', hfs']; exact h.clear⟩
  · rw [hp, hp']
    exact hlevel h.processed
  · rw [hf, hf']
    exact hlevel h.forced

theorem setStatus (h : Mirror g t t') (hl : l ∈ t.falsified) {st : Status} (hst : st ≠ .unset) :
    ∃ u u', t.setStatus l st = .ok u ∧ t'.setStatus (g.lit l) st = .ok u' ∧ Mirror g u u' := by
  have hlegal := h.legal l hl
  obtain ⟨u, hu, hw, he, hp, hf, hm⟩ := h.wf.setStatus hl st hst
  obtain ⟨u', hu', hw', he', hp', hf', hm'⟩ := h.wf'.setStatus ((h.mem_iff hlegal).mpr hl) st hst
  refine ⟨u, u', hu, hu', h.remark hw hw' he he' hp hp' hf hf' (fun m hml => ?_) fun m ho => ?_⟩
  · simp only [hm, hm', g.lit_inj_iff hml hlegal, h.marked m hml]
  · rw [hm', if_neg]
    · exact h.unmarked m ho
    · rintro rfl
      simp [g.own_lit hlegal] at ho

/-- Literals of the second run only are never marked. -/
theorem setStatus_foreign (h : Mirror g t t') (hl : l ∈ t'.falsified) (ho : g.own l = false) :
    ∃ u', t'.setStatus l .falsified = .ok u' ∧ Mirror g t u' := by
  obtain ⟨u', hu', hw', he', hp', hf', hm'⟩ := h.wf'.setStatus hl .falsified (by simp)
  refine ⟨u', hu', h.remark h.wf hw' rfl he' rfl hp' rfl hf' ?_ ?_⟩
  · intro m hml
    rw [hm', if_neg]
    · exact h.marked m hml
    · rintro rfl
      simp [g.own_lit hml] at ho
  · intro m hmo
    rw [hm']
    split
    · simp
    · exact h.unmarked m hmo

theorem mark (h : Mirror g t t') (hl : g.legal l) :
    Answers g.comparison (t.mark l) (t'.mark (g.lit l)) (Mirror g) := by
  rw [Trail.mark, Trail.mark, h.isFalse hl, h.wf.isFalse (g.small hl)]
  by_cases hm : l ∈ t.falsified
  · obtain ⟨u, u', hu, hu', hmirror⟩ := h.setStatus hm (by simp : Status.marked ≠ .unset)
    rw [decide_eq_true hm]
    simp only [hu, hu', answers_ok]
    exact hmirror
  · rw [decide_eq_false hm]
    exact g.answers_error (.notFalsified l)

/-- More entries, of which those that the first run has correspond. -/
theorem extend (h : Mirror g t t') {es es' : List Entry} (hw : u.Wf g.bound) (hw' : u'.Wf g.bound')
    (he : u.entries = t.entries ++ es) (he' : u'.entries = t'.entries ++ es')
    (hes : es'.filter g.owns = es.map g.entry)
    (hlegal : ∀ e ∈ es, g.legal e.literal ∧ ∀ d, e.reason = some d → g.AtLeast 1 d)
    (hdown : ∀ e ∈ es', g.own e.literal = false → g.down e.literal ∧ ¬ g.clear)
    (hp : u.processed = t.processed) (hp' : u'.processed = t'.processed)
    (hf : u.forced = t.forced) (hf' : u'.forced = t'.forced)
    (hm : ∀ m, u.Marked m ↔ t.Marked m) (hm' : ∀ m, u'.Marked m ↔ t'.Marked m) :
    Mirror g u u' := by
  have hfs := falsified_of_append he
  have hfs' := falsified_of_append he'
  have hpre : t'.falsified <+: u'.falsified := by
    rw [hfs']
    exact List.prefix_append _ _
  have hlen : t'.forced ≤ t'.falsified.length := by
    rw [length_falsified]
    exact h.forced.le
  refine ⟨hw, hw', ?_, ?_, ?_, ?_, fun m hml => ?_, fun m ho => ?_, ?_, ?_, ?_, fun hclear => ?_⟩
  · rw [hfs, List.forall_mem_append, List.forall_mem_map]
    exact ⟨h.legal, fun e he => (hlegal e he).1⟩
  · rw [he, List.forall_mem_append]
    exact ⟨h.reasons, fun e he => (hlegal e he).2⟩
  · rw [he, he', List.filter_append, List.map_append, h.entries, hes]
  · rw [hfs', List.forall_mem_append, List.forall_mem_map]
    exact ⟨h.down, fun e he ho => (hdown e he ho).1⟩
  · rw [hm, hm', h.marked m hml]
  · rw [hm']
    exact h.unmarked m ho
  · rw [hp, hp']
    exact h.processed.extend hpre
  · rw [hf, hf']
    exact h.forced.extend hpre
  · rw [hf', hp']
    exact h.ordered
  · rw [hf', hfs', List.drop_append_of_le_length hlen, List.forall_mem_append, List.forall_mem_map]
    refine ⟨h.clear hclear, fun e he => ?_⟩
    by_contra ho
    exact (hdown e he (Bool.eq_false_iff.mpr ho)).2 hclear

theorem assign (h : Mirror g t t') (hl : g.legal l) (hc : ∀ d, c = some d → g.AtLeast 1 d) :
    Answers g.comparison (t.assign l c) (t'.assign (g.lit l) (c.map g.handle)) (Mirror g) := by
  by_cases hfree : l ∉ t.falsified ∧ -l ∉ t.falsified
  · obtain ⟨hf, ht⟩ := hfree
    obtain ⟨u, hu, hw, he, hp, hfo, hm⟩ := h.wf.assign (g.proper hl) (g.small hl) hf ht c
    obtain ⟨u', hu', hw', he', hp', hfo', hm'⟩ := h.wf'.assign (g.lit_proper hl) (g.lit_small hl)
      (mt (h.mem_iff hl).mp hf) (mt (h.neg_mem_iff hl).mp ht) (c.map g.handle)
    rw [hu, hu', answers_ok]
    have hown : g.own (-g.lit l) = true := by rw [g.own_neg, g.own_lit hl]
    refine h.extend hw hw' he he' ?_ ?_ ?_ hp hp' hfo hfo' hm hm'
    · simp [Image.owns, Image.entry, hown, g.lit_neg hl]
    · simpa using ⟨g.legal_neg hl, hc⟩
    · simp [hown]
  · -- A literal that has a value is refused in both runs.
    have hset : t.isAssigned l = .ok true := by
      rw [isAssigned, h.wf.isFalse (g.small hl), h.wf.isTrue (g.small hl) (g.proper hl).2]
      by_cases hf : l ∈ t.falsified
      · rw [decide_eq_true hf]
      · rw [decide_eq_false hf, decide_eq_true (by tauto)]
    have hset' : t'.isAssigned (g.lit l) = .ok true := by
      rw [← hset, isAssigned, isAssigned, h.isFalse hl, h.isTrue hl]
    rw [Trail.assign, Trail.assign, hset, hset']
    exact g.answers_error (.alreadyAssigned l)

/-- The second run assigns a literal that the first one does not have. -/
theorem assign_foreign (h : Mirror g t t') (hl : g.Foreign l) (hd : g.down (-l))
    (hnc : ¬ g.clear) : Yields True (t'.assign l c) (Mirror g t) := by
  cases hassign : t'.assign l c with
  | error e => trivial
  | ok u =>
    have hfree : t'.isAssigned l = .ok false := by
      rw [Trail.assign] at hassign
      split at hassign
      · cases hassign
      · cases hassign
      · assumption
    obtain ⟨-, hf, ht⟩ := h.wf'.free_of_isAssigned hl.small hl.proper.1 hfree
    obtain ⟨u', hu', hw', he', hp', hfo', hm'⟩ := h.wf'.assign hl.proper hl.small hf ht c
    obtain rfl : u' = u := by
      rw [hassign] at hu'
      exact (Except.ok.inj hu').symm
    have hown : g.own (-l) = false := by rw [g.own_neg, hl.own]
    refine h.extend h.wf hw' (List.append_nil _).symm he' ?_ (by simp) ?_ rfl hp' rfl hfo'
      (fun _ => Iff.rfl) hm'
    · simp [Image.owns, hown]
    · simpa using fun _ => ⟨hd, hnc⟩

/-- What is left when entries are dropped that correspond, and the marks with them. -/
theorem cut (h : Mirror g t t') (hi : g.Level t' i i') (hw : u.Wf g.bound) (hw' : u'.Wf g.bound')
    (he : u.entries = t.entries.take i) (he' : u'.entries = t'.entries.take i')
    (hp : u.processed = i) (hp' : u'.processed = i') (hf : u.forced = i) (hf' : u'.forced = i')
    (hm : ∀ m, u.Marked m ↔ t.Marked m ∧ m ∈ u.falsified)
    (hm' : ∀ m, u'.Marked m ↔ t'.Marked m ∧ m ∈ u'.falsified) : Mirror g u u' := by
  have hfs : u.falsified = t.falsified.take i := by
    rw [← map_literal_entries, he, ← take_falsified]
  have hfs' : u'.falsified = t'.falsified.take i' := by
    rw [← map_literal_entries, he', ← take_falsified]
  have hlevel : g.Level u' i i' := by
    refine ⟨?_, ?_⟩
    · rw [hi.rank, Image.rank, Image.rank, hfs', List.take_take, Nat.min_self]
    · rw [← length_falsified, hfs', List.length_take, length_falsified]
      exact Nat.le_min.mpr ⟨Nat.le_refl _, hi.le⟩
  have hlegal : ∀ l ∈ u.falsified, g.legal l := by
    rw [hfs]
    exact fun l hl => h.legal l (List.mem_of_mem_take hl)
  have hfilter : u'.falsified.filter g.own = u.falsified.map g.lit := by
    rw [hfs, hfs', (filter_take_drop_of_map h.falsified i').1, ← Image.rank, ← hi.rank]
  refine ⟨hw, hw', ?_, ?_, ?_, ?_, fun m hml => ?_, fun m ho => ?_, ?_, ?_, ?_, fun _ => ?_⟩
  · exact hlegal
  · rw [he]
    exact fun e hmem => h.reasons e (List.mem_of_mem_take hmem)
  · rw [he, he', h.take_entries hi]
  · rw [hfs']
    exact fun l hl => h.down l (List.mem_of_mem_take hl)
  · rw [hm, hm', h.marked m hml, g.mem_iff hfilter hlegal hml]
  · rw [hm']
    exact fun hmk => h.unmarked m ho hmk.1
  · rw [hp, hp']
    exact hlevel
  · rw [hf, hf']
    exact hlevel
  · rw [hf', hp']
  · rw [hf', hfs', List.drop_eq_nil_of_le (List.length_take_le _ _)]
    simp

/-- All that is not fixed is taken back. -/
theorem truncate (h : Mirror g t t') :
    ∃ u u', t.truncate t.forced = .ok u ∧ t'.truncate t'.forced = .ok u' ∧
      Mirror g { u with processed := t.forced } { u' with processed := t'.forced } := by
  have hkept : ∀ {v w : Trail} {n k}, v.Wf n → w.entries = v.entries.take k →
      (∀ m, w.Marked m ↔ v.Marked m ∧ m ∉ v.falsified.drop k) →
      ∀ m, w.Marked m ↔ v.Marked m ∧ m ∈ w.falsified := by
    intro v w n k hv he hm m
    have hfs : w.falsified = v.falsified.take k := by
      rw [← map_literal_entries, he, ← take_falsified]
    rw [hm, hfs]
    refine and_congr_right fun hmk => ⟨fun hd => ?_, hv.not_mem_drop⟩
    have hmem := hv.mem_of_marked hmk
    rw [← List.take_append_drop k v.falsified] at hmem
    exact (List.mem_append.mp hmem).resolve_right hd
  obtain ⟨u, hu, hw, he, -, hf, hm⟩ := h.wf.truncate (h.le_assigned h.forced)
  obtain ⟨u', hu', hw', he', -, hf', hm'⟩ := h.wf'.truncate h.forced.le
  exact ⟨u, u', hu, hu', h.cut h.forced (hw.bounds _ _) (hw'.bounds _ _) he he' rfl rfl hf hf'
    (hkept h.wf he hm) (hkept h.wf' he' hm')⟩

/-- Where a literal stands in both trails. -/
theorem exists_split (h : Mirror g t t') (hl : l ∈ t.falsified) :
    ∃ es e post es' post', t.entries = es ++ e :: post ∧ e.literal = l ∧
      t'.entries = es' ++ g.entry e :: post' ∧ g.Level t' es.length es'.length := by
  have hlegal := h.legal l hl
  have hmem' := (h.mem_iff hlegal).mpr hl
  rw [← map_literal_entries] at hmem'
  obtain ⟨e', hmem, he'⟩ := List.mem_map.mp hmem'
  obtain ⟨es', post', hsplit'⟩ := List.append_of_mem hmem
  have hown : g.owns e' = true := by rw [Image.owns, he', g.own_lit hlegal]
  obtain ⟨e, hget, rfl⟩ := exists_of_filter_map h.entries (i := es'.length) (y := e')
    (by simp [hsplit']) hown
  have hrank : (t'.entries.take es'.length).countP g.owns = g.rank t' es'.length := by
    rw [Image.rank, take_falsified, List.countP_map]
    rfl
  rw [hrank] at hget
  obtain ⟨es, post, hsplit, hlen⟩ := exists_eq_append_cons hget
  have hmem := literal_mem_falsified (List.mem_of_getElem? hget)
  refine ⟨es, e, post, es', post', hsplit, g.lit_inj (h.legal _ hmem) hlegal he', hsplit', hlen, ?_⟩
  · rw [← length_entries, hsplit', List.length_append]
    exact Nat.le_add_right _ _

/-- `l` and all that came after it is taken back. -/
theorem unassign (h : Mirror g t t') (hl : g.legal l) :
    Answers g.comparison (t.unassign l) (t'.unassign (g.lit l)) (Mirror g) := by
  by_cases hm : -l ∈ t.falsified
  · obtain ⟨es, ⟨m, c⟩, post, es', post', hsplit, rfl, hsplit', hlevel⟩ := h.exists_split hm
    rw [Image.entry, g.lit_neg hl] at hsplit'
    obtain ⟨u, hu, hw, he, hp, hf, hmk⟩ := h.wf.unassign hsplit
    obtain ⟨u', hu', hw', he', hp', hf', hmk'⟩ := h.wf'.unassign hsplit'
    rw [hu, hu', answers_ok]
    refine h.cut hlevel hw hw' ?_ ?_ hp hp' hf hf' hmk hmk'
    · rw [he, hsplit, List.take_left]
    · rw [he', hsplit', List.take_left]
  · -- Nothing is taken back.
    have hrun : ∀ {v : Trail} {x n}, v.isTrue x = .ok false → popWhileTrue x n v = .ok v := by
      intro v x n hx
      cases n with
      | zero => rfl
      | succ n => rw [popWhileTrue, hx]
    have hfalse : t.isTrue l = .ok false := by
      rw [h.wf.isTrue (g.small hl) (g.proper hl).2, decide_eq_false hm]
    have hfalse' : t'.isTrue (g.lit l) = .ok false := by rw [h.isTrue hl, hfalse]
    rw [Trail.unassign, Trail.unassign, hfalse, hfalse']
    simp only [hrun hfalse, hrun hfalse', answers_ok]
    refine h.cut h.top (h.wf.bounds _ _) (h.wf'.bounds _ _) ?_ ?_ rfl rfl rfl rfl
      (fun m => ⟨fun hk => ⟨hk, h.wf.mem_of_marked hk⟩, fun hk => hk.1⟩)
      (fun m => ⟨fun hk => ⟨hk, h.wf'.mem_of_marked hk⟩, fun hk => hk.1⟩)
    · exact (List.take_of_length_le (Nat.le_of_eq t.length_entries)).symm
    · exact (List.take_of_length_le (Nat.le_of_eq t'.length_entries)).symm

/-- All that is on the trail counts as propagated. -/
theorem drain (h : Mirror g t t') :
    Mirror g { t with processed := t.assigned } { t' with processed := t'.assigned } :=
  { h with
    wf := h.wf.bounds _ _
    wf' := h.wf'.bounds _ _
    processed := h.top.extend (List.prefix_refl _)
    forced := h.forced.extend (List.prefix_refl _)
    ordered := h.forced.le }

/-- All that is propagated counts as fixed. -/
theorem fixed (h : Mirror g t t') :
    Mirror g { t with forced := t.processed } { t' with forced := t'.processed } :=
  { h with
    wf := h.wf.bounds _ _
    wf' := h.wf'.bounds _ _
    processed := h.processed.extend (List.prefix_refl _)
    forced := h.processed.extend (List.prefix_refl _)
    ordered := Nat.le_refl _
    clear := fun hc l hl => h.clear hc l ((List.drop_sublist_drop_left _ h.ordered).subset hl) }

end Writing

end Mirror

/-- Before anything is assigned, there is nothing to be found. -/
theorem mirror_blank (g : Image) : Mirror g (blank g.bound) (blank g.bound') where
  wf := wf_blank _
  wf' := wf_blank _
  legal := nofun
  reasons := nofun
  entries := rfl
  down := nofun
  marked _ _ := iff_of_false (not_marked_blank _ _) (not_marked_blank _ _)
  unmarked _ _ := not_marked_blank _ _
  processed := ⟨rfl, Nat.le_refl 0⟩
  forced := ⟨rfl, Nat.le_refl 0⟩
  ordered := Nat.le_refl 0
  clear := nofun

end Trail

end UnsatCore
