import UnsatCore.Stamping
import UnsatCore.Proofs.Verdict

/-! One table of stamps serves the whole input. Each clause takes a new stamp and no entry is ahead
of the stamp, so that what earlier clauses left is never taken for a literal of the clause at hand,
and a run with the table is the run without it. -/
namespace UnsatCore

open Engine Engine.CheckM

namespace StampTable

variable {n : Nat} {t t' : StampTable} {l m : Literal} {x c : Clause}

/-- There is room for the variables up to `n`, and no entry is ahead of the stamp. -/
structure Wf (n : Nat) (t : StampTable) : Prop where
  size : t.entries.size = 2 * n + 3
  le_stamp : ∀ l e, t.entries.get? l = some e → e ≤ t.stamp

/-- The set has the literals of `x` and no others of the variables up to `n`. -/
structure Has (n : Nat) (t : StampTable) (x : Clause) : Prop extends Wf n t where
  contains : ∀ l, l.var.index ≤ n → t.contains l = .ok (x.contains l)

theorem Wf.exists_get? (ht : Wf n t) (hl : l.var.index ≤ n) : ∃ e, t.entries.get? l = some e :=
  SlotMap.exists_get? (ht.size ▸ Trail.slot_lt hl)

theorem contains_of_get? {e : Nat} (h : t.entries.get? l = some e) :
    t.contains l = .ok (e == t.stamp) := by
  simp [contains, h, Fault.require]

theorem wf_blank (n : Nat) : Wf n (blank (2 * n + 3)) where
  size := by simp [blank, SlotMap.replicate, SlotMap.size]
  le_stamp := by
    intro l e he
    simp only [blank, SlotMap.replicate, SlotMap.get?, Array.getElem?_replicate] at he
    split at he <;> simp_all [blank]

/-- With a new stamp the set is empty. -/
theorem Wf.renew (ht : Wf n t) (hs : t.stamp + 1 < UInt64.size) :
    ∃ t', t.renew = .ok t' ∧ t'.stamp = t.stamp + 1 ∧ Has n t' [] := by
  refine ⟨{ t with stamp := t.stamp + 1 }, by simp [StampTable.renew, hs], rfl,
    ⟨ht.size, ?_⟩, ?_⟩
  · exact fun l e he => Nat.le_succ_of_le (ht.le_stamp l e he)
  · intro l hl
    obtain ⟨e, he⟩ := ht.exists_get? hl
    have hold := ht.le_stamp l e he
    have hnew : e ≠ t.stamp + 1 := by omega
    have hread : StampTable.contains { t with stamp := t.stamp + 1 } l = .ok (e == t.stamp + 1) :=
      contains_of_get? he
    simp [hread, hnew]

theorem Has.insert (ht : Has n t x) (hl : l.var.index ≤ n) :
    ∃ t', t.insert l = .ok t' ∧ t'.stamp = t.stamp ∧ Has n t' (l :: x) := by
  obtain ⟨entries, hset⟩ := SlotMap.set?_eq_some (ht.size ▸ Trail.slot_lt hl) t.stamp
  have hget := SlotMap.get?_set? hset
  refine ⟨{ t with entries }, by simp [StampTable.insert, hset, Fault.require], rfl,
    ⟨(SlotMap.size_set? hset).trans ht.size, ?_⟩, ?_⟩
  · intro m e he
    rw [hget] at he
    split at he
    · cases he
      exact Nat.le_refl _
    · exact ht.le_stamp m e he
  · intro m hm
    by_cases hlm : l = m
    · subst hlm
      have hentry : entries.get? l = some t.stamp := by simp [hget]
      exact (contains_of_get? hentry).trans (by simp)
    · have hsame : StampTable.contains { t with entries } m = t.contains m := by
        simp [StampTable.contains, hget, hlm]
      rw [hsame, ht.contains m hm]
      simp [Ne.symm hlm]

theorem Has.congr (ht : Has n t x) (h : ∀ l, l ∈ x ↔ l ∈ c) : Has n t c where
  toWf := ht.toWf
  contains := by
    intro l hl
    rw [ht.contains l hl]
    simp [h]

theorem Has.containsAll (ht : Has n t x) (hc : ∀ l ∈ c, l.var.index ≤ n) :
    t.containsAll c = .ok (c.all x.contains) := by
  induction c with
  | nil => rfl
  | cons l c ih =>
    rw [StampTable.containsAll, ht.contains l (hc l (by simp))]
    simp only [List.all_cons]
    cases x.contains l with
    | false => rfl
    | true => exact ih fun m hm => hc m (List.mem_cons_of_mem l hm)

end StampTable

namespace Stamped

variable {α β : Type} {n i : Nat} {t t' : StampTable} {s : State} {x c : Clause}
  {f rest : Formula} {d lines more : Derivation} {line : Derivation.Line} {h : Handle}
  {settings : Settings} {P Q : α → StampTable → State → Prop}

/-- From the table `t` and the state `s`, `m` does what `m'` does from `s` alone. If there is a
value, it is in `Q` with the table and the state that are left. -/
def Tracks (m : StampM α) (m' : CheckM α) (t : StampTable) (s : State)
    (Q : α → StampTable → State → Prop) : Prop :=
  match m' s with
  | .ok (a, s') => ∃ t', m t s = .ok ((a, t'), s') ∧ Q a t' s'
  | .error e => m t s = .error e

section Tracks

variable {m : StampM α} {m' : CheckM α} {g : α → StampM β} {g' : α → CheckM β}

theorem Tracks.mono (h : Tracks m m' t s P) (hq : ∀ a t' s', P a t' s' → Q a t' s') :
    Tracks m m' t s Q := by
  unfold Tracks at h ⊢
  split at h
  · obtain ⟨t', hm, hp⟩ := h
    exact ⟨t', hm, hq _ _ _ hp⟩
  · exact h

theorem Tracks.bind {R : β → StampTable → State → Prop} (h : Tracks m m' t s P)
    (hg : ∀ a t' s', m' s = .ok (a, s') → P a t' s' → Tracks (g a) (g' a) t' s' R) :
    Tracks (m >>= g) (m' >>= g') t s R := by
  unfold Tracks at h
  cases hm' : m' s with
  | ok r =>
    rw [hm'] at h
    obtain ⟨t', hm, hp⟩ := h
    have hnext := hg r.1 t' r.2 hm' hp
    unfold Tracks at hnext ⊢
    rw [bind_of_ok hm']
    simpa only [Bind.bind, StateT.bind, Except.bind, hm] using hnext
  | error e =>
    rw [hm'] at h
    unfold Tracks
    rw [bind_of_error hm']
    simp only [Bind.bind, StateT.bind, Except.bind, h]

theorem tracks_pure {a : α} (h : Q a t s) : Tracks (pure a) (pure a) t s Q := ⟨t, rfl, h⟩

/-- What does not use the table leaves it as it is. -/
theorem tracks_lift_congr {m₁ : CheckM α} (he : m₁ s = m' s)
    (h : ∀ a s', m' s = .ok (a, s') → Q a t s') : Tracks (liftM m₁) m' t s Q := by
  unfold Tracks
  show match m' s with
    | .ok (a, s') => ∃ t', (m₁ >>= fun a => pure (a, t)) s = .ok ((a, t'), s') ∧ Q a t' s'
    | .error e => (m₁ >>= fun a => pure (a, t)) s = .error e
  cases hm' : m' s with
  | ok r => exact ⟨t, bind_of_ok (he.trans hm'), h _ _ hm'⟩
  | error e => exact bind_of_error (he.trans hm')

theorem tracks_lift (h : ∀ a s', m' s = .ok (a, s') → Q a t s') : Tracks (liftM m') m' t s Q :=
  tracks_lift_congr rfl h

theorem tracks_lift_bind {R : β → StampTable → State → Prop}
    (h : ∀ a s', m' s = .ok (a, s') → Tracks (g a) (g' a) t s' R) :
    Tracks (liftM m' >>= g) (m' >>= g') t s R := by
  refine Tracks.bind (P := fun a t' s' => t' = t ∧ m' s = .ok (a, s'))
    (tracks_lift fun _ _ hm => ⟨rfl, hm⟩) ?_
  rintro a _ s' - ⟨rfl, hm⟩
  exact h a s' hm

theorem tracks_ite {p : Prop} [Decidable p] {m₁ : StampM α} {m₁' : CheckM α}
    (h : p → Tracks m m' t s Q) (h' : ¬ p → Tracks m₁ m₁' t s Q) :
    Tracks (if p then m else m₁) (if p then m' else m₁') t s Q := by
  split
  · exact h ‹_›
  · exact h' ‹_›

theorem tracks_get {g : StampTable → StampM α} (h : Tracks (g t) m' t s Q) :
    Tracks (get >>= g) m' t s Q := h

/-- The table is looked at. -/
theorem tracks_askTable {f : StampTable → Except Fault α} {a : α} {g : α → StampM β}
    {m' : CheckM β} {R : β → StampTable → State → Prop} (hf : f t = .ok a)
    (h : Tracks (g a) m' t s R) : Tracks (askTable f >>= g) m' t s R := by
  have hrun : (askTable f >>= g) t s = g a t s := by
    simp only [Bind.bind, StateT.bind, Except.bind, askTable, hf]
  unfold Tracks at h ⊢
  rwa [hrun]

/-- The table is changed. -/
theorem tracks_onTable {f : StampTable → Except Fault StampTable} {g : Unit → StampM β}
    {m' : CheckM β} {R : β → StampTable → State → Prop} (hf : f t = .ok t')
    (h : Tracks (g ()) m' t' s R) : Tracks (onTable f >>= g) m' t s R := by
  have hrun : (onTable f >>= g) t s = g () t' s := by
    simp only [Bind.bind, StateT.bind, Except.bind, onTable, hf]
  unfold Tracks at h ⊢
  rwa [hrun]

end Tracks

/-- What the table says of each literal is what the literals before it say. -/
theorem tracks_sift (part : Part) (i : Nat) (ht : t.Has n x) (hc : ∀ l ∈ c, l.var.index ≤ n) :
    Tracks (sift part i c)
      (do reportRepeated part i (Clause.repeatedFrom x c); return Clause.distinctFrom x c) t s
      fun y t' _ => y = Clause.distinctFrom x c ∧ t'.stamp = t.stamp ∧ t'.Has n (c ++ x) := by
  induction c generalizing t s x with
  | nil => exact ⟨t, rfl, rfl, rfl, ht⟩
  | cons l c ih =>
    have hrest : ∀ m ∈ c, m.var.index ≤ n := fun m hm => hc m (List.mem_cons_of_mem l hm)
    refine tracks_askTable (ht.contains l (hc l (by simp))) ?_
    simp only [Clause.repeatedFrom, Clause.distinctFrom]
    split
    · rename_i hl
      simp only [reportRepeated, bind_assoc]
      refine tracks_lift_bind fun _ s' _ => (ih ht hrest).mono ?_
      rintro y t' _ ⟨hy, hstamp, hhas⟩
      refine ⟨hy, hstamp, hhas.congr fun m => ?_⟩
      have hx : l ∈ x := by simpa using hl
      simp only [List.cons_append, List.mem_cons, List.mem_append]
      constructor
      · exact Or.inr
      · rintro (rfl | hm)
        · exact Or.inr hx
        · exact hm
    · obtain ⟨t₁, hinsert, hstamp₁, ht₁⟩ := ht.insert (hc l (by simp))
      refine tracks_onTable hinsert ?_
      have hsplit : (do reportRepeated part i (Clause.repeatedFrom (l :: x) c)
                        return l :: Clause.distinctFrom (l :: x) c) =
          (do reportRepeated part i (Clause.repeatedFrom (l :: x) c)
              return Clause.distinctFrom (l :: x) c) >>=
            fun y => (pure (l :: y) : CheckM Clause) := by
        simp only [bind_assoc, pure_bind]
      rw [hsplit]
      refine (ih ht₁ hrest).bind ?_
      rintro y t' s' - ⟨rfl, hstamp, hhas⟩
      refine ⟨t', rfl, rfl, hstamp.trans hstamp₁, hhas.congr fun m => ?_⟩
      simp only [List.cons_append, List.mem_cons, List.mem_append, or_left_comm]

theorem tracks_normalize (part : Part) (i : Nat) (ht : t.Wf n) (hs : t.stamp + 1 < UInt64.size)
    (hc : ∀ l ∈ c, l.var.index ≤ n) :
    Tracks (normalize part i c) (Engine.normalize part i c) t s fun y t' _ =>
      y = c.distinct ∧ t'.stamp = t.stamp + 1 ∧ t'.Has n y := by
  refine tracks_ite (fun _ => ?_) fun _ => ?_
  · exact tracks_lift fun _ _ h => nomatch h
  · obtain ⟨t₁, hrenew, hstamp₁, ht₁⟩ := ht.renew hs
    refine tracks_onTable hrenew ((tracks_sift part i ht₁ hc).mono ?_)
    rintro y t' _ ⟨rfl, hstamp, hhas⟩
    refine ⟨rfl, hstamp.trans hstamp₁, hhas.congr fun l => ?_⟩
    rw [List.append_nil]
    exact Clause.mem_distinct.symm

section Lookup

variable {a : Arena} {hs : List Handle}

theorem holds_eq (ht : t.Has n c) (hsmall : ∀ l ∈ a.literals h, l.var.index ≤ n) :
    holds t a c.length h = .ok (ClauseIndex.holds a c h) := by
  rw [holds, ClauseIndex.holds, ht.containsAll hsmall]
  by_cases hlen : a.length h = c.length
  · rw [if_pos hlen, beq_iff_eq.mpr hlen, Bool.true_and]
  · rw [if_neg hlen, beq_eq_false_iff_ne.mpr hlen, Bool.false_and]
    rfl

theorem findFrom_eq (ht : t.Has n c) (hsmall : ∀ h ∈ hs, ∀ l ∈ a.literals h, l.var.index ≤ n) :
    findFrom t a c.length i hs = .ok ((hs.findIdx? (ClauseIndex.holds a c)).bind fun j =>
      (hs[j]?).map fun h => (i + j, h)) := by
  induction hs generalizing i with
  | nil => rfl
  | cons h hs ih =>
    have hrest := ih (i := i + 1) fun d hd => hsmall d (List.mem_cons_of_mem h hd)
    rw [findFrom, holds_eq ht (hsmall h (by simp)), List.findIdx?_cons]
    cases ClauseIndex.holds a c h with
    | true => rfl
    | false =>
      refine hrest.trans ?_
      rw [if_neg (by simp)]
      cases hs.findIdx? (ClauseIndex.holds a c) with
      | none => rfl
      | some j => simp [Nat.add_comm, Nat.add_left_comm]

end Lookup

theorem tracks_resolve (index : Nat) (given : Clause) (ht : t.Has n c)
    (hsmall : ∀ h ∈ s.index.bucket c, ∀ l ∈ s.arena.literals h, l.var.index ≤ n) :
    Tracks (resolve settings index given c) (Engine.resolve settings index given c) t s
      fun _ t' _ => t' = t := by
  refine tracks_ite (fun _ => tracks_pure (Q := fun _ t' _ => t' = t) rfl) fun _ => ?_
  have hfind : findFrom t s.arena c.length 0 (s.index.bucket c).toList =
      .ok (s.index.lookup? s.arena c) := by
    rw [findFrom_eq ht fun h hh => hsmall h (Array.mem_toList_iff.mp hh), ← List.findIdx?_toArray,
      Array.toArray_toList]
    simp only [ClauseIndex.lookup?, ClauseIndex.find?, Nat.zero_add, Array.getElem?_toList]
    cases (s.index.bucket c).findIdx? (ClauseIndex.holds s.arena c) <;> rfl
  refine tracks_get <| (tracks_lift_congr (Q := fun _ t' _ => t' = t) ?_ fun _ _ _ => rfl).bind ?_
  · exact ask_of_ok hfind
  · rintro (_ | ⟨i, h⟩) _ s' - rfl
    · exact tracks_lift fun _ _ _ => rfl
    · exact tracks_lift fun _ _ _ => rfl

theorem tracks_readDeletion (index : Nat) (given : Clause) (ht : t.Has n c)
    (hsmall : ∀ h ∈ s.index.bucket c, ∀ l ∈ s.arena.literals h, l.var.index ≤ n) :
    Tracks (readDeletion settings index given c) (Engine.readDeletion settings index given c) t s
      fun _ t' _ => t' = t := by
  refine tracks_lift_bind fun _ s₁ hcount => ?_
  cases hcount
  refine (tracks_resolve (s := { s with counters := s.counters.countDeletion }) index given ht
    hsmall).bind ?_
  rintro step _ s₂ - rfl
  refine tracks_ite (fun _ => ?_) fun _ => ?_
  · exact tracks_lift_bind fun _ _ _ => tracks_lift fun _ _ _ => rfl
  · exact tracks_lift fun _ _ _ => rfl

theorem tracks_readClause (i : Nat) (ht : t.Wf n) (hs : t.stamp + 1 < UInt64.size)
    (hc : ∀ l ∈ c, l.var.index ≤ n) :
    Tracks (readClause i c) (Engine.readClause i c) t s fun _ t' _ =>
      t'.stamp = t.stamp + 1 ∧ t'.Wf n := by
  refine (tracks_normalize .formula i ht hs hc).bind ?_
  rintro y t' s₁ - ⟨-, hstamp, hhas⟩
  refine tracks_lift_bind fun h s₂ _ => tracks_lift_bind fun _ s₃ _ => ?_
  exact tracks_lift fun _ _ _ => ⟨hstamp, hhas.toWf⟩

theorem tracks_readFormula (ht : t.Wf n) (hs : t.stamp + rest.length < UInt64.size)
    (hsmall : ∀ c ∈ rest, ∀ l ∈ c, l.var.index ≤ n) :
    Tracks (readFormula i rest) (Engine.readFormula i rest) t s fun _ t' _ =>
      t'.stamp ≤ t.stamp + rest.length ∧ t'.Wf n := by
  induction rest generalizing i t s with
  | nil =>
    refine tracks_lift_bind fun _ s₁ _ => ?_
    exact ⟨t, rfl, Nat.le_refl _, ht⟩
  | cons c rest ih =>
    rw [List.length_cons] at hs
    refine (tracks_readClause i ht (by omega) (hsmall c (by simp))).bind ?_
    rintro (_ | _) t₁ s₁ - ⟨hstamp, ht₁⟩
    · exact ⟨t₁, rfl, by rw [hstamp, List.length_cons]; omega, ht₁⟩
    · refine (ih ht₁ (by omega) fun k hk => hsmall k (List.mem_cons_of_mem c hk)).mono ?_
      rintro _ t' _ ⟨hle, ht'⟩
      exact ⟨by rw [List.length_cons]; omega, ht'⟩

theorem small_bucket {F : Prop} (hl : Loaded n F f d s) :
    ∀ h ∈ s.index.bucket c, ∀ l ∈ s.arena.literals h, l.var.index ≤ n := by
  intro h hh
  obtain ⟨halive, -⟩ := (ClauseIndex.mem_bucket hl.index).mp hh
  exact hl.coherent.stored.small h (hl.alive h halive).1

theorem tracks_readLine {F : Prop} (hl : Loaded n F f lines s) (ht : t.Wf n)
    (hs : t.stamp + 1 < UInt64.size) (hc : ∀ l ∈ line.clause, l.var.index ≤ n) :
    Tracks (readLine settings i line) (Engine.readLine settings i line) t s fun _ t' _ =>
      t'.stamp = t.stamp + 1 ∧ t'.Wf n := by
  refine (tracks_normalize .derivation i ht hs hc).bind ?_
  rintro y t₁ s₁ hrun ⟨-, hstamp, hhas⟩
  have hl₁ : Loaded n F f lines s₁ :=
    (ends_normalize (F := True) (R := fun _ _ => True) (Q := fun _ s₁ => Loaded n F f lines s₁)
      (fun _ => trivial) fun _ log => hl.noted log s.counters).of_ok hrun
  cases line with
  | delete given =>
    refine (tracks_readDeletion i given hhas (small_bucket hl₁)).bind ?_
    rintro _ _ s₂ - rfl
    exact ⟨_, rfl, hstamp, hhas.toWf⟩
  | add c =>
    refine tracks_lift_bind fun _ s₂ _ => tracks_ite (fun _ => ?_) fun _ => ?_
    · exact tracks_lift_bind fun _ _ _ => ⟨t₁, rfl, hstamp, hhas.toWf⟩
    · exact ⟨t₁, rfl, hstamp, hhas.toWf⟩

theorem tracks_readLines (hfit : Fitting n True f d) (hl : Loaded n True f lines s)
    (hd : d = lines ++ more) (hno : .add [] ∉ lines) (ht : t.Wf n)
    (hs : t.stamp + more.length < UInt64.size) :
    Tracks (readLines settings lines.length more) (Engine.readLines settings lines.length more) t s
      fun _ _ _ => True := by
  induction more generalizing lines t s with
  | nil => exact ⟨t, rfl, trivial⟩
  | cons line more ih =>
    rw [List.length_cons] at hs
    have hc : ∀ l ∈ line.clause, l.var.index ≤ n := hfit.small line.clause (by simp [hd])
    refine (tracks_readLine hl ht (by omega) hc).bind ?_
    rintro last t₁ s₁ hrun ⟨hstamp, ht₁⟩
    obtain ⟨hl₁, hlast⟩ := (ends_readLine (R := fun _ _ => True) hfit (fun _ _ _ _ => trivial) hl
      hd hno).of_ok hrun
    refine tracks_ite (fun _ => ⟨t₁, rfl, trivial⟩) fun hgo => ?_
    have hno₁ : .add [] ∉ lines ++ [line] := by
      intro hm
      rcases List.mem_append.mp hm with hm | hm
      · exact hno hm
      · exact hgo (hlast.mpr (List.mem_singleton.mp hm).symm)
    have hrest := ih hl₁ (by simp [hd]) hno₁ ht₁ (by omega)
    rwa [List.length_append, List.length_singleton] at hrest

theorem tracks_refute (hfit : Fitting n True f d) (hl : Loaded n True f [] s) (ht : t.Wf n)
    (hs : t.stamp + d.length < UInt64.size) :
    Tracks (refute settings f d) (UnsatCore.refute settings f d) t s fun _ _ _ => True := by
  have hread : Tracks (readDerivation settings d) (Engine.readDerivation settings d) t s
      fun _ _ _ => True := by
    refine (tracks_readLines hfit hl rfl (List.not_mem_nil) ht hs).bind ?_
    intro _ _ _ _ _
    refine tracks_lift_bind fun _ _ _ => tracks_lift_bind fun _ _ _ => ?_
    exact tracks_lift fun _ _ _ => trivial
  refine hread.bind fun _ _ _ _ _ => tracks_lift_bind fun r _ _ => ?_
  cases r with
  | formula => exact tracks_lift fun _ _ _ => trivial
  | step last => exact tracks_lift_bind fun _ _ _ => tracks_lift fun _ _ _ => trivial

theorem tracks_run (hfit : Fitting n True f d) (hlen : f.length + d.length < UInt64.size) :
    Tracks (run settings f d) (UnsatCore.run settings f d) (.blank (2 * n + 3)) (.initial n)
      fun _ _ _ => True := by
  refine tracks_lift_bind fun _ s₁ hstart => ?_
  cases hstart
  have hl := (loaded_initial n True).noted (#[].push (.started f.length d.length)) {}
  have hstamp : (StampTable.blank (2 * n + 3)).stamp = 0 := rfl
  refine (tracks_readFormula (StampTable.wf_blank n) (by omega)
    fun c hc => hfit.small c (List.mem_append_left _ hc)).bind ?_
  rintro r t₁ s₁ hrun ⟨hle, ht₁⟩
  have hR : Objects settings f d fun _ _ => True := fun _ _ _ _ => trivial
  have hopened := (ends_readFormula [] hfit hR hl rfl).of_ok hrun
  cases r with
  | trivial => exact tracks_lift fun _ _ _ => trivial
  | ready => exact tracks_refute hfit hopened ht₁ (by omega)

/-- A run that reads its input with the table ends as the run that compares the literals themselves:
in the same result, rejection or fault, and with the same log. -/
theorem extract_eq (settings : Settings) (f : Formula) (d : Derivation)
    (hlen : f.length + d.length < UInt64.size) :
    extract settings f d = UnsatCore.extract settings f d := by
  have h : Tracks (run settings f d) (UnsatCore.run settings f d)
      (.blank (2 * maxVar f d + 3)) (.initial (maxVar f d)) fun _ _ _ => True :=
    tracks_run (fitting_excused f d) hlen
  simp only [extract, UnsatCore.extract]
  unfold Tracks at h
  cases hrun : UnsatCore.run settings f d (.initial (maxVar f d)) with
  | ok r =>
    rw [hrun] at h
    obtain ⟨t, ht, -⟩ := h
    rw [ht]
  | error e =>
    rw [hrun] at h
    rw [h]
    cases e <;> rfl

end Stamped

end UnsatCore
