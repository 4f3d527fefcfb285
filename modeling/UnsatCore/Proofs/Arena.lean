import UnsatCore.Arena
import Mathlib.Data.List.Basic

/-! The buffer of an arena is a row of records, one for each clause. A handle points at a record, so
what an operation does to one clause it does to no other. -/
namespace UnsatCore

theorem Clause.hasZero_eq_false {c : Clause} : c.hasZero = false ↔ ∀ l ∈ c, l.val ≠ 0 := by
  simp [Clause.hasZero, Literal.isZero]

/-- The literals of a clause with those at `i` and `j` exchanged. -/
def Clause.exchange (x : Clause) (i j : Nat) : Clause :=
  match x[i]?, x[j]? with
  | some l, some m => (x.set i m).set j l
  | _, _ => x

namespace Clause

theorem exchange_comm (x : Clause) (i j : Nat) : x.exchange i j = x.exchange j i := by
  unfold exchange
  cases hi : x[i]? with
  | none => cases x[j]? <;> rfl
  | some l =>
    cases hj : x[j]? with
    | none => rfl
    | some m =>
      by_cases he : i = j
      · subst he
        rw [hi] at hj
        cases hj
        rfl
      · exact List.set_comm m l he

theorem exchange_self (x : Clause) (i : Nat) : x.exchange i i = x := by
  unfold exchange
  cases hi : x[i]? with
  | none => rfl
  | some l =>
    obtain ⟨hlt, rfl⟩ := List.getElem?_eq_some_iff.mp hi
    simp

theorem perm_exchange (x : Clause) (i j : Nat) : (x.exchange i j).Perm x := by
  unfold exchange
  split
  · rename_i l m hi hj
    obtain ⟨hi', rfl⟩ := List.getElem?_eq_some_iff.mp hi
    obtain ⟨hj', rfl⟩ := List.getElem?_eq_some_iff.mp hj
    exact List.set_set_perm hi' hj'
  · exact List.Perm.refl _

/-- Literals that come later stay where they are. -/
theorem exchange_append_of_lt {x : Clause} {i j : Nat} (hi : i < x.length) (hj : j < x.length)
    (y : Clause) : (x ++ y).exchange i j = x.exchange i j ++ y := by
  simp [exchange, List.getElem?_append_left, List.set_append_left, hi, hj]

/-- Two literals that stand apart change places. -/
theorem exchange_append (x y z : Clause) (l m : Literal) :
    (x ++ l :: (y ++ m :: z)).exchange x.length (x.length + 1 + y.length) =
      x ++ m :: (y ++ l :: z) := by
  have hj : x.length + 1 + y.length - x.length = y.length + 1 := by omega
  have hle : x.length ≤ x.length + 1 + y.length := by omega
  simp [exchange, hj, List.getElem?_append_right, hle]

end Clause

/-- One clause in the buffer: its header and its literals. -/
structure Record where
  header : Int32
  body : Clause

namespace Record

def words (r : Record) : List Int32 := r.header :: (r.body.map Literal.val ++ [0])

def spread (rs : List Record) : List Int32 := rs.flatMap words

@[simp] theorem length_words (r : Record) : r.words.length = r.body.length + 2 := by
  simp [words]

@[simp] theorem spread_nil : spread [] = [] := rfl

@[simp] theorem spread_cons (r : Record) (rs : List Record) :
    spread (r :: rs) = r.words ++ spread rs := rfl

@[simp] theorem spread_append (rs qs : List Record) :
    spread (rs ++ qs) = spread rs ++ spread qs := by
  simp [spread]

end Record

open Record

namespace Arena

variable {a a' : Arena} {c d : Handle} {rs qs pre post : List Record} {r q : Record}

/-- The records that an arena consists of. -/
structure Laid (a : Arena) (rs : List Record) : Prop where
  words : a.words.toList = spread rs
  zeroFree : ∀ r ∈ rs, ∀ l ∈ r.body, l.val ≠ 0
  count : a.nextId.toInt = rs.length

def Wf (a : Arena) : Prop := ∃ rs, a.Laid rs

/-- A handle that the arena gave out: it points at a record. -/
def Has (a : Arena) (c : Handle) : Prop :=
  ∃ pre r post, a.Laid (pre ++ r :: post) ∧ c.header = (spread pre).length

/-- Whether a stored clause is in the core. -/
def inCore (a : Arena) (c : Handle) : Bool :=
  match a.isCore c with
  | .ok b => b
  | .error _ => false

theorem split_at_zero {x y : Clause} {u v : List Int32} (hx : ∀ l ∈ x, l.val ≠ 0)
    (hy : ∀ l ∈ y, l.val ≠ 0)
    (h : x.map Literal.val ++ 0 :: u = y.map Literal.val ++ 0 :: v) : x = y ∧ u = v := by
  induction x generalizing y with
  | nil =>
    cases y with
    | nil => simpa using h
    | cons m y =>
      simp only [List.map_nil, List.nil_append, List.map_cons, List.cons_append,
        List.cons.injEq] at h
      exact (hy m (by simp) h.1.symm).elim
  | cons l x ih =>
    cases y with
    | nil =>
      simp only [List.map_nil, List.nil_append, List.map_cons, List.cons_append,
        List.cons.injEq] at h
      exact (hx l (by simp) h.1).elim
    | cons m y =>
      simp only [List.map_cons, List.cons_append, List.cons.injEq] at h
      have hlm : l = m := by
        cases l
        cases m
        exact congrArg Literal.mk h.1
      obtain ⟨hxy, huv⟩ := ih (fun l hl => hx l (by simp [hl]))
        (fun l hl => hy l (by simp [hl])) h.2
      exact ⟨by rw [hlm, hxy], huv⟩

theorem spread_injective (hr : ∀ r ∈ rs, ∀ l ∈ r.body, l.val ≠ 0)
    (hq : ∀ q ∈ qs, ∀ l ∈ q.body, l.val ≠ 0) (h : spread rs = spread qs) : rs = qs := by
  induction rs generalizing qs with
  | nil =>
    cases qs with
    | nil => rfl
    | cons q qs => simp [Record.words] at h
  | cons r rs ih =>
    cases qs with
    | nil => simp [Record.words] at h
    | cons q qs =>
      simp only [spread_cons, Record.words, List.cons_append, List.append_assoc, List.cons.injEq,
        List.nil_append] at h
      obtain ⟨hb, hs⟩ := split_at_zero (hr r (by simp)) (hq q (by simp)) h.2
      have hrest := ih (fun r hm => hr r (by simp [hm])) (fun q hm => hq q (by simp [hm])) hs
      cases r
      cases q
      simp_all

theorem Laid.unique (h : a.Laid rs) (h' : a.Laid qs) : rs = qs :=
  spread_injective h.zeroFree h'.zeroFree (h.words.symm.trans h'.words)

/-- Reading from a place where a body begins gives the rest of that body. -/
theorem scan_eq {words : Array Int32} {n i : Nat} {x : Clause} {u : List Int32}
    (hw : words.toList.drop i = x.map Literal.val ++ 0 :: u) (hx : ∀ l ∈ x, l.val ≠ 0)
    (hn : x.length < n) : scan words n i = (x, true) := by
  induction n generalizing i x with
  | zero => omega
  | succ n ih =>
    have hi : words[i]? = (words.toList.drop i).head? := by
      rw [List.head?_drop, Array.getElem?_toList]
    cases x with
    | nil => simp [scan, hi, hw]
    | cons l x =>
      have hl : l.val ≠ 0 := hx l (by simp)
      have hd : words.toList.drop (i + 1) = x.map Literal.val ++ 0 :: u := by
        rw [← List.tail_drop, hw]
        rfl
      have hrest := ih hd (fun l hl => hx l (by simp [hl])) (by simpa using hn)
      simp [scan, hi, hw, hl, hrest]

section Reading

theorem Laid.drop_words (h : a.Laid (pre ++ r :: post)) (hc : c.header = (spread pre).length)
    {i : Nat} (hi : i ≤ r.body.length) :
    a.words.toList.drop (c.offset + i) = (r.body.drop i).map Literal.val ++ 0 :: spread post := by
  have hlen : c.offset + i = (spread pre).length + (1 + i) := by
    simp only [Handle.offset, hc]
    omega
  rw [h.words, spread_append, hlen, List.drop_length_add_append]
  simp only [spread_cons, Record.words, List.cons_append, List.append_assoc, List.nil_append]
  rw [Nat.add_comm, List.drop_succ_cons, List.drop_append_of_le_length (by simpa using hi),
    List.map_drop]

theorem Laid.scanFrom (h : a.Laid (pre ++ r :: post)) (hc : c.header = (spread pre).length)
    {i : Nat} (hi : i ≤ r.body.length) : a.scanFrom c i = (r.body.drop i, true) := by
  have hd := h.drop_words hc hi
  apply scan_eq hd
  · intro l hl
    exact h.zeroFree r (by simp) l (List.mem_of_mem_drop hl)
  · have hlen := congrArg List.length hd
    simp only [List.length_drop, Array.length_toList, List.length_append, List.length_map,
      List.length_cons] at hlen ⊢
    omega

theorem Laid.literals (h : a.Laid (pre ++ r :: post)) (hc : c.header = (spread pre).length) :
    a.literals c = r.body := by
  simp [Arena.literals, h.scanFrom hc (Nat.zero_le _)]

theorem Laid.word_header (h : a.Laid (pre ++ r :: post)) (hc : c.header = (spread pre).length) :
    a.words[c.header]? = some r.header := by
  rw [← Array.getElem?_toList, h.words, spread_append, hc]
  simp [Record.words]

theorem Laid.isCore (h : a.Laid (pre ++ r :: post)) (hc : c.header = (spread pre).length) :
    a.isCore c = .ok (r.header.toInt % 2 == 1) := by
  simp [Arena.isCore, Arena.word, h.word_header hc, Fault.require]

theorem Laid.id (h : a.Laid (pre ++ r :: post)) (hc : c.header = (spread pre).length) :
    a.id c = .ok (r.header.toInt / 2 % UInt64.size).toNat := by
  simp [Arena.id, Arena.word, h.word_header hc, Fault.require]

end Reading

theorem Has.wf (h : a.Has c) : a.Wf := by
  obtain ⟨pre, r, post, h, -⟩ := h
  exact ⟨_, h⟩

theorem Has.isCore (h : a.Has c) : a.isCore c = .ok (a.inCore c) := by
  obtain ⟨pre, r, post, h, hc⟩ := h
  simp [inCore, h.isCore hc]

theorem Has.zeroFree (h : a.Has c) : ∀ l ∈ a.literals c, l.val ≠ 0 := by
  obtain ⟨pre, r, post, h, hc⟩ := h
  rw [h.literals hc]
  exact h.zeroFree r (by simp)

theorem Has.body (h : a.Has c) {i : Nat} (hi : i ≤ (a.literals c).length) :
    a.body c i = .ok ((a.literals c).drop i) := by
  obtain ⟨pre, r, post, h, hc⟩ := h
  rw [h.literals hc] at hi ⊢
  simp [Arena.body, h.scanFrom hc hi]

theorem Has.length (h : a.Has c) : a.length c = (a.literals c).length := by
  obtain ⟨pre, r, post, h, hc⟩ := h
  rw [h.literals hc]
  simp [Arena.length, h.scanFrom hc (Nat.zero_le _)]

theorem Has.word_literal (h : a.Has c) {i : Nat} (hi : i ≤ (a.literals c).length) :
    a.words[c.offset + i]? = (((a.literals c).drop i).map Literal.val ++ [0]).head? := by
  obtain ⟨pre, r, post, h, hc⟩ := h
  rw [h.literals hc] at hi ⊢
  rw [← Array.getElem?_toList, ← List.head?_drop, h.drop_words hc hi]
  cases r.body.drop i <;> rfl

theorem Has.literal (h : a.Has c) {i : Nat} {l : Literal} (hl : (a.literals c)[i]? = some l) :
    a.literal c i = .ok l := by
  obtain ⟨hi, hl⟩ := List.getElem?_eq_some_iff.mp hl
  have hw := h.word_literal (Nat.le_of_lt hi)
  rw [List.drop_eq_getElem_cons hi, hl] at hw
  simp [Arena.literal, Arena.word, hw, Fault.require]

/-- The place after the last literal holds the closing 0. -/
theorem Has.literal_end (h : a.Has c) : a.literal c (a.literals c).length = .ok ⟨0⟩ := by
  have hw := h.word_literal (Nat.le_refl _)
  simp only [List.drop_length] at hw
  simp [Arena.literal, Arena.word, hw, Fault.require]

theorem Has.isWatchable (h : a.Has c) :
    a.isWatchable c = .ok (decide (2 ≤ (a.literals c).length)) := by
  have hz := h.zeroFree
  have hlit := fun i l => h.literal (i := i) (l := l)
  have hend := h.literal_end
  match hc : a.literals c with
  | [] =>
    rw [hc] at hend
    simp [Arena.isWatchable, show a.literal c 0 = .ok ⟨0⟩ from hend, Literal.isZero]
  | [l] =>
    have hl := hz l (by simp [hc])
    rw [hc] at hend
    simp [Arena.isWatchable, hlit 0 l (by simp [hc]), show a.literal c 1 = .ok ⟨0⟩ from hend,
      Literal.isZero, hl]
  | l :: m :: rest =>
    have hl := hz l (by simp [hc])
    have hm := hz m (by simp [hc])
    simp [Arena.isWatchable, hlit 0 l (by simp [hc]), hlit 1 m (by simp [hc]), Literal.isZero, hl,
      hm]

section Writing

/-- Two handles of one arena point at the same record or at records with one before the other. -/
theorem Laid.apart (h : a.Laid (pre ++ r :: post)) (hc : c.header = (spread pre).length)
    (hd : a.Has d) (hne : d ≠ c) :
    (∃ x q y, pre = x ++ q :: y ∧ d.header = (spread x).length) ∨
      ∃ x q y, post = x ++ q :: y ∧ d.header = (spread (pre ++ r :: x)).length := by
  obtain ⟨x, q, y, h', hd⟩ := hd
  have he := h.unique h'
  rcases List.append_eq_append_iff.mp he with ⟨u, hx, hy⟩ | ⟨u, hx, hy⟩
  · cases u with
    | nil =>
      have hh : d.header = c.header := by simp_all
      exact (hne (by cases c; cases d; exact congrArg Handle.mk hh)).elim
    | cons t u =>
      simp only [List.cons_append, List.cons.injEq] at hy
      obtain ⟨rfl, rfl⟩ := hy
      exact Or.inr ⟨u, q, y, rfl, by rw [hd, hx]⟩
  · cases u with
    | nil =>
      have hh : d.header = c.header := by simp_all
      exact (hne (by cases c; cases d; exact congrArg Handle.mk hh)).elim
    | cons t u =>
      simp only [List.cons_append, List.cons.injEq] at hy
      obtain ⟨rfl, rfl⟩ := hy
      exact Or.inl ⟨x, q, u, hx, hd⟩

/-- A record that is replaced by one of the same length leaves all other records where they are. -/
theorem Laid.replace_other (h : a.Laid (pre ++ r :: post)) (h' : a'.Laid (pre ++ q :: post))
    (hlen : q.body.length = r.body.length) (hc : c.header = (spread pre).length) (hd : a.Has d)
    (hne : d ≠ c) : a'.Has d ∧ a'.literals d = a.literals d ∧ a'.inCore d = a.inCore d ∧
      a'.id d = a.id d := by
  rcases h.apart hc hd hne with ⟨x, t, y, rfl, hx⟩ | ⟨x, t, y, rfl, hx⟩
  · simp only [List.append_assoc, List.cons_append] at h h'
    refine ⟨⟨x, t, _, h', hx⟩, (h'.literals hx).trans (h.literals hx).symm, ?_,
      (h'.id hx).trans (h.id hx).symm⟩
    simp [inCore, h.isCore hx, h'.isCore hx]
  · rw [← List.cons_append, ← List.append_assoc] at h h'
    have hx' : d.header = (spread (pre ++ q :: x)).length := by
      rw [hx]
      simp [hlen]
    refine ⟨⟨_, t, _, h', hx'⟩, (h'.literals hx').trans (h.literals hx).symm, ?_,
      (h'.id hx').trans (h.id hx).symm⟩
    simp [inCore, h.isCore hx, h'.isCore hx']

/-- What is kept when one clause gets another arrangement of its literals or another mark. -/
structure Kept (a a' : Arena) (c : Handle) : Prop where
  wf : a'.Wf
  has : ∀ d, a'.Has d ↔ a.Has d
  literals : ∀ d, a.Has d → d ≠ c → a'.literals d = a.literals d
  inCore : ∀ d, a.Has d → d ≠ c → a'.inCore d = a.inCore d
  id : ∀ d, a.Has d → a'.id d = a.id d

theorem Kept.refl (h : a.Wf) (c : Handle) : a.Kept a c :=
  ⟨h, fun _ => Iff.rfl, fun _ _ _ => rfl, fun _ _ _ => rfl, fun _ _ => rfl⟩

theorem Kept.trans {a₁ a₂ a₃ : Arena} (h : a₁.Kept a₂ c) (h' : a₂.Kept a₃ c) : a₁.Kept a₃ c where
  wf := h'.wf
  has := fun d => (h'.has d).trans (h.has d)
  literals := fun d hd hne => (h'.literals d ((h.has d).mpr hd) hne).trans (h.literals d hd hne)
  inCore := fun d hd hne => (h'.inCore d ((h.has d).mpr hd) hne).trans (h.inCore d hd hne)
  id := fun d hd => (h'.id d ((h.has d).mpr hd)).trans (h.id d hd)

theorem Laid.kept (h : a.Laid (pre ++ r :: post)) (h' : a'.Laid (pre ++ q :: post))
    (hlen : q.body.length = r.body.length) (hid : q.header.toInt / 2 = r.header.toInt / 2)
    (hc : c.header = (spread pre).length) : a.Kept a' c where
  wf := ⟨_, h'⟩
  has := by
    intro d
    by_cases he : d = c
    · subst he
      exact ⟨fun _ => ⟨_, _, _, h, hc⟩, fun _ => ⟨_, _, _, h', hc⟩⟩
    · exact ⟨fun hd => (h'.replace_other h hlen.symm hc hd he).1,
        fun hd => (h.replace_other h' hlen hc hd he).1⟩
  literals := fun _ hd he => (h.replace_other h' hlen hc hd he).2.1
  inCore := fun _ hd he => (h.replace_other h' hlen hc hd he).2.2.1
  id := by
    intro d hd
    by_cases he : d = c
    · subst he
      rw [h.id hc, h'.id hc, hid]
    · exact (h.replace_other h' hlen hc hd he).2.2.2

theorem Laid.zeroFree_replace (h : a.Laid (pre ++ r :: post))
    (hq : ∀ l ∈ q.body, l ∈ r.body ∨ l.val ≠ 0) :
    ∀ t ∈ pre ++ q :: post, ∀ l ∈ t.body, l.val ≠ 0 := by
  intro t ht l hl
  simp only [List.mem_append, List.mem_cons] at ht
  rcases ht with ht | rfl | ht
  · exact h.zeroFree t (by simp [ht]) l hl
  · exact (hq l hl).elim (h.zeroFree r (by simp) l) fun hz => hz
  · exact h.zeroFree t (by simp [ht]) l hl

theorem Laid.set_body (h : a.Laid (pre ++ r :: post)) (hc : c.header = (spread pre).length)
    {i : Nat} (hi : i < r.body.length) (l : Literal) :
    a.words.toList.set (c.offset + i) l.val =
      spread (pre ++ ⟨r.header, r.body.set i l⟩ :: post) := by
  have hlen : c.offset + i = (spread pre).length + (1 + i) := by
    simp only [Handle.offset, hc]
    omega
  rw [h.words, hlen]
  simp only [spread_append, spread_cons, Record.words, List.cons_append, List.append_assoc,
    List.nil_append, List.set_append_right _ _ (Nat.le_add_right _ _), Nat.add_sub_cancel_left]
  rw [Nat.add_comm, List.set_cons_succ, List.set_append_left _ _ (by simpa using hi), List.map_set]

theorem Has.swap (h : a.Has c) {i j : Nat} (hi : i < (a.literals c).length)
    (hj : j < (a.literals c).length) :
    ∃ a', a.swap c i j = .ok a' ∧ a.Kept a' c ∧ a'.literals c = (a.literals c).exchange i j ∧
      a'.inCore c = a.inCore c ∧ a'.nextId = a.nextId := by
  have hwi := h.word_literal (Nat.le_of_lt hi)
  have hwj := h.word_literal (Nat.le_of_lt hj)
  rw [List.drop_eq_getElem_cons hi] at hwi
  rw [List.drop_eq_getElem_cons hj] at hwj
  obtain ⟨hwi, hvi⟩ := Array.getElem?_eq_some_iff.mp hwi
  obtain ⟨hwj, hvj⟩ := Array.getElem?_eq_some_iff.mp hwj
  obtain ⟨pre, r, post, h, hc⟩ := h
  have hb := h.literals hc
  simp only [hb] at hi hj hvi hvj
  refine ⟨⟨a.words.swap (c.offset + i) (c.offset + j) hwi hwj, a.nextId⟩, ?_, ?_⟩
  · simp [Arena.swap, hwi, hwj]
  · have hx : r.body.exchange i j = (r.body.set i r.body[j]).set j r.body[i] := by
      simp [Clause.exchange, hi, hj]
    have hmid : (⟨a.words.set (c.offset + i) r.body[j].val hwi, a.nextId⟩ : Arena).Laid
        (pre ++ ⟨r.header, r.body.set i r.body[j]⟩ :: post) := by
      refine ⟨?_, h.zeroFree_replace ?_, by simpa using h.count⟩
      · rw [Array.toList_set, h.set_body hc hi]
      · intro l hl
        rcases List.mem_or_eq_of_mem_set hl with hl | rfl
        · exact Or.inl hl
        · exact Or.inl (List.getElem_mem hj)
    have hend : (⟨a.words.swap (c.offset + i) (c.offset + j) hwi hwj, a.nextId⟩ : Arena).Laid
        (pre ++ ⟨r.header, r.body.exchange i j⟩ :: post) := by
      refine ⟨?_, h.zeroFree_replace ?_, by simpa using h.count⟩
      · have hs := hmid.set_body hc (i := j) (by simpa using hj) r.body[i]
        simp only [Array.toList_set] at hs
        rw [hx, ← hs]
        simp [Array.swap, hvi, hvj]
      · exact fun l hl => Or.inl ((r.body.perm_exchange i j).mem_iff.mp hl)
    refine ⟨h.kept hend ((r.body.perm_exchange i j).length_eq) rfl hc, ?_, ?_, rfl⟩
    · rw [hb, hend.literals hc]
    · simp [inCore, h.isCore hc, hend.isCore hc]

/-- Only the two places that change places differ. -/
theorem swap_apart {i j k : Nat} (h : a.swap c i j = .ok a') (hi : k ≠ c.offset + i)
    (hj : k ≠ c.offset + j) : a'.words[k]? = a.words[k]? ∧ a'.nextId = a.nextId := by
  unfold Arena.swap at h
  split at h
  · cases h
    refine ⟨?_, rfl⟩
    rw [Array.getElem?_swap, if_neg (Ne.symm hj), if_neg (Ne.symm hi)]
  · cases h

/-- Another literal is written in the place of one. -/
theorem Has.setLiteral (h : a.Has c) {i : Nat} (hi : i < (a.literals c).length) {l : Literal}
    (hl : l.val ≠ 0) :
    ∃ a', a.setLiteral c i l = .ok a' ∧ a.Kept a' c ∧ a'.literals c = (a.literals c).set i l ∧
      a'.inCore c = a.inCore c ∧ a'.nextId = a.nextId := by
  have hw := h.word_literal (Nat.le_of_lt hi)
  rw [List.drop_eq_getElem_cons hi] at hw
  obtain ⟨hw, -⟩ := Array.getElem?_eq_some_iff.mp hw
  obtain ⟨pre, r, post, h, hc⟩ := h
  have hb := h.literals hc
  rw [hb] at hi
  refine ⟨⟨a.words.set (c.offset + i) l.val hw, a.nextId⟩, ?_, ?_⟩
  · simp [Arena.setLiteral, setWord, hw]
  have hnew : (⟨a.words.set (c.offset + i) l.val hw, a.nextId⟩ : Arena).Laid
      (pre ++ ⟨r.header, r.body.set i l⟩ :: post) := by
    refine ⟨?_, h.zeroFree_replace ?_, by simpa using h.count⟩
    · rw [Array.toList_set, h.set_body hc hi]
    · intro m hm
      rcases List.mem_or_eq_of_mem_set hm with hm | rfl
      · exact Or.inl hm
      · exact Or.inr hl
  refine ⟨h.kept hnew (by simp) rfl hc, ?_, ?_, rfl⟩
  · rw [hb, hnew.literals hc]
  · simp [inCore, h.isCore hc, hnew.isCore hc]

/-- Marking changes the parity of a header, and tells whether it did. -/
theorem Has.markCore (h : a.Has c) :
    ∃ a', a.markCore c = .ok (!a.inCore c, a') ∧ a.Kept a' c ∧ a'.literals c = a.literals c ∧
      a'.inCore c = true ∧ a'.nextId = a.nextId := by
  obtain ⟨pre, r, post, h, hc⟩ := h
  obtain ⟨hlt, hw⟩ := Array.getElem?_eq_some_iff.mp (h.word_header hc)
  have hcore : a.inCore c = (r.header.toInt % 2 == 1) := by simp [inCore, h.isCore hc]
  by_cases hodd : r.header.toInt % 2 = 1
  · have hin : a.inCore c = true := by simp [hcore, hodd]
    exact ⟨a, by simp [Arena.markCore, hlt, hw, hodd, hin], h.kept h rfl rfl hc, rfl, hin, rfl⟩
  · have hnot : a.inCore c = false := by simp [hcore, hodd]
    refine ⟨⟨a.words.set c.header (r.header + 1) hlt, a.nextId⟩, ?_, ?_⟩
    · simp [Arena.markCore, hlt, hw, hodd, hnot]
    have hnew : (⟨a.words.set c.header (r.header + 1) hlt, a.nextId⟩ : Arena).Laid
        (pre ++ ⟨r.header + 1, r.body⟩ :: post) := by
      refine ⟨?_, h.zeroFree_replace fun l hl => Or.inl hl, by simpa using h.count⟩
      rw [Array.toList_set, h.words, hc]
      simp [Record.words]
    have hlow := r.header.minValue_le_toInt
    have hhigh := r.header.toInt_lt
    rw [Int32.toInt_minValue] at hlow
    have hone : (1 : Int32).toInt = 1 := rfl
    have hsum : (r.header + 1).toInt = r.header.toInt + 1 := by
      rw [Int32.toInt_add, hone]
      apply Int.bmod_eq_of_le <;> omega
    have hhalf : (r.header + 1).toInt / 2 = r.header.toInt / 2 := by
      rw [hsum]
      omega
    refine ⟨h.kept hnew rfl hhalf hc, ?_, ?_, rfl⟩
    · rw [hnew.literals hc, h.literals hc]
    · simp only [inCore, hnew.isCore hc, hsum, beq_iff_eq]
      omega

/-- What storing the clause `x` does: the handle `c` is new, and all others are as before. -/
structure Grown (a a' : Arena) (c : Handle) (x : Clause) : Prop where
  wf : a'.Wf
  fresh : ¬ a.Has c
  has : ∀ d, a'.Has d ↔ a.Has d ∨ d = c
  literals_new : a'.literals c = x
  inCore_new : a'.inCore c = false
  literals : ∀ d, a.Has d → a'.literals d = a.literals d
  inCore : ∀ d, a.Has d → a'.inCore d = a.inCore d
  count : a'.clauseCount = a.clauseCount + 1
  id_new : a'.id c = .ok ((a.nextId + a.nextId).toInt / 2 % UInt64.size).toNat
  id : ∀ d, a.Has d → a'.id d = a.id d

theorem even_double (w : Int32) : ((w + w).toInt % 2 == 1) = false := by
  have hlow := w.minValue_le_toInt
  have hhigh := w.toInt_lt
  rw [Int32.toInt_minValue] at hlow
  rw [Int32.toInt_add, beq_eq_false_iff_ne, Int.bmod_def]
  split <;> omega

theorem Laid.has_append (h : a.Laid rs) (h' : a'.Laid (rs ++ [r])) (hd : a.Has d) :
    a'.Has d ∧ a'.literals d = a.literals d ∧ a'.inCore d = a.inCore d ∧ a'.id d = a.id d := by
  obtain ⟨pre, q, post, hl, hd⟩ := hd
  cases h.unique hl
  simp only [List.append_assoc, List.cons_append] at h'
  refine ⟨⟨pre, q, _, h', hd⟩, (h'.literals hd).trans (h.literals hd).symm, ?_,
    (h'.id hd).trans (h.id hd).symm⟩
  simp [inCore, h.isCore hd, h'.isCore hd]

theorem Laid.grown (h : a.Laid rs) {x : Clause}
    (h' : a'.Laid (rs ++ [⟨a.nextId + a.nextId, x⟩])) : a.Grown a' ⟨a.words.size⟩ x := by
  have hsize : a.words.size = (spread rs).length := by
    rw [← h.words, Array.length_toList]
  have hfresh : ¬ a.Has ⟨a.words.size⟩ := by
    rintro ⟨pre, q, post, hl, hd⟩
    cases h.unique hl
    simp only [hsize, spread_append, spread_cons, List.length_append, length_words] at hd
    omega
  have hnew : a'.Has ⟨a.words.size⟩ := ⟨rs, ⟨a.nextId + a.nextId, x⟩, [], h', hsize⟩
  refine ⟨⟨_, h'⟩, hfresh, ?_, h'.literals hsize, ?_, ?_, ?_, ?_, h'.id hsize, ?_⟩
  · intro d
    constructor
    · intro hd
      by_cases he : d = ⟨a.words.size⟩
      · exact Or.inr he
      rcases h'.apart hsize hd he with ⟨pre, q, post, rfl, hd⟩ | ⟨pre, q, post, hp, -⟩
      · exact Or.inl ⟨pre, q, post, h, hd⟩
      · simp at hp
    · rintro (hd | rfl)
      · exact (h.has_append h' hd).1
      · exact hnew
  · rw [Arena.inCore, h'.isCore (c := ⟨a.words.size⟩) hsize]
    exact even_double a.nextId
  · exact fun d hd => (h.has_append h' hd).2.1
  · exact fun d hd => (h.has_append h' hd).2.2.1
  · have hc := h.count
    have hc' := h'.count
    simp only [List.length_append, List.length_singleton] at hc'
    simp only [clauseCount, hc, hc']
    omega
  · exact fun d hd => (h.has_append h' hd).2.2.2

/-- A clause without the literal 0 is stored, unless no number is left for it. -/
theorem Wf.add (h : a.Wf) {x : Clause} (hx : x.hasZero = false) :
    (a.clauseCount = 2147483647 ∧ a.add x = .error .overflow) ∨
      ∃ c a', a.add x = .ok (c, a') ∧ a.Grown a' c x := by
  obtain ⟨rs, h⟩ := h
  by_cases hn : a.nextId = Int32.maxValue
  · refine Or.inl ⟨?_, by simp [Arena.add, hx, hn]⟩
    simp only [clauseCount, hn]
    rfl
  · have hlt : a.nextId.toInt ≠ Int32.maxValue.toInt := fun he => hn (Int32.toInt_inj.mp he)
    have hmax : Int32.maxValue.toInt = 2147483647 := rfl
    have hone : (1 : Int32).toInt = 1 := rfl
    have hhigh := a.nextId.toInt_lt
    have hc := h.count
    have hnext : (a.nextId + 1).toInt = a.nextId.toInt + 1 := by
      rw [Int32.toInt_add, hone]
      apply Int.bmod_eq_of_le <;> omega
    refine Or.inr ⟨⟨a.words.size⟩, ⟨((a.words.push (a.nextId + a.nextId)) ++
      x.map Literal.val).push 0, a.nextId + 1⟩, by simp [Arena.add, hx, hn], ?_⟩
    apply h.grown
    refine ⟨?_, ?_, ?_⟩
    · simp [h.words, Record.words]
    · intro r hr l hl
      rcases List.mem_append.mp hr with hr | hr
      · exact h.zeroFree r hr l hl
      · cases List.mem_singleton.mp hr
        exact Clause.hasZero_eq_false.mp hx l hl
    · simp [hnext, hc]

theorem wf_empty : empty.Wf := ⟨[], rfl, by simp, rfl⟩

theorem not_has_empty (c : Handle) : ¬ empty.Has c := by
  rintro ⟨pre, r, post, h, -⟩
  have hl : empty.Laid [] := ⟨rfl, by simp, rfl⟩
  simpa using hl.unique h

end Writing

end Arena

end UnsatCore
