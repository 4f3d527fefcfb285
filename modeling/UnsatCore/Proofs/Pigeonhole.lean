import UnsatCore.Families.Pigeonhole
import UnsatCore.Proofs.Literal
import Mathlib.Data.Fintype.Card

/-! The pigeonhole formulas say what they are named for: one has a model just if there are holes
enough. A seat is a variable, and the seats of different pigeons or holes are different
variables. -/
namespace UnsatCore.Pigeonhole

variable {pigeons holes : Int32} {m n p q k : Nat} {l : Literal} {c : Clause} {σ : Assignment}
  {ns : List Nat} {ps : List (Nat × Nat)} {combinations : List Nat → List (Nat × Nat)}

/-- What the combinations of the numbers below `m` have to be: each pair with the smaller number
first, and each pair once. Nothing is said about the order. -/
structure ListsPairs (m : Nat) (ps : List (Nat × Nat)) : Prop where
  nodup : ps.Nodup
  mem_iff : ∀ p q, (p, q) ∈ ps ↔ p < q ∧ q < m

section Pairs

theorem mem_pairs (h : ns.Pairwise (· < ·)) : (p, q) ∈ pairs ns ↔ p ∈ ns ∧ q ∈ ns ∧ p < q := by
  induction ns with
  | nil => simp [pairs]
  | cons first rest ih =>
    obtain ⟨hfirst, hrest⟩ := List.pairwise_cons.mp h
    rw [pairs, List.mem_append, ih hrest]
    constructor
    · rintro (hpair | ⟨hp, hq, hlt⟩)
      · obtain ⟨q', hq, he⟩ := List.mem_map.mp hpair
        obtain ⟨rfl, rfl⟩ := Prod.mk.inj he
        exact ⟨List.mem_cons_self, List.mem_cons_of_mem _ hq, hfirst _ hq⟩
      · exact ⟨List.mem_cons_of_mem _ hp, List.mem_cons_of_mem _ hq, hlt⟩
    · rintro ⟨hp, hq, hlt⟩
      rcases List.mem_cons.mp hq with rfl | hq'
      · rcases List.mem_cons.mp hp with rfl | hp'
        · exact (Nat.lt_irrefl _ hlt).elim
        · exact (Nat.lt_asymm hlt (hfirst p hp')).elim
      · rcases List.mem_cons.mp hp with rfl | hp'
        · exact .inl (List.mem_map_of_mem hq')
        · exact .inr ⟨hp', hq', hlt⟩

theorem nodup_pairs (h : ns.Pairwise (· < ·)) : (pairs ns).Nodup := by
  induction ns with
  | nil => simp [pairs]
  | cons first rest ih =>
    obtain ⟨hfirst, hrest⟩ := List.pairwise_cons.mp h
    have hnodup : rest.Nodup := hrest.imp Nat.ne_of_lt
    refine List.nodup_append'.mpr ⟨hnodup.map fun _ _ he => (Prod.mk.inj he).2, ih hrest, ?_⟩
    -- The pairs of the rest do not start with the first number.
    intro pair hpair hmem
    obtain ⟨q, -, rfl⟩ := List.mem_map.mp hpair
    exact Nat.lt_irrefl _ (hfirst first ((mem_pairs hrest).mp hmem).1)

theorem listsPairs_pairs (m : Nat) : ListsPairs m (pairs (List.range m)) := by
  refine ⟨nodup_pairs List.pairwise_lt_range, fun p q => ?_⟩
  rw [mem_pairs List.pairwise_lt_range, List.mem_range, List.mem_range]
  omega

end Pairs

/-- The number of the variable that seats pigeon `p` in hole `q`. -/
def seat (n p q : Nat) : Nat := p * n + q + 1

/-- What `formulaBy` gives, with the seats written out. -/
def closed (ps : List (Nat × Nat)) (m n : Nat) : Formula :=
  ((List.range m).map fun p => (List.range n).map fun q => Signings.literal (seat n p q)) ++
  ((List.range n).map fun q => ps.map fun pair =>
    [-Signings.literal (seat n pair.1 q), -Signings.literal (seat n pair.2 q)]).flatten

section Seats

theorem seat_pos (n p q : Nat) : 0 < seat n p q := Nat.succ_pos _

theorem seat_le (hp : p < m) (hq : q < n) : seat n p q ≤ m * n := by
  have hrow : (p + 1) * n ≤ m * n := Nat.mul_le_mul_right n hp
  rw [Nat.add_one_mul] at hrow
  simp only [seat]
  omega

theorem seat_div (p : Nat) (hq : q < n) : (seat n p q - 1) / n = p := by
  rw [seat, Nat.add_sub_cancel, Nat.mul_comm, Nat.mul_add_div (by omega), Nat.div_eq_of_lt hq,
    Nat.add_zero]

theorem seat_mod (p : Nat) (hq : q < n) : (seat n p q - 1) % n = q := by
  rw [seat, Nat.add_sub_cancel, Nat.mul_comm, Nat.mul_add_mod, Nat.mod_eq_of_lt hq]

end Seats

section Words

theorem word_eq_ok (hk : k < 2 ^ 31) : word k = .ok (Int32.ofNat k) := by
  have hrange : Int32.minValue.toInt ≤ (k : Int) ∧ (k : Int) ≤ Int32.maxValue.toInt := by
    rw [Int32.toInt_minValue, Int32.toInt_maxValue]
    omega
  rw [word, if_pos hrange, Int32.ofInt_eq_ofNat]

theorem sits_eq_ok (hn : holes.toInt = n) (hk : seat n p q < 2 ^ 31) :
    sits holes p q = .ok (Signings.literal (seat n p q)) := by
  simp only [seat] at hk
  have hrow : word (p * holes.toInt) = .ok (Int32.ofNat (p * n)) := by
    rw [hn, ← Int.natCast_mul]
    exact word_eq_ok (by omega)
  have hplace : word ((Int32.ofNat (p * n)).toInt + q) = .ok (Int32.ofNat (p * n + q)) := by
    rw [Int32.toInt_ofNat_of_lt (by omega), ← Int.natCast_add]
    exact word_eq_ok (by omega)
  have hseat : word ((Int32.ofNat (p * n + q)).toInt + 1) = .ok (Int32.ofNat (seat n p q)) := by
    rw [Int32.toInt_ofNat_of_lt (by omega)]
    exact word_eq_ok hk
  simp only [sits, hrow, hplace, hseat, bind, Except.bind, pure, Except.pure, Signings.literal]

theorem mapM_eq_ok {ε α β : Type} {g : α → Except ε β} {k : α → β} {as : List α}
    (h : ∀ a ∈ as, g a = .ok (k a)) : as.mapM g = .ok (as.map k) := by
  induction as with
  | nil => rfl
  | cons a as ih =>
    have ha := h a List.mem_cons_self
    have hrest := ih fun b hb => h b (List.mem_cons_of_mem a hb)
    simp only [List.mapM_cons, ha, hrest, bind, Except.bind, pure, Except.pure, List.map_cons]

theorem formulaBy_eq_ok (hm : pigeons.toInt.toNat = m) (hn : holes.toInt.toNat = n)
    (hps : ListsPairs m (combinations (List.range m))) (hsize : m * n < 2 ^ 31) :
    formulaBy combinations pigeons holes = .ok (closed (combinations (List.range m)) m n) := by
  have hsits : ∀ p < m, ∀ q < n, sits holes p q = .ok (Signings.literal (seat n p q)) := by
    intro p hp q hq
    have hle := seat_le hp hq
    exact sits_eq_ok (by omega) (by omega)
  have hrows : (List.range m).mapM (somewhere holes) = .ok ((List.range m).map fun p =>
      (List.range n).map fun q => Signings.literal (seat n p q)) := by
    apply mapM_eq_ok
    intro p hp
    rw [somewhere, hn]
    apply mapM_eq_ok
    intro q hq
    exact hsits p (List.mem_range.mp hp) q (List.mem_range.mp hq)
  have hcolumns : ((List.range n).mapM fun q =>
      (combinations (List.range m)).mapM (apart holes q)) =
      .ok ((List.range n).map fun q => (combinations (List.range m)).map fun pair =>
        [-Signings.literal (seat n pair.1 q), -Signings.literal (seat n pair.2 q)]) := by
    apply mapM_eq_ok
    intro q hq
    apply mapM_eq_ok
    intro pair hpair
    obtain ⟨hlt, hlast⟩ := (hps.mem_iff _ _).mp hpair
    have hfirst := hsits pair.1 (by omega) q (List.mem_range.mp hq)
    have hsecond := hsits pair.2 hlast q (List.mem_range.mp hq)
    simp only [apart, hfirst, hsecond, bind, Except.bind, pure, Except.pure]
  simp only [formulaBy, hm, hn, hrows, hcolumns, bind, Except.bind, pure, Except.pure, closed]

end Words

section Models

theorem mem_closed (hps : ListsPairs m ps) : c ∈ closed ps m n ↔
    (∃ p < m, c = (List.range n).map fun q => Signings.literal (seat n p q)) ∨
    ∃ q < n, ∃ p p', p < p' ∧ p' < m ∧
      c = [-Signings.literal (seat n p q), -Signings.literal (seat n p' q)] := by
  simp only [closed, List.mem_append, List.mem_map, List.mem_flatten, List.mem_range]
  constructor
  · rintro (⟨p, hp, rfl⟩ | ⟨-, ⟨q, hq, rfl⟩, hc⟩)
    · exact .inl ⟨p, hp, rfl⟩
    · obtain ⟨pair, hpair, rfl⟩ := List.mem_map.mp hc
      obtain ⟨hlt, hlast⟩ := (hps.mem_iff _ _).mp hpair
      exact .inr ⟨q, hq, pair.1, pair.2, hlt, hlast, rfl⟩
  · rintro (⟨p, hp, rfl⟩ | ⟨q, hq, p, p', hlt, hlast, rfl⟩)
    · exact .inl ⟨p, hp, rfl⟩
    · have hpair := (hps.mem_iff p p').mpr ⟨hlt, hlast⟩
      exact .inr ⟨_, ⟨q, hq, rfl⟩, List.mem_map.mpr ⟨(p, p'), hpair, rfl⟩⟩

/-- The literals of the formula are the seats and their opposites. -/
theorem exists_seat_of_mem (hps : ListsPairs m ps) (hc : c ∈ closed ps m n) (hl : l ∈ c) :
    ∃ p < m, ∃ q < n, l = Signings.literal (seat n p q) ∨ l = -Signings.literal (seat n p q) := by
  obtain ⟨p, hp, rfl⟩ | ⟨q, hq, p, p', hlt, hlast, rfl⟩ := (mem_closed hps).mp hc
  · obtain ⟨q, hq, rfl⟩ := List.mem_map.mp hl
    exact ⟨p, hp, q, List.mem_range.mp hq, .inl rfl⟩
  · rcases List.mem_pair.mp hl with rfl | rfl
    · exact ⟨p, by omega, q, hq, .inr rfl⟩
    · exact ⟨p', hlast, q, hq, .inr rfl⟩

/-- A model seats every pigeon, and no two of them in the same hole. -/
theorem holds_closed_iff (hps : ListsPairs m ps) (hsize : m * n < 2 ^ 31) :
    (closed ps m n).Holds σ ↔
    (∀ p < m, ∃ q < n, σ ⟨seat n p q⟩ = true) ∧
    ∀ q < n, ∀ p p', p < p' → p' < m → σ ⟨seat n p q⟩ = false ∨ σ ⟨seat n p' q⟩ = false := by
  have hseat : ∀ p < m, ∀ q < n,
      (Signings.literal (seat n p q)).Holds σ ↔ σ ⟨seat n p q⟩ = true := by
    intro p hp q hq
    have hle := seat_le hp hq
    exact Signings.holds_literal (by omega) (seat_pos n p q)
  have hneg : ∀ p < m, ∀ q < n,
      (-Signings.literal (seat n p q)).Holds σ ↔ σ ⟨seat n p q⟩ = false := by
    intro p hp q hq
    have hle := seat_le hp hq
    have hproper := Signings.proper_literal (by omega) (seat_pos n p q)
    rw [hproper.holds_neg, hseat p hp q hq, Bool.not_eq_true]
  constructor
  · intro h
    constructor
    · intro p hp
      obtain ⟨l, hl, hσ⟩ := h _ ((mem_closed hps).mpr (.inl ⟨p, hp, rfl⟩))
      obtain ⟨q, hq, rfl⟩ := List.mem_map.mp hl
      have hq := List.mem_range.mp hq
      exact ⟨q, hq, (hseat p hp q hq).mp hσ⟩
    · intro q hq p p' hlt hlast
      obtain ⟨l, hl, hσ⟩ := h _ ((mem_closed hps).mpr (.inr ⟨q, hq, p, p', hlt, hlast, rfl⟩))
      rcases List.mem_pair.mp hl with rfl | rfl
      · exact .inl ((hneg p (by omega) q hq).mp hσ)
      · exact .inr ((hneg p' hlast q hq).mp hσ)
  · intro ⟨hsome, hone⟩ c hc
    obtain ⟨p, hp, rfl⟩ | ⟨q, hq, p, p', hlt, hlast, rfl⟩ := (mem_closed hps).mp hc
    · obtain ⟨q, hq, hσ⟩ := hsome p hp
      exact ⟨_, List.mem_map_of_mem (List.mem_range.mpr hq), (hseat p hp q hq).mpr hσ⟩
    · rcases hone q hq p p' hlt hlast with hσ | hσ
      · exact ⟨_, List.mem_cons_self, (hneg p (by omega) q hq).mpr hσ⟩
      · exact ⟨_, List.mem_cons_of_mem _ List.mem_cons_self, (hneg p' hlast q hq).mpr hσ⟩

/-- The pigeonhole principle: the holes of a model are different for different pigeons. -/
theorem le_of_holds (hps : ListsPairs m ps) (hsize : m * n < 2 ^ 31)
    (h : (closed ps m n).Holds σ) : m ≤ n := by
  obtain ⟨hsome, hone⟩ := (holds_closed_iff hps hsize).mp h
  choose hole hlt hσ using hsome
  have happart : ∀ p p', p < p' → (hp : p < m) → (hp' : p' < m) → hole p hp ≠ hole p' hp' := by
    intro p p' hpp hp hp' he
    have hfirst := hσ p hp
    have hsecond := hσ p' hp'
    rw [← he] at hsecond
    rcases hone _ (hlt p hp) p p' hpp hp' with hf | hf
    · simp [hf] at hfirst
    · simp [hf] at hsecond
  have hinj : Function.Injective fun p : Fin m => (⟨hole p p.isLt, hlt p p.isLt⟩ : Fin n) := by
    intro p p' he
    have hsame : hole p p.isLt = hole p' p'.isLt := congrArg Fin.val he
    rcases Nat.lt_trichotomy p.val p'.val with hpp | hpp | hpp
    · exact (happart p p' hpp p.isLt p'.isLt hsame).elim
    · exact Fin.ext hpp
    · exact (happart p' p hpp p'.isLt p.isLt hsame.symm).elim
  simpa using Fintype.card_le_of_injective _ hinj

/-- Each pigeon sits in the hole of its own number. -/
def diagonal (n : Nat) : Assignment := fun v => (v.index - 1) / n == (v.index - 1) % n

theorem diagonal_seat (p : Nat) (hq : q < n) : diagonal n ⟨seat n p q⟩ = (p == q) := by
  rw [diagonal, seat_div p hq, seat_mod p hq]

theorem holds_diagonal (hps : ListsPairs m ps) (hsize : m * n < 2 ^ 31) (hle : m ≤ n) :
    (closed ps m n).Holds (diagonal n) := by
  apply (holds_closed_iff hps hsize).mpr
  constructor
  · intro p hp
    refine ⟨p, by omega, ?_⟩
    rw [diagonal_seat p (by omega), beq_self_eq_true]
  · intro q hq p p' hlt _
    rw [diagonal_seat p hq, diagonal_seat p' hq, beq_eq_false_iff_ne, beq_eq_false_iff_ne]
    omega

end Models

/-- Where the seats are words the formula exists, its variables are the seats, and it has a model
just if there are holes enough. Negative numbers of pigeons or holes count as none, and the order
of the pairs does not matter. -/
theorem formulaBy_satisfiable_iff (combinations : List Nat → List (Nat × Nat))
    (pigeons holes : Int32)
    (hps : ListsPairs pigeons.toInt.toNat (combinations (List.range pigeons.toInt.toNat)))
    (hsize : 0 < pigeons.toInt → 0 < holes.toInt → pigeons.toInt * holes.toInt ≤ 2147483647) :
    ∃ f, formulaBy combinations pigeons holes = .ok f ∧
      (∀ c ∈ f, ∀ l ∈ c, l.isZero = false ∧
        (l.var.index : Int) ≤ pigeons.toInt * holes.toInt) ∧
      (f.Satisfiable ↔ max pigeons.toInt 0 ≤ max holes.toInt 0) := by
  generalize hm : pigeons.toInt.toNat = m at hps
  generalize hn : holes.toInt.toNat = n
  have hprod : 0 < m → 0 < n → ((m * n : Nat) : Int) = pigeons.toInt * holes.toInt := by
    intro hmpos hnpos
    rw [Int.natCast_mul, ← hm, ← hn, Int.toNat_of_nonneg (by omega),
      Int.toNat_of_nonneg (by omega)]
  have hlt : m * n < 2 ^ 31 := by
    rcases Nat.eq_zero_or_pos m with rfl | hmpos
    · simp
    rcases Nat.eq_zero_or_pos n with rfl | hnpos
    · simp
    have hle := hsize (by omega) (by omega)
    rw [← hprod hmpos hnpos] at hle
    omega
  refine ⟨closed _ m n, formulaBy_eq_ok hm hn hps hlt, ?_, ?_⟩
  · intro c hc l hl
    obtain ⟨p, hp, q, hq, hor⟩ := exists_seat_of_mem hps hc hl
    have hle := seat_le hp hq
    have hproper := Signings.proper_literal (v := seat n p q) (by omega) (seat_pos n p q)
    have hvar := Signings.var_literal (v := seat n p q) (by omega)
    rw [← hprod (by omega) (by omega)]
    rcases hor with rfl | rfl
    · rw [hvar]
      exact ⟨by simpa [Literal.isZero] using hproper.1, by exact_mod_cast hle⟩
    · rw [Literal.var_neg, hvar]
      exact ⟨by simpa [Literal.isZero] using hproper.neg.1, by exact_mod_cast hle⟩
  · have hcount : max pigeons.toInt 0 ≤ max holes.toInt 0 ↔ m ≤ n := by omega
    rw [hcount]
    constructor
    · intro ⟨σ, hσ⟩
      exact le_of_holds hps hlt hσ
    · intro hle
      exact ⟨diagonal n, holds_diagonal hps hlt hle⟩

/-- Three pigeons do not fit into two holes. -/
theorem formulaBy_three_two :
    ListsPairs (3 : Int32).toInt.toNat (pairs (List.range (3 : Int32).toInt.toNat)) ∧
    (0 < (3 : Int32).toInt → 0 < (2 : Int32).toInt →
      (3 : Int32).toInt * (2 : Int32).toInt ≤ 2147483647) ∧
    ∃ f, formulaBy pairs 3 2 = .ok f ∧
      (∀ c ∈ f, ∀ l ∈ c, l.isZero = false ∧
        (l.var.index : Int) ≤ (3 : Int32).toInt * (2 : Int32).toInt) ∧
      (f.Satisfiable ↔ max (3 : Int32).toInt 0 ≤ max (2 : Int32).toInt 0) :=
  ⟨listsPairs_pairs _, by decide,
    formulaBy_satisfiable_iff pairs 3 2 (listsPairs_pairs _) (by decide)⟩

end UnsatCore.Pigeonhole
