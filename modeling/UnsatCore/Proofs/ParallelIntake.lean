import UnsatCore.Proofs.Framing
import UnsatCore.Proofs.Intake
import UnsatCore.Proofs.ParallelPasses
import UnsatCore.Proofs.Solo

/-! Reading clauses and lines that two runs have in common, under the names that they have in each.
The handles are known before: a clause is put where the handles of the first run say. -/
namespace UnsatCore

open Engine

namespace Derivation.Line

/-- A line about another clause. -/
def image (lit : Literal → Literal) : Line → Line
  | .add c => .add (c.map lit)
  | .delete c => .delete (c.map lit)

@[simp] theorem clause_image (lit : Literal → Literal) (line : Line) :
    (line.image lit).clause = line.clause.map lit := by
  cases line <;> rfl

end Derivation.Line

namespace Clause

variable {g : Image} {c : Clause}

theorem distinctFrom_image (seen : Clause) (hs : ∀ l ∈ seen, g.legal l)
    (hc : ∀ l ∈ c, g.legal l) :
    distinctFrom (seen.map g.lit) (c.map g.lit) = (distinctFrom seen c).map g.lit := by
  induction c generalizing seen with
  | nil => rfl
  | cons l c ih =>
    have hl := hc l List.mem_cons_self
    have hrest : ∀ m ∈ c, g.legal m := fun m hm => hc m (List.mem_cons_of_mem l hm)
    have hcontains : (seen.map g.lit).contains (g.lit l) = seen.contains l := by
      rw [Bool.eq_iff_iff, List.contains_iff_mem, List.contains_iff_mem, List.mem_map]
      constructor
      · rintro ⟨m, hm, he⟩
        rwa [← g.lit_inj (hs m hm) hl he]
      · exact fun hm => ⟨l, hm, rfl⟩
    simp only [List.map_cons, distinctFrom, hcontains]
    split
    · exact ih seen hs hrest
    · rw [List.map_cons]
      refine congrArg (g.lit l :: ·) (ih (l :: seen) (fun m hm => ?_) hrest)
      rcases List.mem_cons.mp hm with rfl | hm
      · exact hl
      · exact hs m hm

theorem distinct_image (hc : ∀ l ∈ c, g.legal l) :
    distinct (c.map g.lit) = (distinct c).map g.lit :=
  distinctFrom_image [] (by simp) hc

theorem hasZero_of_legal (hc : ∀ l ∈ c, g.legal l) :
    c.hasZero = false ∧ hasZero (c.map g.lit) = false := by
  refine ⟨hasZero_eq_false.mpr fun l hl => (g.proper (hc l hl)).1, hasZero_eq_false.mpr ?_⟩
  intro l hl
  obtain ⟨m, hm, rfl⟩ := List.mem_map.mp hl
  exact (g.lit_proper (hc m hm)).1

end Clause

namespace Image.Woven

variable {g : Image} {f f' e e' : Formula} {hs hs' ks ks' : List Handle}

theorem append (h : g.Woven f hs f' hs') (h' : g.Woven e ks e' ks') :
    g.Woven (f ++ e) (hs ++ ks) (f' ++ e') (hs' ++ ks') := by
  induction h with
  | nil => exact h'
  | common _ hh ih => exact .common ih hh
  | alien _ hh ih => exact .alien ih hh

theorem amend (h : g.Woven f hs f' hs') {size : Handle → Option Nat} {alien : Nat → Handle → Prop}
    {read read' : Formula} {clear : Prop}
    (hsize : ∀ c, g.AtLeast 0 c → Image.AtLeast { g with size, alien, read, read', clear } 0 c)
    (ha : ∀ c, g.alien 0 c → alien 0 c) :
    Woven { g with size, alien, read, read', clear } f hs f' hs' := by
  induction h with
  | nil => exact .nil
  | common _ hh ih => exact .common ih (hsize _ hh)
  | alien _ hh ih => exact .alien ih (ha _ hh)

end Image.Woven

/-- The formula of the second run has the clauses of the first one and others in between. Each
clause is put where its handle says: `n` and `n'` words of the two buffers are taken. -/
inductive Image.Merged (g : Image) : Formula → Formula → Nat → Nat → Prop
  | nil {n n' : Nat} (hplace : ∀ k, g.handle ⟨n + k⟩ = ⟨n' + k⟩) : Merged g [] [] n n'
  | common {f f' : Formula} {c : Clause} {n n' : Nat} (hc : ∀ l ∈ c, g.legal l)
      (hplace : g.handle ⟨n⟩ = ⟨n'⟩)
      (h : Merged g f f' (n + (c.distinct.length + 2)) (n' + (c.distinct.length + 2))) :
      Merged g (c :: f) (c.map g.lit :: f') n n'
  | alien {f f' : Formula} {c : Clause} {n n' : Nat} (hx : g.exact = false) (hclear : ¬ g.clear)
      (hf : ∀ l ∈ c, g.Foreign l) (hs : ∃ l ∈ c, ¬ g.down l)
      (h : Merged g f f' n (n' + (c.distinct.length + 2))) : Merged g f (c :: f') n n'

namespace Engine

open CheckM

variable {g : Image} {s s' t t' : State} {c x : Clause} {h : Handle} {i n : Nat} {l : Literal}
  {f f' : Formula} {settings : Settings} {line : Derivation.Line} {d : Derivation} {k : Handle}
  {R : Rejection → State → Prop}

theorem exists_normalize (part : Part) (i : Nat) (hz : c.hasZero = false) (s : State) :
    ∃ log, normalize part i c s = .ok (c.distinct, { s with log }) := by
  have hends : Ends False (fun _ _ => False) (normalize part i c) s fun x t =>
      x = c.distinct ∧ ∃ log, t = { s with log } :=
    ends_normalize (by simp [hz]) fun _ log => ⟨rfl, log, rfl⟩
  obtain ⟨x, t, hrun, rfl, log, rfl⟩ := hends.exists_ok
  exact ⟨log, hrun⟩

theorem keeps_normalize {part : Part} : Keeps State.arena (normalize part i c) :=
  .normalize part i c

theorem parallel_normalize (part : Part) (i j : Nat) (hc : ∀ l ∈ c, g.legal l) :
    Parallel g (normalize part i c) (normalize part j (c.map g.lit))
      fun x x' => x = c.distinct ∧ x' = c.distinct.map g.lit := by
  intro s s' h
  obtain ⟨hz, hz'⟩ := Clause.hasZero_of_legal hc
  obtain ⟨log, hrun⟩ := exists_normalize part i hz s
  obtain ⟨log', hrun'⟩ := exists_normalize part j hz' s'
  unfold Corresponds
  rw [hrun, hrun']
  exact ⟨⟨rfl, Clause.distinct_image hc⟩, { h with }⟩

/-- A clause is stored in both runs, where its handle says. -/
theorem Mirrored.store (h : Mirrored g s s') (hx : ∀ l ∈ x, g.legal l)
    (hh : g.handle ⟨s.arena.words.size⟩ = ⟨s'.arena.words.size⟩) :
    Corresponds g.comparison (CheckM.store x) (CheckM.store (x.map g.lit)) s s'
      fun c t c' t' => c' = g.handle c ∧
        t.arena.words.size = s.arena.words.size + (x.length + 2) ∧
        t'.arena.words.size = s'.arena.words.size + (x.length + 2) ∧
        Mirrored (g.stored c x.length) t t' := by
  rw [corresponds_store]
  refine (h.arena.add hx hh).mono ?_
  rintro ⟨c, a⟩ ⟨c', a'⟩ ⟨-, hc', hfresh, hsize, hsize', harena⟩
  have hmono : ∀ {n d}, g.AtLeast n d → (g.stored c x.length).AtLeast n d := fun hd =>
    h.arena.atLeast_stored hfresh hd
  refine ⟨hc', hsize, hsize', ⟨h.trail.amend (fun _ => hmono) h.trail.clear,
    h.watches.amend (fun _ => hmono) fun _ => id, harena,
    h.origins.amend (fun _ => hmono) fun _ => id, h.steps, fun step hs => ?_, h.counters⟩⟩
  have hknown := h.known step hs
  cases step with
  | add d => exact hmono hknown
  | delete d => exact hknown
  | satisfied d => exact hmono hknown
  | ignored => trivial

theorem Mirrored.recordOrigin_common (h : Mirrored g s s') {given given' : Clause} {k k' : Handle}
    (hw : g.Woven [given] [k] [given'] [k']) :
    Corresponds g.comparison (recordOrigin k) (recordOrigin k') s s' fun _ t _ t' =>
      Mirrored { g with read := g.read ++ [given], read' := g.read' ++ [given'] } t t' ∧
        t.arena = s.arena ∧ t'.arena = s'.arena := by
  refine ⟨⟨h.trail.amend (fun _ => id) h.trail.clear, h.watches.amend (fun _ => id) fun _ => id,
    h.arena.amend _ _ g.clear, ?_, h.steps, h.known, h.counters⟩, rfl, rfl⟩
  rw [Array.toList_push, Array.toList_push]
  exact (h.origins.append hw).amend (fun _ => id) fun _ => id

section Formula

theorem parallel_assignUnit (hl : g.legal l) (hh : g.size h = some 1) (i j : Nat) :
    Parallel g (assignUnit i l h) (assignUnit j (g.lit l) (g.handle h))
      fun r r' => r' = r := by
  refine (parallel_isFalseNow hl).bind ?_
  rintro b _ rfl
  refine .ite Iff.rfl (fun _ => ?_) fun _ => ?_
  · exact (Parallel.emit _ _).bind fun _ _ _ => .pure rfl
  · refine (parallel_isTrueNow hl).bind ?_
    rintro b _ rfl
    refine .ite Iff.rfl (fun _ => .pure rfl) fun _ => ?_
    refine (parallel_assign hl (d := some h) ?_).bind fun _ _ _ => .pure rfl
    rintro _ ⟨⟩
    exact ⟨1, hh, Nat.le_refl 1⟩

theorem parallel_settleClause (hx : ∀ l ∈ x, g.legal l) (hh : g.size h = some x.length)
    (i j : Nat) :
    Parallel g (settleClause i h x) (settleClause j (g.handle h) (x.map g.lit))
      fun r r' => r' = r := by
  match x with
  | [] => exact (Parallel.emit _ _).bind fun _ _ _ => .pure rfl
  | [l] => exact parallel_assignUnit (hx l (by simp)) hh i j
  | x :: y :: rest => exact (parallel_attach hh).bind fun _ _ _ => .pure rfl

theorem keeps_settleClause (i : Nat) (h : Handle) (x : Clause) :
    Keeps State.arena (settleClause i h x) := .settleClause i h x

/-- A clause of the formula that both runs have. -/
theorem Mirrored.readClause_common (hm : Mirrored g s s') (hc : ∀ l ∈ c, g.legal l)
    (hh : g.handle ⟨s.arena.words.size⟩ = ⟨s'.arena.words.size⟩) (i j : Nat) :
    Corresponds g.comparison (readClause i c) (readClause j (c.map g.lit)) s s'
      fun r t r' t' => r' = r ∧
        t.arena.words.size = s.arena.words.size + (c.distinct.length + 2) ∧
        t'.arena.words.size = s'.arena.words.size + (c.distinct.length + 2) ∧
        ∃ size, Mirrored { g with
          size, read := g.read ++ [c], read' := g.read' ++ [c.map g.lit] } t t' := by
  refine (parallel_normalize .formula i j hc hm).run.bind ?_
  rintro _ s₁ _ s₁' ⟨hrun, hrun', ⟨rfl, rfl⟩, h₁⟩
  have hx : ∀ l ∈ c.distinct, g.legal l := fun l hl => hc l (Clause.mem_distinct.mp hl)
  have ha₁ := keeps_normalize hrun
  have ha₁' := keeps_normalize hrun'
  refine (h₁.store hx (by rw [ha₁, ha₁', hh])).bind ?_
  rintro k s₂ _ s₂' ⟨rfl, hsize, hsize', h₂⟩
  let g₁ : Image := { g.stored k c.distinct.length with
    read := g.read ++ [c], read' := g.read' ++ [c.map g.lit] }
  have hnew : g₁.size k = some c.distinct.length := g.stored_size k c.distinct.length
  have hwoven : (g.stored k c.distinct.length).Woven [c] [k] [c.map g.lit] [g.handle k] :=
    .common .nil ⟨_, hnew, Nat.zero_le _⟩
  refine (h₂.recordOrigin_common hwoven).bind ?_
  rintro _ s₃ _ s₃' ⟨h₃, ha₃, ha₃'⟩
  refine (parallel_settleClause (g := g₁) hx hnew i j h₃).run.mono ?_
  rintro r t r' t' ⟨hrun₃, hrun₃', rfl, h₄⟩
  refine ⟨rfl, ?_, ?_, (g.stored k c.distinct.length).size, h₄⟩
  · rw [keeps_settleClause i k _ hrun₃, ha₃, hsize, ha₁]
  · rw [keeps_settleClause j _ _ hrun₃', ha₃', hsize', ha₁']

/-- Only the second run settles a clause, which does not clash with what is known. -/
theorem Mirrored.settle_foreign (h : Mirrored g s s') (hclear : ¬ g.clear)
    (hc : 2 ≤ x.length → g.alien 2 k) (hf : ∀ l ∈ x, g.Foreign l) (hs : ∃ l ∈ x, ¬ g.down l)
    (j : Nat) : Ends True R (settleClause j k x) s' fun r t' => r = .ready ∧ Mirrored g s t' := by
  match x with
  | [] => simp at hs
  | [l] =>
    have hl := hf l List.mem_cons_self
    have hstands : ¬ g.down l := by simpa using hs
    have hfree : l ∉ s'.trail.falsified := fun hm => hstands (h.trail.down l hm hl.own)
    have hdown := (g.down_or hl.own hl.proper).resolve_left hstands
    simp only [settleClause, assignUnit, isFalseNow, isTrueNow, ends_bind, ends_ask,
      h.trail.wf'.isFalse hl.small, h.trail.wf'.isTrue hl.small hl.proper.2, yields_ok, hfree,
      decide_false, Bool.false_eq_true, if_false, ends_ite, ends_pure, ends_onTrail]
    split
    · exact ⟨trivial, h⟩
    · refine (h.trail.assign_foreign hl hdown hclear).mono fun u hu => ?_
      exact ⟨trivial, { h with trail := hu }⟩
  | x :: y :: rest =>
    simp only [settleClause, ends_bind, ends_pure]
    exact (h.attach_foreign (hc (by simp))).mono fun _ t' ht => ⟨trivial, ht⟩

/-- A clause of the formula that only the second run has. -/
theorem Mirrored.readClause_foreign (h : Mirrored g s s') (hx : g.exact = false)
    (hclear : ¬ g.clear) (hf : ∀ l ∈ c, g.Foreign l) (hs : ∃ l ∈ c, ¬ g.down l) (j : Nat) :
    Ends True R (readClause j c) s' fun r t' => r = .ready ∧
      t'.arena.words.size = s'.arena.words.size + (c.distinct.length + 2) ∧
      ∃ alien, Mirrored { g with alien, read' := g.read' ++ [c] } s t' := by
  have hz : c.hasZero = false := Clause.hasZero_eq_false.mpr fun l hl => (hf l hl).proper.1
  obtain ⟨log, hrun⟩ := exists_normalize .formula j hz s'
  rw [readClause, ends_bind, Ends, hrun]
  simp only [ends_bind, ends_store]
  rcases h.arena.wf'.add_cases (hasZero_distinct hz) with ⟨-, hadd⟩ | ⟨-, a, hadd, hg, hsize, -⟩
  · rw [hadd]
    trivial
  rw [hadd, yields_ok]
  show Ends True R (settleClause j ⟨s'.arena.words.size⟩ c.distinct) _ _
  have hf' : ∀ l ∈ c.distinct, g.Foreign l := fun l hl => hf l (Clause.mem_distinct.mp hl)
  have hs' : ∃ l ∈ c.distinct, ¬ g.down l := by
    obtain ⟨l, hl, hd⟩ := hs
    exact ⟨l, Clause.mem_distinct.mpr hl, hd⟩
  let g₁ : Image := { g.admitted ⟨s'.arena.words.size⟩ c.distinct.length with
    read' := g.read' ++ [c] }
  have hnew : ∀ {n}, n ≤ c.distinct.length → g₁.alien n ⟨s'.arena.words.size⟩ := fun hn =>
    Or.inr ⟨rfl, hn⟩
  have h₁ : Mirrored g₁ s { s' with
      arena := a, index := s'.index.insert c.distinct ⟨s'.arena.words.size⟩, log,
      origins := s'.origins.push ⟨s'.arena.words.size⟩ } := by
    refine ⟨h.trail.amend (fun _ => id) h.trail.clear,
      h.watches.amend (fun _ => id) fun _ => Or.inl,
      (h.arena.grown_foreign hg hf' hs' hx).amend _ _ g.clear, ?_, h.steps, h.known, h.counters⟩
    have hold : g₁.Woven g.read s.origins.toList g.read' s'.origins.toList :=
      h.origins.amend (fun _ => id) fun _ => Or.inl
    have hlast := hold.append (.alien (c := c) .nil (hnew (Nat.zero_le _)))
    rwa [List.append_nil, List.append_nil, ← Array.toList_push] at hlast
  refine (h₁.settle_foreign hclear (fun hn => hnew hn) (fun l hl => { hf' l hl with }) hs'
    j).run.mono ?_
  rintro r t' ⟨hrun', rfl, ht⟩
  refine ⟨rfl, ?_, _, ht⟩
  rw [keeps_settleClause j _ _ hrun', hsize]

/-- Both runs read their formulas. -/
theorem Mirrored.readFormula {size : Handle → Option Nat} {alien : Nat → Handle → Prop}
    {read read' : Formula} (hm : Mirrored { g with size, alien, read, read' } s s')
    (hw : g.Merged f f' s.arena.words.size s'.arena.words.size) (i j : Nat) :
    Corresponds g.comparison (readFormula i f) (readFormula j f') s s' fun r t r' t' =>
      r' = r ∧ ∃ size alien e e', Mirrored { g with size, alien, read := e, read' := e' } t t' ∧
        (r = .ready → e = read ++ f ∧ e' = read' ++ f' ∧
          ∀ k, g.handle ⟨t.arena.words.size + k⟩ = ⟨t'.arena.words.size + k⟩) := by
  generalize hn : s.arena.words.size = n at hw
  generalize hn' : s'.arena.words.size = n' at hw
  induction hw generalizing s s' size alien read read' i j with
  | nil hplace =>
    refine corresponds_left_ok rfl (corresponds_right_ok rfl ?_)
    exact ⟨rfl, size, alien, read, read', { hm with }, fun _ => by simpa [← hn, ← hn'] using hplace⟩
  | @common f f' c n n' hc hplace _ ih =>
    refine (hm.readClause_common hc (by rw [hn, hn']; exact hplace) i j).bind ?_
    rintro _ s₁ r s₁' ⟨rfl, hsize, hsize', size, h₁⟩
    cases r with
    | trivial => exact ⟨rfl, size, alien, _, _, h₁, by simp⟩
    | ready =>
      refine (ih h₁ (i + 1) (j + 1) (by rw [hsize, hn]) (by rw [hsize', hn'])).mono ?_
      rintro r t _ t' ⟨rfl, size, alien, e, e', h₂, hread⟩
      refine ⟨rfl, size, alien, e, e', h₂, fun hr => ?_⟩
      simpa using hread hr
  | @alien f f' c n n' hx hclear hf hs _ ih =>
    have hf' : ∀ l ∈ c, Image.Foreign { g with size, alien, read, read' } l := fun l hl =>
      { hf l hl with }
    refine corresponds_right hx (hm.readClause_foreign hx hclear hf' hs j) ?_
    rintro _ s₁' ⟨rfl, hsize', alien, h₁⟩
    refine (ih h₁ i (j + 1) hn (by rw [hsize', hn'])).mono ?_
    rintro r t _ t' ⟨rfl, size, alien, e, e', h₂, hread⟩
    refine ⟨rfl, size, alien, e, e', h₂, fun hr => ?_⟩
    simpa using hread hr

end Formula

section Derivation

/-- The next clauses of the two runs are put where their handles say. -/
def Placed (g : Image) (s s' : State) : Prop :=
  ∀ k, g.handle ⟨s.arena.words.size + k⟩ = ⟨s'.arena.words.size + k⟩

theorem Placed.congr (h : Placed g s s') (ha : t.arena.words.size = s.arena.words.size + n)
    (ha' : t'.arena.words.size = s'.arena.words.size + n) : Placed g t t' := by
  intro k
  rw [ha, ha', Nat.add_assoc, Nat.add_assoc]
  exact h (n + k)

/-- The lines are about literals of the first run, and no deletion is carried out. -/
def Plain (g : Image) (settings : Settings) (d : Derivation) : Prop :=
  ∀ line ∈ d, (∀ l ∈ line.clause, g.legal l) ∧
    (line.isDeletion = true → settings.ignoreDeletions = true)

theorem plain_of (hl : ∀ line ∈ d, ∀ l ∈ line.clause, g.legal l)
    (hd : settings.ignoreDeletions = true ∨ ∀ line ∈ d, line.isDeletion = false) :
    Plain g settings d := by
  intro line hline
  refine ⟨hl line hline, fun hdel => hd.resolve_right fun hno => ?_⟩
  rw [hno line hline] at hdel
  cases hdel

theorem Mirrored.recordStep_common (h : Mirrored g s s') (step : Step) (hs : g.Knows step) :
    Corresponds g.comparison (recordStep step) (recordStep (g.step step)) s s' fun _ t _ t' =>
      Mirrored g t t' ∧ t.arena = s.arena ∧ t'.arena = s'.arena := by
  refine ⟨{ h with steps := ?_, known := ?_ }, rfl, rfl⟩
  · show s'.steps.push (g.step step) = (s.steps.push step).map g.step
    rw [h.steps, Array.map_push]
  · intro x hx
    rw [Array.toList_push, List.mem_append, List.mem_singleton] at hx
    rcases hx with hx | rfl
    · exact h.known x hx
    · exact hs

theorem Mirrored.readLemma_common (h : Mirrored g s s') (hx : ∀ l ∈ x, g.legal l)
    (hp : Placed g s s') :
    Corresponds g.comparison (readLemma x) (readLemma (x.map g.lit)) s s' fun _ t _ t' =>
      Placed g t t' ∧ ∃ size, Mirrored { g with size } t t' := by
  refine ((Parallel.count fun b _ => by cases b <;> rfl) h).run.bind ?_
  rintro _ s₁ _ s₁' ⟨⟨⟩, ⟨⟩, -, h₁⟩
  refine (h₁.store hx (hp 0)).bind ?_
  rintro k s₂ _ s₂' ⟨rfl, hsize, hsize', h₂⟩
  have hknown : (g.stored k x.length).Knows (.add k) :=
    ⟨_, g.stored_size k x.length, Nat.zero_le _⟩
  refine (h₂.recordStep_common (.add k) hknown).mono ?_
  rintro _ t _ t' ⟨h₃, ha, ha'⟩
  exact ⟨hp.congr (by rw [ha, hsize]) (by rw [ha', hsize']), _, h₃⟩

/-- A deletion that is not carried out is counted only. -/
theorem Mirrored.readDeletion_ignored (h : Mirrored g s s') {given given' c' : Clause}
    (hi : settings.ignoreDeletions = true) (hp : Placed g s s') :
    Corresponds g.comparison (readDeletion settings i given c)
      (readDeletion settings i given' c') s s' fun _ t _ t' =>
      Placed g t t' ∧ ∃ size, Mirrored { g with size } t t' := by
  have hrun : ∀ given c, readDeletion settings i given c =
      (count Counters.countDeletion >>= fun _ => count Counters.countIgnored >>= fun _ =>
        recordStep .ignored) := by
    intro given c
    simp only [readDeletion, resolve, hi, if_true]
    rfl
  rw [hrun, hrun]
  refine ((Parallel.count fun b _ => by cases b <;> rfl) h).run.bind ?_
  rintro _ s₁ _ s₁' ⟨⟨⟩, ⟨⟩, -, h₁⟩
  refine ((Parallel.count fun b _ => by cases b <;> rfl) h₁).run.bind ?_
  rintro _ s₂ _ s₂' ⟨⟨⟩, ⟨⟩, -, h₂⟩
  refine (h₂.recordStep_common .ignored trivial).mono ?_
  rintro _ t _ t' ⟨h₃, ha, ha'⟩
  have hp₃ : Placed g t t' :=
    hp.congr (n := 0) (congrArg (·.words.size) ha) (congrArg (·.words.size) ha')
  exact ⟨hp₃, g.size, h₃⟩

theorem Mirrored.readLine_common (h : Mirrored g s s') (hd : Plain g settings [line])
    (hp : Placed g s s') :
    Corresponds g.comparison (readLine settings i line)
      (readLine settings i (line.image g.lit)) s s' fun b t b' t' =>
      b' = b ∧ Placed g t t' ∧ ∃ size, Mirrored { g with size } t t' := by
  obtain ⟨hlegal, hdel⟩ := hd line (List.mem_singleton_self _)
  have hnorm := (parallel_normalize .derivation i i hlegal h).run
  rw [← Derivation.Line.clause_image] at hnorm
  refine hnorm.bind ?_
  rintro _ s₁ _ s₁' ⟨hrun, hrun', ⟨rfl, rfl⟩, h₁⟩
  have hp₁ : Placed g s₁ s₁' :=
    hp.congr (n := 0) (congrArg (·.words.size) (keeps_normalize hrun))
      (congrArg (·.words.size) (keeps_normalize hrun'))
  cases line with
  | delete c =>
    refine (h₁.readDeletion_ignored (hdel rfl) hp₁).bind ?_
    exact fun _ _ _ _ ht => ⟨rfl, ht⟩
  | add c =>
    have hx : ∀ l ∈ c.distinct, g.legal l := fun l hl => hlegal l (Clause.mem_distinct.mp hl)
    refine (h₁.readLemma_common hx hp₁).bind ?_
    rintro _ s₂ _ s₂' ⟨hp₂, size, h₂⟩
    have hempty : (c.distinct.map g.lit).isEmpty = c.distinct.isEmpty := List.isEmpty_map
    simp only [Derivation.Line.clause, hempty]
    by_cases hc : c.distinct.isEmpty = true
    · simp only [hc, if_true]
      exact ⟨rfl, hp₂, size, { h₂ with }⟩
    · simp only [hc, Bool.false_eq_true, if_false]
      exact ⟨rfl, hp₂, size, h₂⟩

theorem Mirrored.readLines {size : Handle → Option Nat} (h : Mirrored { g with size } s s')
    (hd : Plain g settings d) (hp : Placed g s s') (i : Nat) :
    Corresponds g.comparison (readLines settings i d)
      (readLines settings i (d.map (Derivation.Line.image g.lit))) s s' fun _ t _ t' =>
      ∃ size, Mirrored { g with size } t t' := by
  induction d generalizing i s s' size with
  | nil => exact ⟨size, h⟩
  | cons line d ih =>
    have hline : Plain { g with size } settings [line] := fun x hx =>
      hd x (List.mem_cons.mpr (Or.inl (List.mem_singleton.mp hx)))
    refine (h.readLine_common hline hp).bind ?_
    rintro _ s₁ b s₁' ⟨rfl, hp₁, size, h₁⟩
    cases b with
    | true => exact ⟨size, h₁⟩
    | false => exact ih h₁ (fun x hx => hd x (List.mem_cons_of_mem line hx)) hp₁ (i + 1)

/-- Both runs read the same derivation. -/
theorem Mirrored.readDerivation (h : Mirrored g s s') (hd : Plain g settings d)
    (hp : Placed g s s') :
    Corresponds g.comparison (readDerivation settings d)
      (readDerivation settings (d.map (Derivation.Line.image g.lit))) s s' fun _ t _ t' =>
      ∃ size, Mirrored { g with size } t t' := by
  have hstart : Mirrored { g with size := g.size } s s' := { h with }
  refine (hstart.readLines hd hp 0).bind ?_
  rintro _ s₁ _ s₁' ⟨size, h₁⟩
  exact ⟨size, { h₁ with }⟩

end Derivation

end Engine

end UnsatCore
