import UnsatCore.Proofs.Parallel

/-! Unit propagation on states of which one is found in the other. Clauses that both runs have are
visited alike, and where all that is not fixed is in both trails, the rounds are the same. -/
namespace UnsatCore.Engine

open CheckM

variable {g : Image} {s s' : State} {c : Handle} {n i j : Nat} {l : Literal} {ls : Clause}

section Climbing

theorem climbs_deriveFirst (l : Literal) (c : Handle) :
    Climbs (deriveFirst l c) (· ≠ .conflict) := by
  refine (Climbs.ask _).next fun unit => (Climbs.ask _).next fun b => ?_
  cases b with
  | true =>
    -- What is taken off the trail then is taken off after a conflict.
    intro s v t hrun hv
    obtain ⟨⟨⟩, s₁, -, hrun⟩ := bind_eq_ok_iff.mp hrun
    obtain ⟨⟨⟩, s₂, -, hrun⟩ := bind_eq_ok_iff.mp hrun
    cases hrun
    exact (hv rfl).elim
  | false =>
    exact (Climbs.emit _).next fun _ => (Climbs.assign unit _).next fun _ =>
      (Climbs.count _).next fun _ => .pure

/-- A visit without a conflict leaves the trail as it is, or puts a literal onto it. -/
theorem climbs_visit (l : Literal) (i : Nat) (c : Handle) :
    Climbs (visit l i c) (· ≠ .conflict) := by
  refine (Climbs.ask _).next fun first => (Climbs.ask _).next fun second => ?_
  refine (Climbs.ask _).next fun b => .ite .pure ?_
  have hback : Climbs (bringBack l c first) fun _ => True :=
    .of_keeps (aloof_stack.bringBack l c first) (aloof_forced.bringBack l c first)
  refine hback.next fun _ => (Climbs.ask _).next fun r => ?_
  match r with
  | none => exact climbs_deriveFirst l c
  | some (j, x) =>
    have hmove : Climbs (moveWatcher l i c j x) fun _ => True :=
      .of_keeps (aloof_stack.moveWatcher l i c j x) (aloof_forced.moveWatcher l i c j x)
    exact hmove.next fun _ => .pure

theorem climbs_sweepFrom (pass : Pass) (l : Literal) (n i : Nat) :
    Climbs (sweepFrom pass l n i) (· ≠ .conflict) := by
  induction n generalizing i with
  | zero => exact .pure
  | succ n ih =>
    refine (Climbs.ask _).next fun w => .ite ?_ (ih (i + 1))
    refine (climbs_visit l i w.clause).bind (fun v s r t hrun hr => ?_) fun v hv => ?_
    · rintro rfl
      cases hrun
      exact hr rfl
    · cases v with
      | kept => exact ih (i + 1)
      | moved => exact ih i
      | derived => exact .ite .pure (ih (i + 1))
      | conflict => exact (hv rfl).elim

theorem climbs_sweep (pass : Pass) (l : Literal) (i : Nat) :
    Climbs (sweep pass l i) (· ≠ .conflict) :=
  (Climbs.ask _).next fun size => climbs_sweepFrom pass l (size - i) i

end Climbing

section Propagation

theorem parallel_bringBack (hc : g.size c = some n) (hn : 2 ≤ n) {first : Literal}
    (hl : g.legal l) (hf : g.legal first) :
    Parallel g (bringBack l c first) (bringBack (g.lit l) (g.handle c) (g.lit first))
      fun _ _ => True := by
  have hcheck : Parallel g
      (literalOf c 1 >>= fun x => if x = l then pure () else fault (.misplacedWatch c l))
      (literalOf (g.handle c) 1 >>= fun x =>
        if x = g.lit l then pure () else fault (.misplacedWatch (g.handle c) (g.lit l)))
      fun _ _ => True := by
    refine (parallel_literalOf hc hn).bind ?_
    rintro x _ ⟨hx, rfl⟩
    exact .ite (g.lit_inj_iff hx hl) (fun _ => .pure trivial) fun _ => .fault rfl
  refine Parallel.ite (g.lit_inj_iff hf hl) (fun _ => ?_) fun _ => hcheck
  exact (Parallel.swap hc (by omega) (by omega)).bind fun _ _ _ => hcheck

theorem firstUnfalsified_image {u u' : Trail} (h : Trail.Mirror g u u')
    (hls : ∀ l ∈ ls, g.legal l) (i : Nat) :
    ∃ r, firstUnfalsified u ls i = .ok r ∧ firstUnfalsified u' (ls.map g.lit) i =
      .ok (r.map fun p => (p.1, g.lit p.2)) := by
  induction ls generalizing i with
  | nil => exact ⟨none, rfl, rfl⟩
  | cons l ls ih =>
    have hl := hls l List.mem_cons_self
    rw [List.map_cons, firstUnfalsified, firstUnfalsified, h.isFalse hl,
      h.wf.isFalse (g.small hl)]
    by_cases hm : l ∈ u.falsified
    · rw [decide_eq_true hm]
      exact ih (fun m hm => hls m (List.mem_cons_of_mem l hm)) (i + 1)
    · rw [decide_eq_false hm]
      exact ⟨some (i, l), rfl, rfl⟩

theorem parallel_replacement (hc : g.size c = some n) (hn : 2 ≤ n) :
    Parallel g (ask (replacement c)) (ask (replacement (g.handle c))) fun r r' =>
      r' = r.map (fun p => (p.1, g.lit p.2)) ∧
        ∀ j x, r = some (j, x) → g.legal x ∧ j < n := by
  refine Parallel.ask fun s s' h => ?_
  have hcom := h.arena.common c n hc
  obtain ⟨hbody, hbody'⟩ := hcom.body hn
  have hls : ∀ l ∈ (s.arena.literals c).drop 2, g.legal l := fun l hl =>
    hcom.legal l (List.mem_of_mem_drop hl)
  obtain ⟨r, hr, hr'⟩ := firstUnfalsified_image h.trail hls 2
  simp only [replacement, hbody, hbody', bind, Except.bind, hr, hr', answers_ok, true_and]
  rintro j x rfl
  obtain ⟨hx, hj⟩ := mem_of_firstUnfalsified hr
  rw [List.length_drop, hcom.length] at hj
  exact ⟨hls x hx, by omega⟩

theorem parallel_moveWatcher {x : Literal} (hl : g.legal l) (hc : g.size c = some n)
    (hn : 2 ≤ n) (hj : j < n) (hx : g.legal x) :
    Parallel g (moveWatcher l i c j x) (moveWatcher (g.lit l) i (g.handle c) j (g.lit x))
      fun _ _ => True := by
  refine (Parallel.swap hc (by omega) hj).bind fun _ _ _ => ?_
  refine (Parallel.ask fun s s' h => h.watches.watcher hl i).bind ?_
  rintro w _ ⟨rfl, hw⟩
  refine (Parallel.onWatches fun s s' h => h.watches.removeAt hl i).bind fun _ _ _ => ?_
  exact Parallel.onWatches fun s s' h => h.watches.insert hx hw

theorem parallel_assign (hl : g.legal l) {d : Option Handle}
    (hd : ∀ c, d = some c → g.AtLeast 1 c) :
    Parallel g (onTrail (·.assign l d)) (onTrail (·.assign (g.lit l) (d.map g.handle)))
      fun _ _ => True :=
  Parallel.onTrail fun _ _ h => h.trail.assign hl hd

theorem parallel_deriveFirst (hc : g.size c = some n) (hn : 2 ≤ n) (l : Literal) :
    Parallel g (deriveFirst l c) (deriveFirst (g.lit l) (g.handle c)) fun v v' => v' = v := by
  refine (parallel_literalOf hc (by omega)).bind ?_
  rintro unit _ ⟨hu, rfl⟩
  refine (parallel_isFalseNow hu).bind ?_
  rintro b _ rfl
  refine .ite Iff.rfl (fun _ => ?_) fun _ => ?_
  · refine (Parallel.emit _ _).bind fun _ _ _ => ?_
    exact (parallel_explain hc).bind fun _ _ _ => .pure rfl
  · refine (Parallel.emit _ _).bind fun _ _ _ => ?_
    refine (parallel_assign hu (d := some c) ?_).bind fun _ _ _ => ?_
    · rintro _ ⟨⟩
      exact ⟨n, hc, by omega⟩
    refine (Parallel.count fun b _ => by cases b <;> rfl).bind fun _ _ _ => .pure rfl

theorem parallel_eitherTrue {x y : Literal} (hx : g.legal x) (hy : g.legal y) :
    Parallel g (ask (eitherTrue x y)) (ask (eitherTrue (g.lit x) (g.lit y)))
      fun b b' => b' = b := by
  refine Parallel.ask fun s s' h => ?_
  simp only [eitherTrue, h.trail.isTrue hx, h.trail.isTrue hy,
    h.trail.wf.isTrue (g.small hx) (g.proper hx).2,
    h.trail.wf.isTrue (g.small hy) (g.proper hy).2, bind, Except.bind]
  split <;> rfl

theorem parallel_visit (hl : g.legal l) (hc : g.size c = some n) (hn : 2 ≤ n) :
    Parallel g (visit l i c) (visit (g.lit l) i (g.handle c)) fun v v' => v' = v := by
  refine (parallel_literalOf hc (by omega)).bind ?_
  rintro first _ ⟨hf, rfl⟩
  refine (parallel_literalOf hc (by omega)).bind ?_
  rintro second _ ⟨hs, rfl⟩
  refine (parallel_eitherTrue hf hs).bind ?_
  rintro b _ rfl
  refine .ite Iff.rfl (fun _ => .pure rfl) fun _ => ?_
  refine (parallel_bringBack hc hn hl hf).bind fun _ _ _ => ?_
  refine (parallel_replacement hc hn).bind ?_
  rintro r _ ⟨rfl, hr⟩
  match r with
  | none => exact parallel_deriveFirst hc hn l
  | some (j, x) =>
    obtain ⟨hx, hj⟩ := hr j x rfl
    exact (parallel_moveWatcher hl hc hn hj hx).bind fun _ _ _ => .pure rfl

theorem parallel_sweepFrom (pass : Pass) (hl : g.legal l) (n i : Nat) :
    Parallel g (sweepFrom pass l n i) (sweepFrom pass (g.lit l) n i) fun r r' => r' = r := by
  induction n generalizing i with
  | zero => exact .pure rfl
  | succ n ih =>
    refine (Parallel.ask fun s s' h => h.watches.watcher hl i).bind ?_
    rintro w _ ⟨rfl, size, hc, hn⟩
    refine .ite ?_ (fun _ => ?_) fun _ => ih (i + 1)
    · cases pass <;> rfl
    refine (parallel_visit hl hc hn).bind ?_
    rintro _ v rfl
    cases v with
    | kept => exact ih (i + 1)
    | moved => exact ih i
    | derived => exact .ite Iff.rfl (fun _ => .pure rfl) fun _ => ih (i + 1)
    | conflict => exact .pure rfl

theorem parallel_sweep (pass : Pass) (hl : g.legal l) (i : Nat) :
    Parallel g (sweep pass l i) (sweep pass (g.lit l) i) fun r r' => r' = r := by
  have hlength : Parallel g (ask (·.watches.length l)) (ask (·.watches.length (g.lit l)))
      fun k k' => k' = k := by
    refine Parallel.ask fun s s' h => ?_
    rw [h.watches.length hl, h.watches.fits.length (g.small hl), answers_ok]
  refine hlength.bind ?_
  rintro _ size rfl
  exact parallel_sweepFrom pass hl (size - i) i

end Propagation

section Rounds

/-- The cursors of the two runs are at the same literals. -/
structure SameScan (g : Image) (t : Trail) (scan scan' : Scan) : Prop where
  pass : scan'.pass = scan.pass
  next : scan'.next = scan.next
  core : g.Level t scan.core scan'.core
  rest : g.Level t scan.rest scan'.rest
  coreFixed : t.forced ≤ scan'.core
  restFixed : t.forced ≤ scan'.rest

/-- Both runs go on, or both end alike. -/
def SameRound (g : Image) (t : Trail) : Round → Round → Prop
  | .onward scan, .onward scan' => SameScan g t scan scan'
  | .done r, .done r' => r' = r
  | _, _ => False

namespace SameScan

variable {u : Trail} {scan scan' : Scan}

theorem cursor (h : SameScan g u scan scan') :
    g.Level u scan.cursor scan'.cursor ∧ u.forced ≤ scan'.cursor := by
  rw [Scan.cursor, Scan.cursor, h.pass]
  cases scan.pass with
  | core => exact ⟨h.core, h.coreFixed⟩
  | rest | all => exact ⟨h.rest, h.restFixed⟩

theorem offset (h : SameScan g u scan scan') : scan'.offset = scan.offset := by
  rw [Scan.offset, Scan.offset, h.pass, h.next]

/-- What is pushed later does not matter to the cursors. -/
theorem extend {v : Trail} (h : SameScan g u scan scan') (hv : u.falsified <+: v.falsified)
    (hf : v.forced = u.forced) : SameScan g v scan scan' :=
  ⟨h.pass, h.next, h.core.extend hv, h.rest.extend hv, hf ▸ h.coreFixed, hf ▸ h.restFixed⟩

theorem advance (h : SameScan g u scan scan') {x : Literal}
    (hx : u.falsified[scan'.cursor]? = some x) (ho : g.own x = true) :
    SameScan g u scan.advance scan'.advance := by
  have hnext := h.cursor.1.next hx
  rw [if_pos ho] at hnext
  obtain ⟨hpass, hn, hcore, hrest, hcf, hrf⟩ := h
  obtain ⟨pass, core, rest, next⟩ := scan
  obtain ⟨pass', core', rest', next'⟩ := scan'
  obtain rfl : pass' = pass := hpass
  cases pass' with
  | core => exact ⟨rfl, hn, hnext, hrest, Nat.le_succ_of_le hcf, hrf⟩
  | rest | all => exact ⟨rfl, rfl, hcore, hnext, hcf, Nat.le_succ_of_le hrf⟩

end SameScan

/-- Where all literals of the second run are fixed, a round does the same in both runs. -/
theorem Mirrored.round (h : Mirrored g s s') (hclear : g.clear) {scan scan' : Scan}
    (hscan : SameScan g s'.trail scan scan') :
    Corresponds g.comparison (round scan) (round scan') s s' fun r t r' t' =>
      Mirrored g t t' ∧ SameRound g t'.trail r r' := by
  obtain ⟨hlevel, hfixed⟩ := hscan.cursor
  refine corresponds_left_ok rfl (corresponds_right_ok rfl ?_)
  by_cases hlt' : scan'.cursor < s'.trail.assigned
  · obtain ⟨l', hl'⟩ : ∃ l', s'.trail.falsified[scan'.cursor]? = some l' :=
      ⟨_, List.getElem?_eq_getElem (by rwa [Trail.length_falsified])⟩
    have ho : g.own l' = true := by
      refine h.trail.clear hclear l' (List.mem_of_getElem? (i := scan'.cursor - s'.trail.forced) ?_)
      rwa [List.getElem?_drop, Nat.add_sub_cancel' hfixed]
    have hlt := (hlevel.lt_iff h.trail.top hl' ho).mp hlt'
    obtain ⟨l, hl, hlegal, rfl⟩ := h.trail.exists_own hlevel hl' ho
    simp only [if_pos hlt, if_pos hlt']
    refine corresponds_left_ok (ask_of_ok (Trail.literalAt_eq_ok hl)) ?_
    refine corresponds_right_ok (ask_of_ok (Trail.literalAt_eq_ok hl')) ?_
    rw [hscan.pass, hscan.offset]
    refine (parallel_sweep scan.pass hlegal scan.offset h).run.bind ?_
    rintro _ t r t' ⟨-, hrun', rfl, ht⟩
    cases r with
    | finished =>
      obtain ⟨hpre, hforced⟩ := climbs_sweep _ _ _ hrun' (by simp)
      exact ⟨ht, (hscan.advance hl' ho).extend hpre hforced⟩
    | paused next =>
      obtain ⟨hpre, hforced⟩ := climbs_sweep _ _ _ hrun' (by simp)
      have hext := hscan.extend hpre hforced
      exact ⟨ht, { hext with pass := rfl, next := rfl }⟩
    | conflict => exact ⟨ht, rfl⟩
  · have hlt : ¬ scan.cursor < s.trail.assigned := by
      have hle := h.trail.top.mono hlevel (Nat.not_lt.mp hlt')
      omega
    simp only [if_neg hlt, if_neg hlt']
    rw [endPass, endPass, hscan.pass]
    cases scan.pass with
    | core => exact ⟨h, { hscan with pass := rfl }⟩
    | rest | all => exact ⟨{ h with trail := h.trail.drain }, rfl⟩

/-- Numbers of rounds that are large enough do the same. -/
theorem Mirrored.rounds (h : Mirrored g s s') (hclear : g.clear) {scan scan' : Scan}
    (hscan : SameScan g s'.trail scan scan') {a b : Nat}
    (ha : scan.roundsLeft (g.bound + 1) s ≤ a) (hb : scan'.roundsLeft (g.bound' + 1) s' ≤ b) :
    Corresponds g.comparison (rounds a scan) (rounds b scan') s s' fun r t r' t' =>
      r' = r ∧ Mirrored g t t' := by
  have hpos := scan.roundsLeft_pos (g.bound + 1) s
  have hpos' := scan'.roundsLeft_pos (g.bound' + 1) s'
  induction a generalizing b scan scan' s s' with
  | zero => omega
  | succ a ih =>
    cases b with
    | zero => omega
    | succ b =>
      refine (h.round hclear hscan).run.bind ?_
      rintro r t r' t' ⟨hrun, hrun', ht, hsame⟩
      match r, r', hsame with
      | .done _, .done _, rfl => exact ⟨rfl, ht⟩
      | .onward next, .onward next', hnext =>
        have hle : t.trail.assigned ≤ g.bound + 1 :=
          Nat.le_succ_of_le (ht.trail.wf.assigned_le ht.trail.wf.small)
        have hle' : t'.trail.assigned ≤ g.bound' + 1 :=
          Nat.le_succ_of_le (ht.trail.wf'.assigned_le ht.trail.wf'.small)
        have hlt := roundsLeft_of_round hrun hle
        have hlt' := roundsLeft_of_round hrun' hle'
        exact ih ht hnext (by omega) (by omega) (next.roundsLeft_pos _ _)
          (next'.roundsLeft_pos _ _)

theorem roundsLeft_start {n : Nat} {s : State} (coreFirst : Bool) (h : s.trail.Wf n) :
    (Scan.start coreFirst s.trail.processed).roundsLeft (n + 1) s ≤
      2 * s.trail.status.size := by
  rw [h.statusSize]
  cases coreFirst <;> simp only [Scan.start, Scan.roundsLeft] <;> simp <;> omega

theorem parallel_saturate (hclear : g.clear) (coreFirst : Bool) :
    Parallel g (saturate coreFirst) (saturate coreFirst) fun r r' => r' = r := by
  intro s s' h
  refine corresponds_left_ok rfl (corresponds_right_ok rfl ?_)
  refine corresponds_left_ok rfl (corresponds_right_ok rfl ?_)
  refine h.rounds hclear ?_ (roundsLeft_start coreFirst h.trail.wf)
    (roundsLeft_start coreFirst h.trail.wf')
  exact ⟨rfl, rfl, h.trail.processed, h.trail.processed, h.trail.ordered, h.trail.ordered⟩

end Rounds

end UnsatCore.Engine
