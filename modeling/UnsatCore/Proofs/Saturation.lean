import UnsatCore.Engine.Saturation
import UnsatCore.Proofs.Sweep

/-! Unit propagation to the end: both cursors reach the top of the trail, and then every attached
clause is settled. Each round brings the end nearer, so the rounds that are allotted suffice. -/
namespace UnsatCore.Engine

open CheckM

variable {n k : Nat} {F : Prop} {R : Rejection → State → Prop} {body : Handle → Clause}
  {A : Set Handle} {s s' : State} {scan : Scan} {coreFirst : Bool} {l : Literal}

theorem Coherent.assigned_le (h : Coherent n F body A s) : s.trail.assigned ≤ n + 1 :=
  Nat.le_succ_of_le (h.trail.assigned_le h.trail.small)

namespace Scan

/-- Where the clauses wait that the pass leaves out. -/
def waiting (scan : Scan) : Nat × Nat :=
  match scan.pass with
  | .core => (scan.rest, scan.next)
  | .rest => (scan.core, 0)
  | .all => (0, 0)

def frontier (scan : Scan) : Frontier :=
  scan.pass.frontier scan.cursor scan.offset scan.waiting

/-- The cursors are on the trail; while the second one moves, the first one is at its top. -/
def Fits (scan : Scan) (s : State) : Prop :=
  match scan.pass with
  | .core => scan.core ≤ s.trail.assigned ∧ scan.rest ≤ s.trail.assigned ∧
      (scan.next = 0 ∨ scan.rest < scan.core)
  | .rest => scan.core = s.trail.assigned ∧ scan.rest ≤ s.trail.assigned
  | .all => scan.rest ≤ s.trail.assigned

/-- The rounds that are left at most. A detour of the first cursor is paid for by the literal that
caused it. -/
def roundsLeft (scan : Scan) (n : Nat) (s : State) : Nat :=
  match scan.pass with
  | .core => (n - scan.core) + (n - scan.rest) + 2 * (n - s.trail.assigned) + 2
  | .rest => (n - scan.core) + (n - scan.rest) + 2 * (n - s.trail.assigned) + 1
  | .all => (n - scan.rest) + 1

theorem Fits.waiting (h : scan.Fits s) :
    Waiting s scan.cursor scan.waiting := by
  obtain ⟨pass, core, rest, next⟩ := scan
  cases pass with
  | core => exact ⟨h.2.1, h.2.2⟩
  | rest => exact ⟨Nat.le_of_eq h.1, Or.inl rfl⟩
  | all => exact ⟨Nat.zero_le _, Or.inl rfl⟩

/-- The first cursor catches up, and then the second one goes on where it was. -/
theorem frontier_detour (core rest next : Nat) :
    Pass.rest.frontier rest next (core, 0) = Pass.core.frontier core 0 (rest, next) := by
  funext b
  cases b <;> rfl

theorem pass_advance (scan : Scan) : scan.advance.pass = scan.pass := by
  obtain ⟨pass, core, rest, next⟩ := scan
  cases pass <;> rfl

theorem frontier_advance (scan : Scan) :
    scan.advance.frontier = scan.pass.frontier (scan.cursor + 1) 0 scan.waiting := by
  obtain ⟨pass, core, rest, next⟩ := scan
  cases pass <;> rfl

theorem Fits.advance (h : scan.Fits s) (hc : scan.cursor < s.trail.assigned)
    (hle : s.trail.assigned ≤ s'.trail.assigned)
    (hp : scan.pass.pauses = true → s'.trail.assigned = s.trail.assigned) :
    scan.advance.Fits s' := by
  obtain ⟨pass, core, rest, next⟩ := scan
  cases pass with
  | core =>
    simp only [Fits, Scan.advance, cursor] at h hc ⊢
    omega
  | rest =>
    have hp := hp rfl
    simp only [Fits, Scan.advance, cursor] at h hc ⊢
    omega
  | all =>
    simp only [Fits, Scan.advance, cursor] at h hc ⊢
    omega

theorem roundsLeft_advance (hc : scan.cursor < s.trail.assigned)
    (hle : s.trail.assigned ≤ s'.trail.assigned) (hn : s'.trail.assigned ≤ n) :
    scan.advance.roundsLeft n s' < scan.roundsLeft n s := by
  obtain ⟨pass, core, rest, next⟩ := scan
  cases pass <;> simp only [roundsLeft, Scan.advance, cursor] at hc ⊢ <;> omega

end Scan

/-- Unit propagation came to an end without a conflict. -/
structure Drained (A : Set Handle) (s s' : State) : Prop where
  grew : Grew A s s'
  processed : s'.trail.processed = s'.trail.assigned
  settled : ∀ c ∈ A, Settled s'.trail.falsified (s'.arena.literals c)

/-- What came of unit propagation. -/
def Saturated (body : Handle → Clause) (A : Set Handle) (s s' : State) : Saturation → Prop
  | .drained => Drained A s s'
  | .conflict => Refuted body A s s'

theorem Saturated.of_grew {s₁ : State} {r : Saturation} (h : Saturated body A s₁ s' r)
    (hg : Grew A s s₁) (hf : s.trail.forced ≤ s.trail.assigned) : Saturated body A s s' r := by
  cases r with
  | drained => exact ⟨hg.trans h.grew, h.processed, h.settled⟩
  | conflict => exact hg.refuted h hf

/-- What came of a round: it is over, or there is one round less to come. -/
def Rounded (n : Nat) (body : Handle → Clause) (A : Set Handle) (scan : Scan) (s s' : State) :
    Round → Prop
  | .onward next => Grew A s s' ∧ Advanced A next.frontier s' ∧ next.Fits s' ∧
      next.roundsLeft (n + 1) s' < scan.roundsLeft (n + 1) s
  | .done result => Saturated body A s s' result

theorem round_of_lt (scan : Scan) (hc : scan.cursor < s.trail.assigned) :
    round scan s = sweepRound scan s := by
  have hlook : look (·.trail.assigned) s = .ok (s.trail.assigned, s) := rfl
  exact (bind_of_ok hlook).trans (congrFun (if_pos hc) s)

theorem round_of_le (scan : Scan) (hc : s.trail.assigned ≤ scan.cursor) :
    round scan s = endPass scan s := by
  have hlook : look (·.trail.assigned) s = .ok (s.trail.assigned, s) := rfl
  exact (bind_of_ok hlook).trans (congrFun (if_neg (Nat.not_lt.mpr hc)) s)

/-- How a round goes on after a sweep. -/
def roundAfter (scan : Scan) : Swept → Round
  | .finished => .onward scan.advance
  | .paused next => .onward (scan.detour next)
  | .conflict => .done .conflict

/-- What at most `k` rounds do after another one. -/
def proceed (k : Nat) : Round → CheckM Saturation
  | .onward scan => rounds k scan
  | .done result => pure result

theorem sweepRound_eq (hl : s.trail.falsified[scan.cursor]? = some l) :
    sweepRound scan s =
      (sweep scan.pass l scan.offset >>= fun r => pure (roundAfter scan r)) s := by
  rw [sweepRound, bind_of_ok (ask_of_ok (Trail.literalAt_eq_ok hl))]
  refine bind_congr_ok rfl fun r _ _ => ?_
  cases r <;> rfl

theorem rounds_succ (k : Nat) (scan : Scan) : rounds (k + 1) scan = round scan >>= proceed k := rfl

theorem rounds_succ_of_lt (scan : Scan) (hc : scan.cursor < s.trail.assigned)
    (hl : s.trail.falsified[scan.cursor]? = some l) :
    rounds (k + 1) scan s =
      (sweep scan.pass l scan.offset >>= fun r => proceed k (roundAfter scan r)) s := by
  have hround := (round_of_lt scan hc).trans (sweepRound_eq hl)
  rw [rounds_succ, bind_congr_ok hround fun _ _ _ => rfl, bind_assoc]
  rfl

/-- A sweep brings the end of the rounds nearer. -/
theorem SweptTo.rounded {r : Swept}
    (hr : SweptTo body A scan.pass scan.cursor scan.waiting l s s' r)
    (h' : Coherent n F body A s') (hfit : scan.Fits s) (hc : scan.cursor < s.trail.assigned)
    (hl : s.trail.falsified[scan.cursor]? = some l) :
    Rounded n body A scan s s' (roundAfter scan r) := by
  cases r with
  | finished =>
    obtain ⟨hg, hadv', hp⟩ := hr
    have hle := hg.assigned_le
    refine ⟨hg, ?_, hfit.advance hc hle hp, scan.roundsLeft_advance hc hle h'.assigned_le⟩
    rw [Scan.frontier_advance]
    exact hadv'.next h' (hg.getElem? hl)
  | paused next =>
    obtain ⟨hg, hadv', hlt, hp⟩ := hr
    have hn := h'.assigned_le
    obtain ⟨pass, core, rest, old⟩ := scan
    cases pass with
    | core => cases hp
    | all => cases hp
    | rest =>
      refine ⟨hg, ?_, ?_, ?_⟩
      · show Advanced A (Pass.core.frontier core 0 (rest, next)) s'
        rw [← Scan.frontier_detour]
        exact hadv'
      · simp only [Scan.Fits, Scan.detour, Scan.cursor] at hfit hc ⊢
        omega
      · simp only [Scan.roundsLeft, Scan.detour] at hfit hc ⊢
        omega
  | conflict => exact hr

theorem finds_sweepRound (h : Coherent n F body A s) (hf : s.trail.forced ≤ s.trail.assigned)
    (hadv : Advanced A scan.frontier s) (hfit : scan.Fits s)
    (hc : scan.cursor < s.trail.assigned) :
    Finds F R (Blocked n F body A s) (Search.sweepRound scan) s fun r s' =>
      r ≠ .done .conflict ∧ Coherent n F body A s' ∧ Rounded n body A scan s s' r := by
  obtain ⟨l, hl⟩ : ∃ l, s.trail.falsified[scan.cursor]? = some l :=
    ⟨_, List.getElem?_eq_getElem (by rwa [Trail.length_falsified])⟩
  simp only [Search.sweepRound, finds_bind, finds_lift, ends_ask, Trail.literalAt_eq_ok hl,
    yields_ok]
  refine (finds_sweep h hf hadv hfit.waiting hl).mono (fun _ _ hb => hb) ?_
  rintro r s' ⟨hne, h', hr⟩
  have hround := hr.rounded h' hfit hc hl
  cases r with
  | finished => exact ⟨by simp, h', hround⟩
  | paused next => exact ⟨by simp, h', hround⟩
  | conflict => exact (hne rfl).elim

theorem ends_sweepRound (h : Coherent n F body A s) (ha : Anchored body A s.trail.entries)
    (hf : s.trail.forced ≤ s.trail.assigned) (hadv : Advanced A scan.frontier s)
    (hfit : scan.Fits s) (hc : scan.cursor < s.trail.assigned) :
    Ends F R (sweepRound scan) s fun r s' => Coherent n F body A s' ∧
      Rounded n body A scan s s' r := by
  rw [← Search.explained_sweepRound]
  exact (finds_sweepRound h hf hadv hfit hc).explained fun _ _ hb => hb.ends_explain ha hf

/-- With all cursors at the top of the trail, every clause is settled. -/
theorem Advanced.settled {fr : Frontier} {c : Handle} (h : Advanced A fr s)
    (hfr : ∀ b, s.trail.assigned ≤ (fr b).1) (hc : c ∈ A) :
    Settled s.trail.falsified (s.arena.literals c) := by
  intro x y hp hx
  rcases h c hc x y hp hx with hy | ⟨j, hj, hdue⟩
  · exact hy
  · have hlt := (List.getElem?_eq_some_iff.mp hj).1
    have hle := hfr (s.arena.inCore c)
    rw [Trail.length_falsified] at hlt
    rcases hdue with hlt' | ⟨rfl, -⟩
    · simp only at hlt'
      omega
    · simp only at hlt
      omega

theorem ends_endPass (h : Coherent n F body A s) (hadv : Advanced A scan.frontier s)
    (hfit : scan.Fits s) (hc : s.trail.assigned ≤ scan.cursor) :
    Ends F R (endPass scan) s fun r s' => r ≠ .done .conflict ∧
      Coherent n F body A s' ∧ Rounded n body A scan s s' r := by
  have hend := h.bounds s.trail.assigned s.trail.forced
  have hgrew : Grew A s { s with trail := { s.trail with processed := s.trail.assigned } } :=
    ⟨⟨rfl, rfl, rfl, rfl⟩, fun _ => Iff.rfl, fun _ _ => rfl,
      ⟨[], (List.append_nil _).symm, by simp⟩, rfl, fun _ hm => hm, fun _ _ _ _ hs => hs⟩
  obtain ⟨pass, core, rest, next⟩ := scan
  cases pass with
  | core =>
    refine ⟨by simp, h, Grew.refl A s, ?_, ?_, ?_⟩
    · show Advanced A (Pass.rest.frontier rest next (core, 0)) s
      rw [Scan.frontier_detour]
      exact hadv
    · simp only [Scan.Fits, Scan.cursor] at hfit hc ⊢
      omega
    · simp only [Scan.roundsLeft]
      omega
  | rest =>
    refine ⟨by simp, hend, hgrew, rfl, fun c hc' => hadv.settled ?_ hc'⟩
    intro b
    simp only [Scan.Fits, Scan.cursor] at hfit hc
    cases b
    · exact hc
    · exact Nat.le_of_eq hfit.1.symm
  | all => exact ⟨by simp, hend, hgrew, rfl, fun c hc' => hadv.settled (fun b => hc) hc'⟩

theorem finds_round (h : Coherent n F body A s) (hf : s.trail.forced ≤ s.trail.assigned)
    (hadv : Advanced A scan.frontier s) (hfit : scan.Fits s) :
    Finds F R (Blocked n F body A s) (Search.round scan) s fun r s' =>
      r ≠ .done .conflict ∧ Coherent n F body A s' ∧ Rounded n body A scan s s' r := by
  simp only [Search.round, finds_bind, finds_lift, ends_look, finds_ite]
  split
  · rename_i hlt
    exact finds_sweepRound h hf hadv hfit hlt
  · rename_i hge
    exact ends_endPass h hadv hfit (Nat.le_of_not_lt hge)

theorem finds_rounds (h : Coherent n F body A s) (hf : s.trail.forced ≤ s.trail.assigned)
    (hadv : Advanced A scan.frontier s) (hfit : scan.Fits s)
    (hk : scan.roundsLeft (n + 1) s ≤ k) :
    Finds F R (Blocked n F body A s) (Search.rounds k scan) s fun r s' =>
      r ≠ .conflict ∧ Coherent n F body A s' ∧ Saturated body A s s' r := by
  induction k generalizing s scan with
  | zero =>
    obtain ⟨pass, core, rest, next⟩ := scan
    cases pass <;> simp only [Scan.roundsLeft] at hk <;> omega
  | succ k ih =>
    simp only [Search.rounds, finds_bind]
    refine (finds_round h hf hadv hfit).mono (fun _ _ hb => hb) ?_
    rintro r s₁ ⟨hne, h₁, hr⟩
    cases r with
    | onward next =>
      obtain ⟨hg, hadv₁, hfit₁, hlt⟩ := hr
      refine (ih h₁ (hg.forced_le hf) hadv₁ hfit₁ (by omega)).mono
        (fun _ _ hb => hb.of_grew hg) ?_
      exact fun r s' hr => ⟨hr.1, hr.2.1, hr.2.2.of_grew hg hf⟩
    | done result => exact ⟨fun he => hne (he ▸ rfl), h₁, hr⟩

/-- What is propagated already is settled; the rest of the trail may be true or not. -/
def Poised (A : Set Handle) (s : State) : Prop :=
  ∀ c ∈ A, ∀ x y, Pair (s.arena.literals c) x y → x ∈ s.trail.falsified.take s.trail.processed →
    -y ∈ s.trail.falsified

theorem Poised.advanced (h : Poised A s) (hs : Coherent n F body A s) (b : Bool) :
    Advanced A (Scan.start b s.trail.processed).frontier s := by
  have hfr : ∀ b', (Scan.start b s.trail.processed).frontier b' = (s.trail.processed, 0) := by
    intro b'
    cases b <;> cases b' <;> rfl
  intro c hc x y hp hx
  obtain ⟨j, hlt, rfl⟩ := List.getElem_of_mem hx
  have hj := List.getElem?_eq_getElem hlt
  rcases Nat.lt_or_ge j s.trail.processed with hjp | hjp
  · left
    refine h c hc _ y hp (List.mem_of_getElem? (i := j) ?_)
    rw [List.getElem?_take_of_lt hjp, hj]
  · refine Or.inr ⟨j, hj, ?_⟩
    rw [hfr]
    rcases Nat.lt_or_eq_of_le hjp with hjp | hjp
    · exact Or.inl hjp
    · refine Or.inr ⟨hjp.symm, ?_⟩
      exact (hs.watched.mem_iff _ _).mpr ⟨hc, rfl, hp.mem_take⟩

theorem Scan.fits_start (hp : s.trail.processed ≤ s.trail.assigned) :
    (Scan.start coreFirst s.trail.processed).Fits s := by
  cases coreFirst
  · exact hp
  · exact ⟨hp, hp, Or.inl rfl⟩

/-- The rounds that are allotted suffice. -/
theorem Scan.roundsLeft_start (h : s.trail.Wf n) :
    (Scan.start coreFirst s.trail.processed).roundsLeft (n + 1) s ≤ 2 * s.trail.status.size := by
  rw [h.statusSize]
  cases coreFirst <;> simp only [Scan.roundsLeft, Scan.start] <;> simp <;> omega

/-- The search stops at a conflict, or with every clause settled. -/
theorem finds_saturate (h : Coherent n F body A s) (hf : s.trail.forced ≤ s.trail.assigned)
    (hp : s.trail.processed ≤ s.trail.assigned) (hpo : Poised A s) :
    Finds F R (Blocked n F body A s) (Search.saturate coreFirst) s fun r s' =>
      r ≠ .conflict ∧ Coherent n F body A s' ∧ Saturated body A s s' r := by
  simp only [Search.saturate, finds_bind, finds_lift, ends_look]
  exact finds_rounds h hf (hpo.advanced h coreFirst) (Scan.fits_start hp)
    (Scan.roundsLeft_start h.trail)

/-- Unit propagation ends in a conflict, which is explained, or with every clause settled. -/
theorem ends_saturate (h : Coherent n F body A s) (ha : Anchored body A s.trail.entries)
    (hf : s.trail.forced ≤ s.trail.assigned) (hp : s.trail.processed ≤ s.trail.assigned)
    (hpo : Poised A s) :
    Ends F R (saturate coreFirst) s fun r s' => Coherent n F body A s' ∧
      Saturated body A s s' r := by
  rw [← Search.explained_saturate]
  exact (finds_saturate h hf hp hpo).explained fun _ _ hb => hb.ends_explain ha hf

theorem endPass_idle (hp : s.trail.processed = s.trail.assigned) (hpass : scan.pass ≠ .core) :
    endPass scan s = .ok (.done .drained, s) := by
  have hend : endPass scan s = .ok (.done .drained,
      { s with trail := { s.trail with processed := s.trail.assigned } }) := by
    obtain ⟨pass, core, rest, next⟩ := scan
    cases pass with
    | core => exact (hpass rfl).elim
    | rest => rfl
    | all => rfl
  rw [hend, ← hp]

theorem rounds_idle (hp : s.trail.processed = s.trail.assigned) (hpass : scan.pass ≠ .core)
    (hc : s.trail.assigned ≤ scan.cursor) : rounds (k + 1) scan s = .ok (.drained, s) :=
  bind_of_ok ((round_of_le scan hc).trans (endPass_idle hp hpass))

/-- Where nothing is left to propagate, nothing is done. -/
theorem saturate_idle (coreFirst : Bool) (h : s.trail.Wf n)
    (hp : s.trail.processed = s.trail.assigned) : saturate coreFirst s = .ok (.drained, s) := by
  have hc : s.trail.assigned ≤ s.trail.processed := Nat.le_of_eq hp.symm
  obtain ⟨k, hk⟩ : ∃ k, 2 * s.trail.status.size = k + 1 + 1 :=
    ⟨4 * n + 4, by rw [h.statusSize]; omega⟩
  show rounds (2 * s.trail.status.size) (.start coreFirst s.trail.processed) s = _
  rw [hk]
  cases coreFirst with
  | false => exact rounds_idle hp (by simp [Scan.start]) hc
  | true =>
    have hround : round (.start true s.trail.processed) s =
        .ok (.onward ⟨.rest, s.trail.processed, s.trail.processed, 0⟩, s) := round_of_le _ hc
    exact (bind_of_ok hround).trans (rounds_idle hp (by simp) hc)

theorem ends_saturate_idle (h : s.trail.Wf n) (hp : s.trail.processed = s.trail.assigned) :
    Ends F R (saturate coreFirst) s fun r s' => r = .drained ∧ s' = s := by
  rw [Ends, saturate_idle coreFirst h hp]
  exact ⟨rfl, rfl⟩

end UnsatCore.Engine
