import UnsatCore.Proofs.JointIntake
import UnsatCore.Proofs.Verdict

/-! Two runs of which the second one passes over some lines that the first one does not have. They
give the same result, up to the numbers of the lines. -/
namespace UnsatCore

/-- A failure with other numbers for the lines of the derivation. -/
def Failure.renumber (number : Nat → Nat) : Failure → Failure
  | .fault cause => .fault cause
  | .rejected cause => .rejected (cause.renumber number)

theorem Rejection.renumber_id (r : Rejection) : r.renumber id = r := by
  cases r with
  | zeroLiteral part i => cases part <;> rfl
  | unmatchedDeletion i c | noConflict | conflictNotFound i | lemmaNotImplied i c => rfl

theorem mapError_renumber_id {α : Type} (x : Except Failure α) :
    x.mapError (Failure.renumber id) = x := by
  cases x with
  | ok a => rfl
  | error e =>
    cases e with
    | fault cause => rfl
    | rejected cause =>
      rw [Except.mapError, Failure.renumber, Rejection.renumber_id]

namespace Derivation

/-- The lines that are kept, with their numbers, where the first line is number `i`. -/
def numbered (kept : Nat → Bool) (i : Nat) (d : Derivation) : List (Line × Nat) :=
  (d.zipIdx i).filter fun x => kept x.2

/-- The lines that are kept. -/
def sift (kept : Nat → Bool) (d : Derivation) : Derivation :=
  (d.numbered kept 0).map Prod.fst

/-- The number that a line had before the other lines were taken out. -/
def number (kept : Nat → Bool) (d : Derivation) (i : Nat) : Nat :=
  ((d.numbered kept 0).map Prod.snd).getD i 0

variable {kept : Nat → Bool} {i j : Nat} {d e : Derivation} {line : Line}

theorem numbered_append :
    numbered kept i (d ++ e) = numbered kept i d ++ numbered kept (i + d.length) e := by
  simp only [numbered, List.zipIdx_append, List.filter_append]

theorem numbered_cons_of_pos (h : kept i = true) :
    numbered kept i (line :: d) = (line, i) :: numbered kept (i + 1) d := by
  simp [numbered, List.zipIdx_cons, h]

theorem numbered_cons_of_neg (h : ¬ kept i = true) :
    numbered kept i (line :: d) = numbered kept (i + 1) d := by
  simp [numbered, List.zipIdx_cons, h]

theorem length_numbered :
    (numbered kept 0 d).length = Nat.count (fun i => kept i = true) d.length := by
  induction d using List.reverseRecOn with
  | nil => rfl
  | append_singleton d line ih =>
    rw [numbered_append, List.length_append, ih, List.length_append, List.length_singleton,
      Nat.count_succ, Nat.zero_add]
    by_cases h : kept d.length = true
    · rw [numbered_cons_of_pos h, if_pos h]
      rfl
    · rw [numbered_cons_of_neg h, if_neg h]
      rfl

theorem getElem?_numbered (hj : d[j]? = some line) (hk : kept j = true) :
    (numbered kept 0 d)[Nat.count (fun i => kept i = true) j]? = some (line, j) := by
  obtain ⟨pre, post, rfl, rfl⟩ := exists_eq_append_cons hj
  have hcount : (numbered kept 0 pre).length = _ := length_numbered
  rw [numbered_append, Nat.zero_add, numbered_cons_of_pos hk, ← hcount,
    List.getElem?_append_right (Nat.le_refl _), Nat.sub_self, List.getElem?_cons_zero]

/-- To keep the first lines is to take them. -/
theorem sift_lt (n : Nat) (d : Derivation) : d.sift (fun j => decide (j < n)) = d.take n := by
  induction d using List.reverseRecOn with
  | nil => simp [sift, numbered]
  | append_singleton d line ih =>
    rw [sift, numbered_append, List.map_append, ← sift, ih, List.take_append, Nat.zero_add]
    by_cases h : d.length < n
    · obtain ⟨m, hm⟩ : ∃ m, n - d.length = m + 1 := ⟨n - d.length - 1, by omega⟩
      rw [numbered_cons_of_pos (by simpa using h), hm]
      simp [numbered]
    · rw [numbered_cons_of_neg (by simpa using h), Nat.sub_eq_zero_of_le (Nat.not_lt.mp h)]
      simp [numbered]

theorem number_count (hj : j < d.length) (hk : kept j = true) :
    number kept d (Nat.count (fun i => kept i = true) j) = j := by
  rw [number, List.getD_eq_getElem?_getD, List.getElem?_map,
    getElem?_numbered (List.getElem?_eq_getElem hj) hk]
  rfl

theorem mem_of_mem_sift (h : line ∈ d.sift kept) : line ∈ d := by
  obtain ⟨x, hx, rfl⟩ := List.mem_map.mp h
  exact List.mem_of_getElem? (List.mem_zipIdx_iff_getElem?.mp (List.mem_of_mem_filter hx))

theorem mem_sift (hj : d[j]? = some line) (hk : kept j = true) : line ∈ d.sift kept :=
  List.mem_map.mpr ⟨_, List.mem_of_getElem? (getElem?_numbered hj hk), rfl⟩

end Derivation

variable {settings settings' : Settings} {f : Formula} {d e : Derivation} {number : Nat → Nat}
  {scope : Scope} {kept : Nat → Bool}

theorem maxVar_le_of_subset (h : ∀ line ∈ e, line ∈ d) :
    maxVar f e ≤ maxVar f d := by
  refine Nat.max_le.mpr ⟨Nat.le_max_left _ _, Nat.le_trans ?_ (Nat.le_max_right _ _)⟩
  refine Formula.maxVar_le_iff.mpr fun c hc => ?_
  obtain ⟨line, hline, rfl⟩ := List.mem_map.mp hc
  exact Formula.maxVar_le (List.mem_map_of_mem (h line hline))

namespace Engine

open CheckM

variable {k : Bond} {s s' : State} {rest : Derivation} {line : Derivation.Line} {j : Nat}
  {J : Nat → State → Prop} {r r' : Rejection}

theorem Bond.Matches.renumber (h : k.Matches r r')
    (hn : ∀ j, k.kept j = true → number (k.rank j) = j) : r' = r.renumber number := by
  obtain ⟨rfl, hkept⟩ := h
  cases r' with
  | zeroLiteral part i =>
    cases part with
    | formula => rfl
    | derivation => simp only [Rejection.renumber, hn i (hkept i rfl)]
  | noConflict => rfl
  | unmatchedDeletion i c | conflictNotFound i | lemmaNotImplied i c =>
    simp only [Rejection.renumber, hn i (hkept i rfl)]

/-- The lines in common have the same clauses. -/
theorem given_sift (hl : k.lines ≤ d.length) :
    k.Reports k.Matches ((d.sift k.kept).map Derivation.Line.clause).toArray
      (d.map Derivation.Line.clause).toArray := by
  refine Bond.reports_matches fun j hj hk => ?_
  have hat := Derivation.getElem?_numbered (List.getElem?_eq_getElem (Nat.lt_of_lt_of_le hj hl)) hk
  simp only [Array.getD_eq_getD_getElem?, List.getElem?_toArray, List.getElem?_map,
    Derivation.sift, Bond.rank, hat, List.getElem?_eq_getElem (Nat.lt_of_lt_of_le hj hl)]
  rfl

/-- What two runs need to come to the same result. When the second one comes to line `j`, its state
is in `J j`, which tells that the line is treated the same in both, or passed over. -/
structure Sifts (k : Bond) (settings settings' : Settings) (d : Derivation)
    (J : Nat → State → Prop) : Prop where
  next : ∀ {j line s t}, d[j]? = some line → J j s →
    readLine settings' j line s = .ok (false, t) → J (j + 1) t
  kept : ∀ {j line s}, d[j]? = some line → J j s → k.kept j = true →
    (∀ l ∈ line.clause, l.var.index ≤ k.bound) ∧
      ∀ c, line = .delete c → Treats settings settings' s c
  passed : ∀ {j line s}, d[j]? = some line → J j s → ¬ k.kept j = true →
    k.scope ≠ .all ∧ ∃ c, line = .delete c ∧ c.hasZero = false ∧ Passes settings' s c

theorem Twin.readLines (ht : Twin k s s') (hx : k.exact) (hw : k.whole)
    (hs : Sifts k settings settings' d J) (hj : J k.lines s') (hd : d.drop k.lines = rest)
    (hl : k.lines ≤ d.length) :
    Together k.Matches (readLines settings (k.rank k.lines)
        ((rest.numbered k.kept k.lines).map Prod.fst)) (readLines settings' k.lines rest) s s'
      fun _ t _ t' => ∃ size lines, Twin ((k.resize size).relength lines) t t' ∧
        lines ≤ d.length ∧ (lines = d.length ∨ .add [] ∈ d) := by
  -- The bond grows by a line, and by a clause if both runs store it.
  induction rest generalizing k s s' with
  | nil =>
    refine ⟨k.size, k.lines, ht, hl, Or.inl ?_⟩
    have hlen := List.drop_eq_nil_iff.mp hd
    omega
  | cons line rest ih =>
    have hline : d[k.lines]? = some line := by
      rw [← List.head?_drop, hd]
      rfl
    have hlt := (List.getElem?_eq_some_iff.mp hline).1
    have hdrop : d.drop (k.lines + 1) = rest := by
      rw [← List.drop_drop, hd]
      rfl
    by_cases hk : k.kept k.lines = true
    · obtain ⟨hsmall, hset⟩ := hs.kept hline hj hk
      rw [Derivation.numbered_cons_of_pos hk]
      refine (ht.readLine hx hw hk (.refl line) (Bond.refuses_matches hk) hsmall hset).run.bind ?_
      rintro _ t b t' ⟨-, hrun', rfl, size, ht'⟩
      cases b with
      | true =>
        have hlast := (readLine_last hrun').mp rfl
        exact ⟨size, _, ht', hlt, Or.inr (hlast ▸ List.mem_of_getElem? hline)⟩
      | false =>
        have hrest := ih ht' hx hw ⟨hs.next, hs.kept, hs.passed⟩ (hs.next hline hj hrun') hdrop hlt
        have hrank : ((k.resize size).relength (k.lines + 1)).rank
            ((k.resize size).relength (k.lines + 1)).lines = k.rank k.lines + 1 :=
          Bond.rank_succ hk
        rw [hrank] at hrest
        exact hrest
    · obtain ⟨hv, c, rfl, hz, hp⟩ := hs.passed hline hj hk
      obtain ⟨t', hrun', ht'⟩ := ht.readPassed hw hk hv hz hp
      have hrest := ih ht' hx hw ⟨hs.next, hs.kept, hs.passed⟩ (hs.next hline hj hrun') hdrop hlt
      have hrank : (k.relength (k.lines + 1)).rank (k.relength (k.lines + 1)).lines =
          k.rank k.lines := Bond.rank_succ_of_not hk
      rw [hrank] at hrest
      rw [Derivation.numbered_cons_of_neg hk, Together, Engine.readLines, bind_of_ok hrun']
      exact hrest

/-- Both runs read their derivations and carry them out. -/
theorem Twin.refute (ht : Twin k s s') (hx : k.exact) (hw : k.whole) (hl : k.lines = 0)
    (hs : Sifts k settings settings' d J) (hj : J 0 s')
    (hc : settings'.coreFirst = settings.coreFirst) :
    Together k.Matches (refute settings f (d.sift k.kept)) (refute settings' f d) s s'
      fun core _ core' _ => core'.within k.scope = core.within k.scope := by
  have hread := ht.readLines hx hw hs (hl ▸ hj) rfl (hl ▸ Nat.zero_le _)
  rw [hl, show k.rank 0 = 0 from Nat.count_zero _] at hread
  refine Together.bind (P := fun _ t _ t' => ∃ size lines,
    Twin ((k.resize size).relength lines) t t' ∧ lines ≤ d.length) ?_ ?_
  · refine hread.bind ?_
    rintro _ t _ t' ⟨size, lines, ht', hle, -⟩
    exact ⟨size, lines, { ht' with }, hle⟩
  · rintro _ t _ t' ⟨size, lines, ht', hle⟩
    rw [hc]
    exact (Twin.pursue (k := (k.resize size).relength lines) rfl (given_sift hle)
      (ht'.replay_whole hw)).mono fun _ _ _ _ hcore => hcore.within

/-- What two runs have in common before anything is read. -/
def Bond.start (bound : Nat) (kept : Nat → Bool) (scope : Scope) : Bond where
  bound := bound
  size := fun _ => none
  kept := kept
  lines := 0
  scope := scope
  exact := True
  whole := True

theorem small_of_kept (hj : d[j]? = some line) (hk : kept j = true) :
    ∀ l ∈ line.clause, l.var.index ≤ maxVar f (d.sift kept) :=
  (fitting_excused f (d.sift kept)).small _
    (List.mem_append_right _ (List.mem_map_of_mem (Derivation.mem_sift hj hk)))

/-- Two whole runs. -/
theorem together_run
    (hs : Sifts (.start (maxVar f (d.sift kept)) kept scope) settings settings' d J)
    (hj : ∀ s, Loaded (maxVar f d) True f [] s → J 0 s)
    (hc : settings'.coreFirst = settings.coreFirst) :
    Together (Bond.start (maxVar f (d.sift kept)) kept scope).Matches (run settings f (d.sift kept))
      (run settings' f d) (.initial (maxVar f (d.sift kept))) (.initial (maxVar f d))
      fun core _ core' _ => core'.within scope = core.within scope := by
  have hle : maxVar f (d.sift kept) ≤ maxVar f d :=
    maxVar_le_of_subset fun _ => Derivation.mem_of_mem_sift
  have hsmall := fitting_excused f (d.sift kept)
  have hstart := twin_initial (k := .start (maxVar f (d.sift kept)) kept scope) (Nat.le_refl _) hle
    rfl rfl
  refine Together.bind (P := fun _ t _ t' =>
    Twin (.start (maxVar f (d.sift kept)) kept scope) t t' ∧
      Loaded (maxVar f d) True [] [] t') ⟨{ hstart with }, (loaded_initial _ True).noted _ _⟩ ?_
  rintro _ s _ s' ⟨ht, hl⟩
  have hR : Objects settings' f d fun _ _ => True := fun _ _ _ _ => trivial
  have hread := ends_readFormula [] (fitting_excused f d) hR hl rfl
  refine (ht.readFormula trivial (List.forall₂_same.mpr fun _ _ => rfl)
    (fun _ => ⟨rfl, by simp [Rejection.line?]⟩)
    fun c hc => hsmall.small c (List.mem_append_left _ hc)).run.bind ?_
  rintro _ t r t' ⟨-, hrun', rfl, size, ht'⟩
  cases r with
  | trivial => exact congrArg (Core.mk true []) ht'.counters
  | ready =>
    exact ht'.refute trivial trivial rfl ⟨hs.next, hs.kept, hs.passed⟩
      (hj t' (hread.of_ok hrun')) hc

end Engine

open Engine

/-- Two runs that end together have the same result, up to the numbers of the lines. -/
theorem result_of_together (number : Nat → Nat) {E : Rejection → Rejection → Prop}
    (h : Together E (run settings f e) (run settings' f d) (.initial (maxVar f e))
      (.initial (maxVar f d)) fun core _ core' _ => core'.within scope = core.within scope)
    (hE : ∀ r r', E r r' → r' = r.renumber number) :
    (extract settings' f d).result.map (Core.within scope) =
      ((extract settings f e).result.map (Core.within scope)).mapError
        (Failure.renumber number) := by
  simp only [extract]
  unfold Together at h
  split at h
  · rename_i hrun hrun'
    simp only [hrun, hrun', Except.map, Except.mapError, h]
  · rename_i hrun hrun'
    simp only [hrun, hrun', Except.map, Except.mapError, Failure.renumber, hE _ _ h]
  · rename_i hrun hrun'
    simp only [hrun, hrun', Except.map, Except.mapError, Failure.renumber, h]
  · exact h.elim

/-- A derivation gives the same result without the lines that are passed over. -/
theorem extract_sift {J : Nat → State → Prop}
    (hs : Sifts (.start (maxVar f (d.sift kept)) kept scope) settings settings' d J)
    (hj : ∀ s, Loaded (maxVar f d) True f [] s → J 0 s)
    (hc : settings'.coreFirst = settings.coreFirst) (hk : ∀ j, kept j = true → j < d.length) :
    (extract settings' f d).result.map (Core.within scope) =
      ((extract settings f (d.sift kept)).result.map (Core.within scope)).mapError
        (Failure.renumber (d.number kept)) :=
  result_of_together _ (together_run hs hj hc) fun _ _ h =>
    h.renumber fun j hj => Derivation.number_count (hk j hj) hj

end UnsatCore
