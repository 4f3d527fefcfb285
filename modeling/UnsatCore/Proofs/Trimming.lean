import UnsatCore.Proofs.Verdict

/-! The lemmas that were checked are a derivation of their own: with an empty lemma at the end they
refute the core, whatever the settings are. -/
namespace UnsatCore

open Engine

variable {f core : Formula} {d : Derivation} {c : Clause} {lemmas : List Clause} {j : Nat}

theorem Derivation.live_additions (f : Formula) (lemmas : List Clause) :
    Derivation.live f (lemmas.map .add) = lemmas.reverse ++ f := by
  induction lemmas generalizing f with
  | nil => rfl
  | cons c lemmas ih =>
    rw [List.reverse_cons, List.append_assoc]
    exact ih (c :: f)

/-- Lemmas that follow one after the other, up to an empty one, are accepted. -/
theorem exists_ok_of_follows (hp : ∀ c ∈ f ++ lemmas, ∀ l ∈ c, l.Proper)
    (hm : f.length + lemmas.length < 2147483648) (hend : [] ∈ lemmas)
    (hfollows : ∀ (j : Nat) (c : Clause), lemmas[j]? = some c →
      c.FollowsFrom (f ++ lemmas.take j)) (settings : Settings) :
    ∃ r, (extract settings f (lemmas.map .add)).result = .ok r := by
  have hclauses : (lemmas.map Derivation.Line.add).map Derivation.Line.clause = lemmas := by
    simp [Function.comp_def, Derivation.Line.clause]
  rcases extract_ok_or_rejected settings
    (fun c hc l hl => (hp c (hclauses ▸ hc) l hl).2) (by simpa using hm) with hok | ⟨r, -, hr⟩
  · exact hok
  refine (Rejection.not_warranted (fun c hc l hl => (hp c (hclauses ▸ hc) l hl).1)
    (List.mem_map_of_mem hend) ?_ ?_ r hr).elim
  · intro j c _ hj
    rw [List.getElem?_map] at hj
    obtain ⟨k, hk, he⟩ := Option.map_eq_some_iff.mp hj
    cases he
    rw [← List.map_take, Derivation.live_additions]
    refine (hfollows j c hk).within (fun k hk => ⟨k, ?_, Clause.Same.refl k⟩) (Clause.Same.refl c)
    rw [List.mem_append, List.mem_reverse]
    exact (List.mem_append.mp hk).symm
  · intro _ _ j c _ hj
    rw [List.getElem?_map] at hj
    obtain ⟨k, -, he⟩ := Option.map_eq_some_iff.mp hj
    cases he

namespace Certificate

/-- The empty clause follows after the last lemma. -/
theorem follows_closed (h : Certificate core lemmas) (hj : (lemmas ++ [[]])[j]? = some c) :
    c.FollowsFrom (core ++ (lemmas ++ [[]]).take j) := by
  rcases Nat.lt_or_ge j lemmas.length with hlt | hge
  · rw [List.getElem?_append_left hlt] at hj
    rw [List.take_append_of_le_length (Nat.le_of_lt hlt)]
    exact h.follows j c hj
  · have he : j = lemmas.length := by
      have hlt := (List.getElem?_eq_some_iff.mp hj).1
      simp only [List.length_append, List.length_singleton] at hlt
      omega
    subst he
    rw [List.take_left]
    exact Or.inr (h.conflict.within (fun k hk => ⟨k, hk, Clause.Same.refl k⟩) fun _ hl => hl.elim)

/-- A certificate is accepted. -/
theorem accepted (h : Certificate core lemmas) (hm : core.length + lemmas.length + 1 < 2147483648)
    (settings : Settings) :
    ∃ r, (extract settings core (lemmas.map .add ++ [.add []])).result = .ok r := by
  have hlines : lemmas.map Derivation.Line.add ++ [.add []] = (lemmas ++ [[]]).map .add := by simp
  rw [hlines]
  refine exists_ok_of_follows ?_ (by simpa [← Nat.add_assoc] using hm) (by simp)
    (fun j c hj => h.follows_closed hj) settings
  intro c hc l hl
  rw [← List.append_assoc, List.mem_append, List.mem_singleton] at hc
  rcases hc with hc | rfl
  · exact h.proper c hc l hl
  · cases hl

end Certificate

/-- The lemmas that were checked, in the order of their lines, refute the core: each follows from
the core and the lemmas before it, and with an empty lemma after them they are accepted. -/
theorem extract_trimmed {settings : Settings} {core : Core} (hm : f.length + d.length < 2 ^ 31 - 1)
    (h : (extract settings f d).result = .ok core) (ht : core.trivial = false) :
    ∃ (s : State) (lemmas : List Clause), run settings f d (.initial (maxVar f d)) = .ok (core, s) ∧
      s.justified.Pairwise (· < ·) ∧ d.linesAt s.justified = lemmas.map .add ∧
      (∀ (i : Nat) (c : Clause), lemmas[i]? = some c →
        c.FollowsFrom (core.clauses ++ lemmas.take i)) ∧
      ∀ settings', ∃ core',
        (extract settings' core.clauses (d.linesAt s.justified ++ [.add []])).result =
          .ok core' := by
  obtain ⟨s, hrun⟩ := extract_eq_ok_iff.mp h
  have hacc := accepted_of_run hrun
  simp only [Accepted, ht, Bool.false_eq_true, if_false] at hacc
  obtain ⟨lemmas, hlines, hcert⟩ := hacc.certificate
  have hlen : lemmas.length ≤ d.length := by
    have hle := (d.linesAt_sublist hacc.ordered).length_le
    rwa [hlines, List.length_map] at hle
  have hcore := hacc.sublist.length_le
  refine ⟨s, lemmas, hrun, hacc.ordered, hlines, hcert.follows, fun settings' => ?_⟩
  rw [hlines]
  exact hcert.accepted (by omega) settings'

/-- The derivation of the empty clause by way of two units is trimmed to the first of them. -/
theorem extract_trimmed_signings : ∃ (core : Core) (s : State) (lemmas : List Clause),
    run {} (Signings.clauses 2) [.add [Signings.literal 1], .add [-Signings.literal 1], .add []]
      (.initial 2) = .ok (core, s) ∧
      Derivation.linesAt [.add [Signings.literal 1], .add [-Signings.literal 1], .add []]
        s.justified = lemmas.map .add ∧
      ∀ settings, ∃ core', (extract settings core.clauses
        (Derivation.linesAt [.add [Signings.literal 1], .add [-Signings.literal 1], .add []]
          s.justified ++ [.add []])).result = .ok core' := by
  obtain ⟨core, h, ht⟩ := exists_ok_of_trivial (b := false)
    (o := extract {} (Signings.clauses 2)
      [.add [Signings.literal 1], .add [-Signings.literal 1], .add []]) (by decide +kernel)
  obtain ⟨s, lemmas, hrun, -, hlines, -, hok⟩ := extract_trimmed (by decide) h ht
  exact ⟨core, s, lemmas, hrun, hlines, hok⟩

end UnsatCore
