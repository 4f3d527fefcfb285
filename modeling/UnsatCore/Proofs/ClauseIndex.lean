import UnsatCore.ClauseIndex
import UnsatCore.Proofs.Arena
import UnsatCore.Proofs.Live
import UnsatCore.Proofs.WatchTable

/-! The index finds a clause exactly if one with its literals can be deleted: the digest does not
depend on the order of the literals, so all candidates are in one bucket. -/
namespace UnsatCore

variable {c d : Clause} {a a' : Arena} {t : ClauseIndex} {alive : List Handle} {h : Handle}
  {i : Nat}

theorem Clause.folds_perm (hp : c.Perm d) : c.folds = d.folds := by
  unfold Clause.folds
  apply hp.foldl_eq'
  intro l _ m _ acc
  simp only [Prod.mk.injEq]
  refine ⟨?_, ?_, ?_⟩
  · rw [UInt64.add_assoc, UInt64.add_assoc, UInt64.add_comm (Int64.toUInt64 _)]
  · rw [UInt64.mul_assoc, UInt64.mul_assoc, UInt64.mul_comm (Int64.toUInt64 _)]
  · rw [UInt64.xor_assoc, UInt64.xor_assoc, UInt64.xor_comm (Int64.toUInt64 _)]

theorem Clause.digest_perm (hp : c.Perm d) : c.digest = d.digest := by
  simp only [Clause.digest, Clause.folds_perm hp]

namespace ClauseIndex

/-- The bucket of a digest has the handles of the clauses with that digest, in some order. -/
def Lists (a : Arena) (t : ClauseIndex) (alive : List Handle) : Prop :=
  ∀ k, (t.buckets.getD k #[]).toList.Perm (alive.filter fun h => (a.literals h).digest = k)

theorem lists_empty (a : Arena) : Lists a empty [] := by
  intro k
  simp [empty]

theorem getD_modify (t : ClauseIndex) (c : Clause) (g : Array Handle → Array Handle) (k : UInt64) :
    (t.modify c g).buckets.getD k #[] =
      if c.digest = k then g (t.bucket c) else t.buckets.getD k #[] := by
  simp only [modify, bucket, Std.TreeMap.getD_alter, Std.LawfulEqCmp.compare_eq_iff_eq]
  split
  · rename_i he
    simp [Std.TreeMap.getD_eq_getD_getElem?]
  · rfl

theorem Lists.insert (ht : Lists a t alive) (hl : a'.literals h = c)
    (ha : ∀ d ∈ alive, a'.literals d = a.literals d) : Lists a' (t.insert c h) (h :: alive) := by
  intro k
  have hold : alive.filter (fun d => (a'.literals d).digest = k) =
      alive.filter fun d => (a.literals d).digest = k :=
    List.filter_congr fun d hd => by rw [ha d hd]
  rw [ClauseIndex.insert, getD_modify, List.filter_cons, hl, hold]
  by_cases hk : c.digest = k
  · subst hk
    simp only [decide_true, if_true, Array.toList_push]
    exact (List.perm_append_singleton _ _).trans ((ht c.digest).cons h)
  · simpa [hk] using ht k

theorem Lists.perm {alive' : List Handle} (ht : Lists a t alive) (hp : alive.Perm alive') :
    Lists a t alive' := fun k => (ht k).trans (hp.filter _)

theorem Lists.removeAt (ht : Lists a t alive) (hi : (t.bucket c)[i]? = some h) (hh : h ∈ alive)
    (hd : (a.literals h).digest = c.digest) : Lists a (t.removeAt c i) (alive.erase h) := by
  intro k
  have hold := ht k
  rw [((List.perm_cons_erase hh).filter _).congr_right, List.filter_cons, hd] at hold
  rw [ClauseIndex.removeAt, getD_modify]
  by_cases hk : c.digest = k
  · subst hk
    simp only [decide_true, if_true] at hold ⊢
    rw [← Array.getElem?_toList] at hi
    obtain ⟨pre, post, hsplit, rfl⟩ := exists_eq_append_cons hi
    obtain ⟨rest, hr, hp⟩ := toList_swapRemove hsplit
    rw [hr]
    have hwhole : (h :: (pre ++ rest)).Perm (t.bucket c).toList := by
      rw [hsplit]
      exact ((hp.append_left pre).cons h).trans List.perm_middle.symm
    exact (hwhole.trans hold).cons_inv
  · simpa [hk] using hold

/-- The test in a bucket compares sets of literals. -/
theorem holds_iff (hh : a.Has h) (hn : (a.literals h).Nodup) (hc : c.Nodup) :
    holds a c h = true ↔ c.Same (a.literals h) := by
  simp only [holds, hh.length, Bool.and_eq_true, beq_iff_eq, List.all_eq_true,
    List.contains_eq_mem, decide_eq_true_eq]
  constructor
  · rintro ⟨hlen, hsub⟩
    have hp := (List.subperm_of_subset hn hsub).perm_of_length_le (Nat.le_of_eq hlen.symm)
    exact fun l => hp.mem_iff.symm
  · intro hs
    exact ⟨(hs.perm hc hn).length_eq.symm, fun l => (hs l).mpr⟩

theorem mem_bucket (ht : Lists a t alive) :
    h ∈ t.bucket c ↔ h ∈ alive ∧ (a.literals h).digest = c.digest := by
  rw [← Array.mem_toList_iff, bucket, (ht c.digest).mem_iff, List.mem_filter, decide_eq_true_eq]

/-- Where nothing is found, there is nothing. -/
theorem not_same_of_lookup? (ht : Lists a t alive) (hc : c.Nodup)
    (ha : ∀ h ∈ alive, a.Has h ∧ (a.literals h).Nodup) (hn : t.lookup? a c = none) :
    ∀ h ∈ alive, ¬ c.Same (a.literals h) := by
  intro h hh hs
  obtain ⟨hhas, hnd⟩ := ha h hh
  have hmem : h ∈ t.bucket c := (mem_bucket ht).mpr ⟨hh, Clause.digest_perm (hs.perm hc hnd).symm⟩
  have hfind : t.find? a c ≠ none := by
    rw [find?, Ne, Array.findIdx?_eq_none_iff]
    intro hno
    have := hno h hmem
    rw [(holds_iff hhas hnd hc).mpr hs] at this
    cases this
  obtain ⟨i, hi⟩ := Option.ne_none_iff_exists'.mp hfind
  obtain ⟨hlt, -, -⟩ := Array.findIdx?_eq_some_iff_getElem.mp hi
  simp [lookup?, hi, hlt] at hn

theorem same_of_lookup? (ht : Lists a t alive) (hc : c.Nodup)
    (ha : ∀ h ∈ alive, a.Has h ∧ (a.literals h).Nodup) (hs : t.lookup? a c = some (i, h)) :
    (t.bucket c)[i]? = some h ∧ h ∈ alive ∧ c.Same (a.literals h) ∧
      (a.literals h).digest = c.digest := by
  simp only [lookup?] at hs
  split at hs
  · cases hs
  · rename_i j hj
    obtain ⟨hlt, hholds, -⟩ := Array.findIdx?_eq_some_iff_getElem.mp hj
    rw [Array.getElem?_eq_getElem hlt] at hs
    simp only [Option.map_some, Option.some.injEq, Prod.mk.injEq] at hs
    obtain ⟨rfl, rfl⟩ := hs
    obtain ⟨hmem, hdig⟩ := (mem_bucket ht).mp (Array.getElem_mem hlt)
    obtain ⟨hhas, hnd⟩ := ha _ hmem
    exact ⟨Array.getElem?_eq_getElem hlt, hmem, (holds_iff hhas hnd hc).mp hholds, hdig⟩

end ClauseIndex

end UnsatCore
