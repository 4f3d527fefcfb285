import UnsatCore.Proofs.Coherence

/-! The lists that one clause is on. Each operation on a watch list changes them for one literal, and
what the other clauses have on the lists stays. Attaching, detaching, moving and marking are two such
operations each. -/
namespace UnsatCore.Engine

variable {n : Nat} {A A' : Set Handle} {a a' : Arena} {t t' t₁ : WatchTable} {c : Handle}
  {l m x y : Literal} {b : Bool} {rest : Clause} {own : Literal → Option Bool} {v w : Watcher}
  {ws pre post : List Watcher}

/-- The watchers of a clause on the list of a literal, if `own` tells whether it is there and with
which flag. -/
def ownWatchers (c : Handle) (own : Literal → Option Bool) (l : Literal) : List Watcher :=
  ((own l).map (Watcher.mk c)).toList

theorem mem_ownWatchers : w ∈ ownWatchers c own l ↔ w.clause = c ∧ own l = some w.core := by
  cases w
  simp only [ownWatchers, Option.mem_toList, Option.map_eq_some_iff, Watcher.mk.injEq]
  constructor
  · rintro ⟨b, hb, rfl, rfl⟩
    exact ⟨rfl, hb⟩
  · rintro ⟨rfl, hb⟩
    exact ⟨_, hb, rfl, rfl⟩

theorem nodup_ownWatchers : ((ownWatchers c own l).map Watcher.clause).Nodup := by
  unfold ownWatchers
  cases own l <;> simp

/-- The lists of `t'` have the watchers of other clauses that are in `t`, and of the clause `c` those
that `own` tells. -/
structure Enlisted (n : Nat) (t : WatchTable) (c : Handle) (own : Literal → Option Bool)
    (t' : WatchTable) : Prop where
  fits : t'.Fits n
  perm : ∀ l, (t'.watchers l).Perm (ownWatchers c own l ++ (t.watchers l).filter (·.clause ≠ c))

namespace Enlisted

theorem mem_iff (h : Enlisted n t c own t') : w ∈ t'.watchers l ↔
    w.clause = c ∧ own l = some w.core ∨ w.clause ≠ c ∧ w ∈ t.watchers l := by
  rw [(h.perm l).mem_iff, List.mem_append, mem_ownWatchers, List.mem_filter, decide_eq_true_eq,
    and_comm (a := w ∈ t.watchers l)]

theorem mem (h : Enlisted n t c own t') (ho : own l = some b) : ⟨c, b⟩ ∈ t'.watchers l :=
  h.mem_iff.mpr (Or.inl ⟨rfl, ho⟩)

/-- The list of one literal changes. -/
theorem of_list {o : Option Bool} (h : Enlisted n t c own t') (hf : t₁.Fits n)
    (hself : (t₁.watchers l).Perm ((o.map (Watcher.mk c)).toList ++
      (t.watchers l).filter (·.clause ≠ c)))
    (hother : ∀ m, m ≠ l → t₁.watchers m = t'.watchers m) :
    Enlisted n t c (Function.update own l o) t₁ where
  fits := hf
  perm := by
    intro m
    by_cases hm : m = l
    · subst hm
      simpa [ownWatchers] using hself
    · rw [hother m hm, ownWatchers, Function.update_of_ne hm]
      exact h.perm m

/-- Beside a watcher of `c` a list has those of other clauses only. -/
theorem perm_others (h : Enlisted n t c own t') (hv : v.clause = c)
    (hp : (v :: ws).Perm (t'.watchers l)) :
    ws.Perm ((t.watchers l).filter (·.clause ≠ c)) := by
  subst hv
  have hown : own l = some v.core := by
    rcases h.mem_iff.mp (hp.mem_iff.mp List.mem_cons_self) with ⟨-, hown⟩ | ⟨hne, -⟩
    · exact hown
    · exact (hne rfl).elim
  have hlist := hp.trans (h.perm l)
  rw [ownWatchers, hown] at hlist
  exact hlist.cons_inv

theorem removed (h : Enlisted n t c own t') (hf : t₁.Fits n) (hv : v.clause = c)
    (hp : (v :: t₁.watchers l).Perm (t'.watchers l))
    (hother : ∀ m, m ≠ l → t₁.watchers m = t'.watchers m) :
    Enlisted n t c (Function.update own l none) t₁ :=
  h.of_list hf (h.perm_others hv hp) hother

theorem inserted (h : Enlisted n t c own t') (ho : own l = none) (hf : t₁.Fits n)
    (hself : t₁.watchers l = t'.watchers l ++ [⟨c, b⟩])
    (hother : ∀ m, m ≠ l → t₁.watchers m = t'.watchers m) :
    Enlisted n t c (Function.update own l (some b)) t₁ := by
  refine h.of_list hf ?_ hother
  have hold := h.perm l
  rw [ownWatchers, ho] at hold
  rw [hself]
  exact (List.perm_append_singleton _ _).trans (hold.cons _)

theorem marked (h : Enlisted n t c own t') (hf : t₁.Fits n) (hv : v.clause = c)
    (hs : t'.watchers l = pre ++ v :: post) (hself : t₁.watchers l = pre ++ ⟨c, true⟩ :: post)
    (hother : ∀ m, m ≠ l → t₁.watchers m = t'.watchers m) :
    Enlisted n t c (Function.update own l (some true)) t₁ := by
  refine h.of_list hf ?_ hother
  rw [hself]
  exact List.perm_middle.trans ((h.perm_others hv (hs ▸ List.perm_middle.symm)).cons _)

theorem insert (h : Enlisted n t c own t') (hl : l.var.index ≤ n) (ho : own l = none) (b : Bool) :
    ∃ t₁, t'.insert l ⟨c, b⟩ = .ok t₁ ∧ Enlisted n t c (Function.update own l (some b)) t₁ := by
  obtain ⟨t₁, hrun, hf, hself, hother⟩ := h.fits.insert hl ⟨c, b⟩
  exact ⟨t₁, hrun, h.inserted ho hf hself hother⟩

theorem remove (h : Enlisted n t c own t') (hl : l.var.index ≤ n) (ho : own l = some b) :
    ∃ t₁, t'.remove l c = .ok t₁ ∧ Enlisted n t c (Function.update own l none) t₁ := by
  obtain ⟨t₁, v, hrun, hf, hv, hp, hother⟩ := h.fits.remove hl (h.mem ho) rfl
  exact ⟨t₁, hrun, h.removed hf hv hp hother⟩

theorem mark (h : Enlisted n t c own t') (hl : l.var.index ≤ n) (ho : own l = some b) :
    ∃ t₁, t'.mark l c = .ok t₁ ∧ Enlisted n t c (Function.update own l (some true)) t₁ ∧
      t₁.clauses = t'.clauses := by
  obtain ⟨t₁, pre, v, post, hrun, hf, hv, hs, hself, hother⟩ := h.fits.mark hl (h.mem ho) rfl
  refine ⟨t₁, hrun, h.marked hf hv hs hself hother, funext fun m => ?_⟩
  by_cases hm : m = l
  · subst hm
    simp [WatchTable.clauses, hself, hs, hv]
  · simp [WatchTable.clauses, hother m hm]

/-- Only the watchers of the clause `c` change. -/
theorem watched (he : Enlisted n t c own t') (h : Watched n A a t)
    (hown : ∀ l b, own l = some b ↔ c ∈ A' ∧ b = a'.inCore c ∧ l ∈ (a'.literals c).take 2)
    (hA : ∀ d, d ≠ c → (d ∈ A' ↔ d ∈ A))
    (ha : ∀ d ∈ A, d ≠ c → a'.literals d = a.literals d ∧ a'.inCore d = a.inCore d) :
    Watched n A' a' t' := by
  refine ⟨he.fits, fun l => ?_, fun l w => ?_⟩
  · rw [((he.perm l).map _).nodup_iff, List.map_append]
    refine List.nodup_append'.mpr
      ⟨nodup_ownWatchers, (h.nodup l).sublist (List.filter_sublist.map _), fun d hd hd' => ?_⟩
    obtain ⟨w, hw, rfl⟩ := List.mem_map.mp hd
    obtain ⟨w', hw', he⟩ := List.mem_map.mp hd'
    simp [he, (mem_ownWatchers.mp hw).1] at hw'
  · rw [he.mem_iff]
    by_cases hwc : w.clause = c
    · subst hwc
      simp [hown]
    · simp only [hwc, false_and, false_or, ne_eq, not_false_eq_true, true_and]
      rw [h.mem_iff l w, hA _ hwc]
      refine and_congr_right fun hwA => ?_
      rw [(ha _ hwA hwc).1, (ha _ hwA hwc).2]

end Enlisted

/-- On the lists of both literals. -/
def onBoth (x y : Literal) (b : Bool) (l : Literal) : Option Bool :=
  if l = x ∨ l = y then some b else none

section OnBoth

theorem onBoth_left : onBoth x y b x = some b := if_pos (Or.inl rfl)

theorem onBoth_right : onBoth x y b y = some b := if_pos (Or.inr rfl)

theorem onBoth_insert : Function.update (Function.update (fun _ => none) x (some b)) y (some b) =
    onBoth x y b := by
  funext l
  simp only [onBoth, Function.update_apply]
  split <;> split <;> simp_all

theorem onBoth_remove : Function.update (Function.update (onBoth x y b) x none) y none =
    fun _ => none := by
  funext l
  simp only [onBoth, Function.update_apply]
  split <;> simp_all

theorem onBoth_mark : Function.update (Function.update (onBoth x y b) x (some true)) y (some true) =
    onBoth x y true := by
  funext l
  simp only [onBoth, Function.update_apply]
  split <;> split <;> simp_all

theorem onBoth_move (hne : x ≠ y) :
    Function.update (Function.update (onBoth x y b) y none) m (some b) = onBoth x m b := by
  funext l
  by_cases hl : l = y
  · simp [onBoth, Function.update_apply, hl, Ne.symm hne]
  · simp only [onBoth, Function.update_apply, hl, or_false, if_false]
    split <;> split <;> simp_all

theorem onBoth_eq_some_iff (hc : c ∈ A) (hl : a.literals c = x :: y :: rest) :
    onBoth x y (a.inCore c) l = some b ↔ c ∈ A ∧ b = a.inCore c ∧ l ∈ (a.literals c).take 2 := by
  simp [onBoth, hc, hl, eq_comm, and_comm]

end OnBoth

namespace Watched

theorem enlisted (h : Watched n A a t) (hown : ∀ l b, own l = some b ↔
    c ∈ A ∧ b = a.inCore c ∧ l ∈ (a.literals c).take 2) : Enlisted n t c own t where
  fits := h.fits
  perm := by
    intro l
    have hnd := (h.nodup l).of_map
    refine (List.perm_ext_iff_of_nodup hnd ?_).mpr fun w => ?_
    · refine List.nodup_append'.mpr ⟨nodup_ownWatchers.of_map, hnd.filter _, fun w hw hw' => ?_⟩
      simp [(mem_ownWatchers.mp hw).1] at hw'
    · rw [List.mem_append, mem_ownWatchers, List.mem_filter, decide_eq_true_eq, hown, h.mem_iff]
      by_cases hwc : w.clause = c
      · simp [hwc]
      · simp [hwc]

/-- An attached clause is on the lists of its first two literals. -/
theorem enlisted_both (h : Watched n A a t) (hc : c ∈ A) (hl : a.literals c = x :: y :: rest) :
    Enlisted n t c (onBoth x y (a.inCore c)) t :=
  h.enlisted fun _ _ => onBoth_eq_some_iff hc hl

theorem attach (h : Watched n A a t) (hc : c ∉ A) (hl : a.literals c = x :: y :: rest)
    (hne : x ≠ y) (hx : x.var.index ≤ n) (hy : y.var.index ≤ n) :
    ∃ t₁ t₂, t.insert x ⟨c, a.inCore c⟩ = .ok t₁ ∧ t₁.insert y ⟨c, a.inCore c⟩ = .ok t₂ ∧
      Watched n (insert c A) a t₂ := by
  have hnone : Enlisted n t c (fun _ => none) t := h.enlisted fun _ _ => by simp [hc]
  obtain ⟨t₁, h₁, hone⟩ := hnone.insert hx rfl (a.inCore c)
  obtain ⟨t₂, h₂, htwo⟩ := hone.insert hy (Function.update_of_ne (Ne.symm hne) _ _) (a.inCore c)
  rw [onBoth_insert] at htwo
  exact ⟨t₁, t₂, h₁, h₂, htwo.watched h (fun _ _ => onBoth_eq_some_iff (Set.mem_insert c A) hl)
    (fun d hd => by simp [hd]) fun _ _ _ => ⟨rfl, rfl⟩⟩

theorem detach (h : Watched n A a t) (hc : c ∈ A) (hl : a.literals c = x :: y :: rest)
    (hne : x ≠ y) (hx : x.var.index ≤ n) (hy : y.var.index ≤ n) :
    ∃ t₁ t₂, t.remove x c = .ok t₁ ∧ t₁.remove y c = .ok t₂ ∧ Watched n (A \ {c}) a t₂ := by
  obtain ⟨t₁, h₁, hone⟩ := (h.enlisted_both hc hl).remove hx onBoth_left
  obtain ⟨t₂, h₂, hnone⟩ :=
    hone.remove hy ((Function.update_of_ne (Ne.symm hne) _ _).trans onBoth_right)
  rw [onBoth_remove] at hnone
  exact ⟨t₁, t₂, h₁, h₂, hnone.watched h (fun _ _ => by simp) (fun d hd => by simp [hd])
    fun _ _ _ => ⟨rfl, rfl⟩⟩

theorem mark (h : Watched n A a t) (hc : c ∈ A) (hl : a.literals c = x :: y :: rest)
    (hne : x ≠ y) (hx : x.var.index ≤ n) (hy : y.var.index ≤ n) (hk : a.Kept a' c)
    (hA : ∀ d ∈ A, a.Has d) (hlc : a'.literals c = a.literals c) (hic : a'.inCore c = true) :
    ∃ t₁ t₂, t.mark x c = .ok t₁ ∧ t₁.mark y c = .ok t₂ ∧ Watched n A a' t₂ ∧
      t₂.clauses = t.clauses := by
  obtain ⟨t₁, h₁, hone, hcl₁⟩ := (h.enlisted_both hc hl).mark hx onBoth_left
  obtain ⟨t₂, h₂, htwo, hcl₂⟩ :=
    hone.mark hy ((Function.update_of_ne (Ne.symm hne) _ _).trans onBoth_right)
  rw [onBoth_mark, ← hic] at htwo
  exact ⟨t₁, t₂, h₁, h₂, htwo.watched h (fun _ _ => onBoth_eq_some_iff hc (hlc.trans hl))
    (fun _ _ => Iff.rfl) fun d hd hdc => ⟨hk.literals d (hA d hd) hdc, hk.inCore d (hA d hd) hdc⟩,
    hcl₂.trans hcl₁⟩

/-- A clause that is visited on the list of `y` goes over to the list of `m`. -/
theorem move {rest' : Clause} (h : Watched n A a t) (hA : ∀ d ∈ A, a.Has d) (hc : c ∈ A)
    (hl : a.literals c = x :: y :: rest) (hl' : a'.literals c = x :: m :: rest')
    (hxy : x ≠ y) (hxm : x ≠ m) (hym : y ≠ m) (hy : y.var.index ≤ n) (hm : m.var.index ≤ n)
    (hk : a.Kept a' c) (hi : a'.inCore c = a.inCore c)
    (hw : t.watchers y = pre ++ ⟨c, a.inCore c⟩ :: post) :
    ∃ t₁ t₂ left, t.removeAt y pre.length = .ok t₁ ∧
      t₁.insert m ⟨c, a.inCore c⟩ = .ok t₂ ∧ Watched n A a' t₂ ∧
      t₂.watchers y = pre ++ left ∧ left.Perm post ∧
      t₂.watchers m = t.watchers m ++ [⟨c, a.inCore c⟩] ∧
      ∀ k, k ≠ y → k ≠ m → t₂.watchers k = t.watchers k := by
  obtain ⟨t₁, left, h₁, hf₁, hself₁, hp, hother₁⟩ := h.fits.removeAt hy hw
  obtain ⟨t₂, h₂, hf₂, hself₂, hother₂⟩ := hf₁.insert hm ⟨c, a.inCore c⟩
  have hperm : (⟨c, a.inCore c⟩ :: t₁.watchers y).Perm (t.watchers y) := by
    rw [hself₁, hw]
    exact ((hp.append_left pre).cons _).trans List.perm_middle.symm
  have hone := (h.enlisted_both hc hl).removed hf₁ rfl hperm hother₁
  have hnot : Function.update (onBoth x y (a.inCore c)) y none m = none := by
    simp [onBoth, Function.update_of_ne, Ne.symm hym, Ne.symm hxm]
  have htwo := hone.inserted hnot hf₂ hself₂ hother₂
  rw [onBoth_move hxy, ← hi] at htwo
  refine ⟨t₁, t₂, left, h₁, h₂, htwo.watched h (fun _ _ => onBoth_eq_some_iff hc hl')
    (fun _ _ => Iff.rfl) fun d hd hdc => ⟨hk.literals d (hA d hd) hdc, hk.inCore d (hA d hd) hdc⟩,
    (hother₂ y hym).trans hself₁, hp, ?_, fun k hky hkm => (hother₂ k hkm).trans (hother₁ k hky)⟩
  rw [hself₂, hother₁ m (Ne.symm hym)]

end Watched

end UnsatCore.Engine
