import UnsatCore.Engine.Dependency
import UnsatCore.Proofs.Attachment

/-! What a conflict depends on is closed under reasons, all of it enters the core, and unit
propagation over these clauses alone meets the conflict again. -/
namespace UnsatCore.Engine

open CheckM

variable {n i : Nat} {F G : Prop} {R : Rejection → State → Prop} {body : Handle → Clause}
  {A C D : Set Handle} {K : Set Literal} {a a' : Arena} {t t' : WatchTable} {s s' : State}
  {c d : Handle} {l x y : Literal} {rest : Clause} {es : List Entry} {e : Entry}

/-- The arena `a'` is `a` with the clauses of `C` put into the core. -/
structure Enlarged (a a' : Arena) (C : Set Handle) : Prop where
  has : ∀ d, a'.Has d ↔ a.Has d
  literals : ∀ d, a.Has d → a'.literals d = a.literals d
  inCore : ∀ d, a.Has d → (a'.inCore d = true ↔ a.inCore d = true ∨ d ∈ C)

theorem Enlarged.refl (a : Arena) : Enlarged a a ∅ :=
  ⟨fun _ => Iff.rfl, fun _ _ => rfl, by simp⟩

theorem Enlarged.trans {a₁ a₂ a₃ : Arena} (h : Enlarged a₁ a₂ C) (h' : Enlarged a₂ a₃ D) :
    Enlarged a₁ a₃ (C ∪ D) where
  has := fun d => (h'.has d).trans (h.has d)
  literals := fun d hd => (h'.literals d ((h.has d).mpr hd)).trans (h.literals d hd)
  inCore := fun d hd => by
    rw [h'.inCore d ((h.has d).mpr hd), h.inCore d hd, Set.mem_union, or_assoc]

/-- The clauses of `C` entered the core or were in it, and each was counted once. No clause moved on
a watch list. -/
structure Entered (C : Set Handle) (s s' : State) : Prop where
  enlarged : Enlarged s.arena s'.arena C
  clauses : s'.watches.clauses = s.watches.clauses
  counters : ∃ hs : List Handle, hs.Nodup ∧ (∀ d, d ∈ hs ↔ d ∈ C) ∧
    s'.counters = { s.counters with resolutions := s.counters.resolutions + hs.length }

namespace Entered

theorem refl (s : State) : Entered ∅ s s := ⟨.refl s.arena, rfl, [], by simp, by simp, rfl⟩

theorem trans {s₁ s₂ s₃ : State} (h : Entered C s₁ s₂) (h' : Entered D s₂ s₃)
    (hd : ∀ d ∈ C, d ∉ D) : Entered (C ∪ D) s₁ s₃ := by
  obtain ⟨hs, hnd, hm, hc⟩ := h.counters
  obtain ⟨hs', hnd', hm', hc'⟩ := h'.counters
  refine ⟨h.enlarged.trans h'.enlarged, h'.clauses.trans h.clauses, hs ++ hs', ?_, fun d => ?_, ?_⟩
  · refine List.nodup_append'.mpr ⟨hnd, hnd', fun d hdm hdm' => ?_⟩
    exact hd d ((hm d).mp hdm) ((hm' d).mp hdm')
  · rw [List.mem_append, hm, hm']
    exact Iff.rfl
  · rw [hc', hc, List.length_append, ← Nat.add_assoc]

end Entered

theorem enlarged_of_kept (hk : a.Kept a' c) (hlc : a'.literals c = a.literals c)
    (hic : a'.inCore c = true) : Enlarged a a' {c} where
  has := hk.has
  literals := by
    intro d hd
    by_cases he : d = c
    · exact he ▸ hlc
    · exact hk.literals d hd he
  inCore := by
    intro d hd
    by_cases he : d = c
    · simp [he, hic]
    · simp [he, hk.inCore d hd he]

theorem ends_enterCore (h : Coherent n F body A s) (hc : s.arena.Has c)
    (hA : 2 ≤ (s.arena.literals c).length → c ∈ A) :
    Ends G R (enterCore c) s fun _ s' => Coherent n F body A s' ∧
      s' = { s with arena := s'.arena, watches := s'.watches } ∧
      Enlarged s.arena s'.arena {c} ∧ s'.watches.clauses = s.watches.clauses := by
  obtain ⟨a', hm, hk, hlc, hic, -⟩ := hc.markCore
  have hc' : a'.Has c := (hk.has c).mpr hc
  have hen := enlarged_of_kept hk hlc hic
  simp only [enterCore, ends_bind, ends_markCore, hm, yields_ok, ends_ite, Bool.not_eq_true']
  by_cases hcore : s.arena.inCore c = true
  · have hw : Watched n A a' s.watches := by
      apply h.watched.congr
      · exact fun d hd => hen.literals d (h.attached d hd).1
      · intro d hd
        by_cases he : d = c
        · rw [he, hic, hcore]
        · exact hk.inCore d (h.attached d hd).1 he
    simpa [hcore] using ⟨h.replace hk hc (by rw [hlc]) (fun _ _ _ => hlc) hw, hen⟩
  · simp only [hcore, if_true, watchable, ends_ask, hc'.isWatchable, yields_ok,
      decide_eq_true_eq, show a'.literals c = _ from hlc]
    split
    · rename_i hlen
      obtain ⟨x, y, rest, hl, hne, hx, hy⟩ := h.watches hc hlen
      obtain ⟨t₁, t₂, h₁, h₂, hw, hclauses⟩ := h.watched.mark (hA hlen) hl hne hx hy hk
        (fun d hd => (h.attached d hd).1) hlc hic
      have hx₀ := hc'.literal (i := 0) (l := x) (by simp [hlc, hl])
      have hy₀ := hc'.literal (i := 1) (l := y) (by simp [hlc, hl])
      simp only [markWatchers, literalOf, ends_bind, ends_ask, hx₀, hy₀, yields_ok,
        ends_onWatches, h₁, h₂]
      exact ⟨h.replace hk hc (by rw [hlc]) (fun _ _ _ => hlc) hw, trivial, hen, hclauses⟩
    · rename_i hlen
      have hw : Watched n A a' s.watches := by
        apply h.watched.congr
        · exact fun d hd => hen.literals d (h.attached d hd).1
        · intro d hd
          apply hk.inCore d (h.attached d hd).1
          rintro rfl
          exact hlen (h.attached d hd).2
      exact ⟨h.replace hk hc (by rw [hlc]) (fun _ _ _ => hlc) hw, rfl, hen, rfl⟩

/-- The entries and the bounds of a trail; only marks may differ. -/
structure Alike (t t' : Trail) : Prop where
  entries : t'.entries = t.entries
  processed : t'.processed = t.processed
  forced : t'.forced = t.forced

theorem Alike.refl (t : Trail) : Alike t t := ⟨rfl, rfl, rfl⟩

theorem Alike.trans {t₁ t₂ t₃ : Trail} (h : Alike t₁ t₂) (h' : Alike t₂ t₃) : Alike t₁ t₃ :=
  ⟨h'.entries.trans h.entries, h'.processed.trans h.processed, h'.forced.trans h.forced⟩

theorem Alike.falsified {t t' : Trail} (h : Alike t t') : t'.falsified = t.falsified :=
  Trail.falsified_of_entries h.entries

theorem Coherent.withTrail {t : Trail} (h : Coherent n F body A s) (ht : t.Wf n)
    (hg : Grounded s.arena t.entries) : Coherent n F body A { s with trail := t } :=
  ⟨h.stored, h.attached, h.watched, ht, hg⟩

theorem ends_markLiterals {ls : Clause} (h : Coherent n F body A s)
    (hl : ∀ l ∈ ls, l ∈ s.trail.falsified) :
    Ends G R (markLiterals ls) s fun _ s' => Coherent n F body A s' ∧
      s' = { s with trail := s'.trail } ∧ Alike s.trail s'.trail ∧
      ∀ m, s'.trail.Marked m ↔ m ∈ ls ∨ s.trail.Marked m := by
  induction ls generalizing s with
  | nil => exact ⟨h, rfl, Alike.refl _, by simp⟩
  | cons l ls ih =>
    obtain ⟨t, hm, hw, he, hp, hf, hmark⟩ := h.trail.mark (hl l (by simp))
    have halike : Alike s.trail t := ⟨he, hp, hf⟩
    simp only [markLiterals, ends_bind, ends_onTrail, hm, yields_ok]
    have h' := h.withTrail hw (he ▸ h.grounded)
    refine (ih h' ?_).mono ?_
    · intro m hm
      rw [halike.falsified]
      exact hl m (by simp [hm])
    · rintro - s' ⟨hs', heq, ha, hmarks⟩
      refine ⟨hs', heq, halike.trans ha, ?_⟩
      intro m
      rw [hmarks, hmark, List.mem_cons]
      tauto

/-- A needed clause enters the core and marks its literals from `i` on. -/
theorem ends_need (h : Coherent n F body A s) (hc : s.arena.Has c)
    (hA : 2 ≤ (s.arena.literals c).length → c ∈ A) (hi : i ≤ (s.arena.literals c).length)
    (hl : ∀ l ∈ (s.arena.literals c).drop i, l ∈ s.trail.falsified) :
    Ends G R (need c i) s fun _ s' => Coherent n F body A s' ∧ Framed s s' ∧
      Entered {c} s s' ∧ Alike s.trail s'.trail ∧
      ∀ m, s'.trail.Marked m ↔ m ∈ (s.arena.literals c).drop i ∨ s.trail.Marked m := by
  simp only [need, ends_bind, ends_count]
  have h₀ : Coherent n F body A { s with counters := s.counters.countResolution } :=
    ⟨h.stored, h.attached, h.watched, h.trail, h.grounded⟩
  refine (ends_enterCore h₀ hc hA).mono ?_
  rintro - s₁ ⟨h₁, heq₁, hen, hclauses⟩
  have hlit := hen.literals c hc
  have htrail : s₁.trail = s.trail := by rw [heq₁]
  simp only [bodyOf, ends_ask, ((hen.has c).mpr hc).body (hlit.symm ▸ hi), yields_ok, hlit]
  refine (ends_markLiterals h₁ (by rwa [htrail])).mono ?_
  rintro - s₂ ⟨h₂, heq₂, ha, hmarks⟩
  rw [htrail] at ha hmarks
  refine ⟨h₂, ?_, ⟨?_, ?_, [c], by simp, by simp, ?_⟩, ha, hmarks⟩
  · rw [heq₂, heq₁]
    exact ⟨rfl, rfl, rfl, rfl⟩
  · have harena : s₂.arena = s₁.arena := by rw [heq₂]
    rw [harena]
    exact hen
  · rw [heq₂]
    exact hclauses
  · rw [heq₂, heq₁]
    rfl

/-- The literals that a reason marks lie below the entry that it forced. -/
theorem Grounded.lower {pre post : List Entry} {m : Literal} (h : Grounded a es)
    (he : es = pre ++ e :: post) (hr : e.reason = some c) (hm : m ∈ (a.literals c).tail) :
    m ∈ pre.map Entry.literal := by
  obtain ⟨-, rest, hl, hrest⟩ := h pre e post c he hr
  rw [hl, List.tail_cons] at hm
  exact hrest m hm

/-- The literals that the reasons of some entries mark lie below the top entry. -/
theorem Grounded.below {e' : Entry} {m : Literal} (h : Grounded a (es ++ [e]))
    (he : e' ∈ es ++ [e]) (hr : e'.reason = some c) (hm : m ∈ (a.literals c).tail) :
    m ∈ es.map Entry.literal := by
  rcases List.mem_append.mp he with he | he
  · obtain ⟨pre, post, rfl⟩ := List.append_of_mem he
    rw [List.map_append]
    exact List.mem_append_left _ (h.append_left.lower rfl hr hm)
  · obtain rfl := List.mem_singleton.mp he
    exact h.lower rfl hr hm

/-- A clause is the reason of one entry only. -/
theorem Grounded.literal_inj {e' : Entry} (h : Grounded a es) (he : e ∈ es) (he' : e' ∈ es)
    (hr : e.reason = some c) (hr' : e'.reason = some c) : e.literal = e'.literal := by
  obtain ⟨rest, hl⟩ := h.head he hr
  obtain ⟨rest', hl'⟩ := h.head he' hr'
  rw [hl, List.cons.injEq] at hl'
  exact Literal.neg_inj.mp hl'.1

/-- The literals of `K` take part in a conflict and the clauses of `C` are needed for them: with a
literal its reason, and with a reason the literals that it forced the literal from. -/
structure Traced (a : Arena) (es : List Entry) (K : Set Literal) (C : Set Handle) : Prop where
  closed : ∀ e ∈ es, e.literal ∈ K → ∀ c, e.reason = some c →
    c ∈ C ∧ ∀ m ∈ (a.literals c).tail, m ∈ K
  source : ∀ c ∈ C, ∃ e ∈ es, e.literal ∈ K ∧ e.reason = some c
  subset : ∀ m ∈ K, m ∈ es.map Entry.literal

/-- The literals that take part if those in `M` do: with a literal, those that its reason forced it
from. -/
inductive Reached (a : Arena) (es : List Entry) (M : Literal → Prop) : Literal → Prop
  | marked {l : Literal} (hl : M l) : Reached a es M l
  | forced {e : Entry} {c : Handle} {l : Literal} (he : e ∈ es) (hr : e.reason = some c)
      (h : Reached a es M e.literal) (hl : l ∈ (a.literals c).tail) : Reached a es M l

/-- The reasons of the literals that take part. -/
def Needed (a : Arena) (es : List Entry) (M : Literal → Prop) : Set Handle :=
  {c | ∃ e ∈ es, e.reason = some c ∧ Reached a es M e.literal}

section Needed

variable {M M' : Literal → Prop}

theorem Reached.congr (h : Reached a es M l)
    (ha : ∀ e ∈ es, ∀ c, e.reason = some c → a'.literals c = a.literals c)
    (hM : ∀ m, M m → M' m) : Reached a' es M' l := by
  induction h with
  | marked hl => exact .marked (hM _ hl)
  | forced he hr _ hl ih => exact .forced he hr ih (ha _ he _ hr ▸ hl)

theorem needed_congr (ha : ∀ e ∈ es, ∀ c, e.reason = some c → a'.literals c = a.literals c)
    (hM : ∀ m, M' m ↔ M m) : Needed a' es M' = Needed a es M := by
  ext c
  refine exists_congr fun e => and_congr_right fun he => and_congr_right fun _ => ?_
  exact ⟨fun h => h.congr (fun e he c hr => (ha e he c hr).symm) fun m => (hM m).mp,
    fun h => h.congr ha fun m => (hM m).mpr⟩

/-- What takes part among some entries is what their reasons need. -/
theorem traced_reached (hg : Grounded a es) :
    Traced a es {m | m ∈ es.map Entry.literal ∧ Reached a es M m} (Needed a es M) where
  closed := by
    intro e he hK c hr
    refine ⟨⟨e, he, hr, hK.2⟩, fun m hm => ⟨?_, .forced he hr hK.2 hm⟩⟩
    obtain ⟨pre, post, rfl⟩ := List.append_of_mem he
    rw [List.map_append]
    exact List.mem_append_left _ (hg.lower rfl hr hm)
  source := by
    rintro c ⟨e, he, hr, h⟩
    exact ⟨e, he, ⟨List.mem_map_of_mem he, h⟩, hr⟩
  subset := fun _ hm => hm.1

/-- Once the top entry was visited, what takes part is found from the marks below it. -/
theorem needed_push (hg : Grounded a (es ++ [e])) (hnew : e.literal ∉ es.map Entry.literal)
    (ha : ∀ e' ∈ es, ∀ c, e'.reason = some c → a'.literals c = a.literals c)
    (hM : ∀ m, m ≠ e.literal → (M' m ↔ M m ∨
      (M e.literal ∧ ∃ c, e.reason = some c ∧ m ∈ (a.literals c).tail))) :
    Needed a (es ++ [e]) M = {c | e.reason = some c ∧ M e.literal} ∪ Needed a' es M' := by
  have hne : ∀ e' ∈ es, e'.literal ≠ e.literal := fun e' he' heq =>
    hnew (heq ▸ List.mem_map_of_mem he')
  -- No reason marks the literal of the top entry, so it takes part only if it is marked itself.
  have htop : Reached a (es ++ [e]) M e.literal → M e.literal := by
    intro h
    cases h with
    | marked hl => exact hl
    | forced he' hr _ hl => exact (hnew (hg.below he' hr hl)).elim
  have hdown : ∀ m, m ≠ e.literal → Reached a (es ++ [e]) M m → Reached a' es M' m := by
    intro m hm h
    induction h with
    | marked hl => exact .marked ((hM _ hm).mpr (Or.inl hl))
    | @forced e' c m he' hr h hl ih =>
      rcases List.mem_append.mp he' with he' | he'
      · exact .forced he' hr (ih (hne e' he')) (ha e' he' c hr ▸ hl)
      · obtain rfl := List.mem_singleton.mp he'
        exact .marked ((hM m hm).mpr (Or.inr ⟨htop h, c, hr, hl⟩))
  have hup : ∀ m, m ≠ e.literal → Reached a' es M' m → Reached a (es ++ [e]) M m := by
    intro m hm h
    induction h with
    | marked hl =>
      rcases (hM _ hm).mp hl with hl | ⟨he, c, hr, hl⟩
      · exact .marked hl
      · exact .forced (by simp) hr (.marked he) hl
    | @forced e' c m he' hr _ hl ih =>
      exact .forced (List.mem_append_left _ he') hr (ih (hne e' he')) (ha e' he' c hr ▸ hl)
  ext c
  constructor
  · rintro ⟨e', he', hr, h⟩
    rcases List.mem_append.mp he' with he' | he'
    · exact Or.inr ⟨e', he', hr, hdown _ (hne e' he') h⟩
    · obtain rfl := List.mem_singleton.mp he'
      exact Or.inl ⟨hr, htop h⟩
  · rintro (⟨hr, hl⟩ | ⟨e', he', hr, h⟩)
    · exact ⟨e, by simp, hr, .marked hl⟩
    · exact ⟨e', List.mem_append_left _ he', hr, hup _ (hne e' he') h⟩

end Needed

/-- A visit to an entry: if it is marked, its reason enters the core and marks the literals that it
forced the entry from. -/
theorem ends_needReason (h : Coherent n F body A s) (ha : Anchored body A s.trail.entries)
    (he : e ∈ s.trail.entries) :
    Ends G R (needReason e.literal) s fun _ s' => Coherent n F body A s' ∧ Framed s s' ∧
      Entered {c | e.reason = some c ∧ s.trail.Marked e.literal} s s' ∧
      Alike s.trail s'.trail ∧
      ∀ m, s'.trail.Marked m ↔ s.trail.Marked m ∨
        (s.trail.Marked e.literal ∧ ∃ c, e.reason = some c ∧ m ∈ (s.arena.literals c).tail) := by
  classical
  have hmem : e.literal ∈ s.trail.falsified := by
    rw [← Trail.map_literal_entries]
    exact List.mem_map_of_mem he
  have hs := h.trail.small _ hmem
  have hreason : s.trail.reasonOf e.literal.var = .ok e.reason := by
    rw [h.trail.reasonOf hs, Trail.mem_entries_reason he]
  simp only [needReason, markedReason, ends_bind, ends_ask, yields_bind, h.trail.isMarked hs,
    yields_ok, yields_ite, decide_eq_true_eq, yields_pure, hreason]
  split
  · rename_i hm
    cases hr : e.reason with
    | none =>
      refine ⟨h, Framed.refl s, ?_, Alike.refl _, by simp⟩
      simpa using Entered.refl s
    | some c =>
      obtain ⟨pre, post, hsplit⟩ := List.append_of_mem he
      obtain ⟨hc, rest, hl, hrest⟩ := h.grounded pre e post c hsplit hr
      have hfalse : ∀ m ∈ (s.arena.literals c).drop 1, m ∈ s.trail.falsified := by
        intro m hm
        rw [hl, List.drop_one, List.tail_cons] at hm
        rw [← Trail.map_literal_entries, hsplit, List.map_append]
        exact List.mem_append_left _ (hrest m hm)
      have hA : 2 ≤ (s.arena.literals c).length → c ∈ A := by
        rw [h.stored.length hc]
        exact ha e he c hr
      refine (ends_need h hc hA (by simp [hl]) hfalse).mono ?_
      rintro - s' ⟨h', hf, hen, hal, hmarks⟩
      refine ⟨h', hf, ?_, hal, ?_⟩
      · have hset : {d | some c = some d ∧ s.trail.Marked e.literal} = {c} := by
          ext d
          simp [hm, eq_comm]
        rwa [hset]
      · intro m
        rw [hmarks, List.drop_one]
        simp only [hm, true_and, Option.some.injEq, exists_eq_left']
        tauto
  · rename_i hm
    refine ⟨h, Framed.refl s, ?_, Alike.refl _, by simp [hm]⟩
    simpa [hm] using Entered.refl s

theorem ends_dropMark {forced : Nat} (h : Coherent n F body A s) (hl : l ∈ s.trail.falsified) :
    Ends G R (if i < forced then onTrail (·.setStatus l .falsified) else pure ()) s fun _ s' =>
      Coherent n F body A s' ∧ s' = { s with trail := s'.trail } ∧ Alike s.trail s'.trail ∧
      (i < forced → ¬ s'.trail.Marked l) ∧
      ∀ m, (m = l → ¬ i < forced) → (s'.trail.Marked m ↔ s.trail.Marked m) := by
  rw [ends_ite]
  split
  · rename_i hlt
    obtain ⟨t, hset, hw, he, hp, hf, hm⟩ := h.trail.setStatus hl .falsified (by simp)
    simp only [ends_onTrail, hset, yields_ok]
    refine ⟨h.withTrail hw (he ▸ h.grounded), trivial, ⟨he, hp, hf⟩, ?_, ?_⟩
    · intro _
      simp [hm]
    · intro m hne
      rw [hm, if_neg fun he => hne he hlt]
  · rename_i hge
    exact ⟨h, rfl, Alike.refl _, fun hlt => (hge hlt).elim, fun _ _ => Iff.rfl⟩

/-- One entry was looked at: if it is marked, its reason is in the core and the literals that it was
forced from are marked. What is fixed loses its mark. -/
structure Looked (forced i : Nat) (e : Entry) (s s' : State) : Prop where
  framed : Framed s s'
  alike : Alike s.trail s'.trail
  entered : Entered {c | e.reason = some c ∧ s.trail.Marked e.literal} s s'
  cleared : i < forced → ¬ s'.trail.Marked e.literal
  marked : ∀ m, m ≠ e.literal → (s'.trail.Marked m ↔ s.trail.Marked m ∨
    (s.trail.Marked e.literal ∧ ∃ c, e.reason = some c ∧ m ∈ (s.arena.literals c).tail))

/-- The first `i` entries were looked at: the reasons of what takes part, from all that was marked
on, are in the core. -/
structure Walked (forced i : Nat) (s s' : State) : Prop where
  framed : Framed s s'
  alike : Alike s.trail s'.trail
  cleared : ∀ m ∈ s.trail.falsified.take i, m ∈ s.trail.falsified.take forced →
    ¬ s'.trail.Marked m
  kept : ∀ m ∈ s.trail.falsified.drop i, s'.trail.Marked m ↔ s.trail.Marked m
  entered : Entered (Needed s.arena (s.trail.entries.take i) s.trail.Marked) s s'

section Walk

variable {forced : Nat} {s₁ : State}

theorem ends_look_entry (h : Coherent n F body A s) (ha : Anchored body A s.trail.entries)
    (he : e ∈ s.trail.entries) {k : CheckM Unit} {Q : Unit → State → Prop}
    (hk : ∀ s', Coherent n F body A s' → Looked forced i e s s' → Ends G R k s' Q) :
    Ends G R (do
      needReason e.literal
      if i < forced then onTrail (·.setStatus e.literal .falsified)
      k) s Q := by
  rw [ends_bind]
  refine (ends_needReason h ha he).mono ?_
  rintro - s₁ ⟨h₁, hf₁, hen, hal₁, hmarks₁⟩
  have hmem : e.literal ∈ s₁.trail.falsified := by
    rw [hal₁.falsified]
    exact Trail.literal_mem_falsified he
  rw [ends_when]
  refine (ends_dropMark h₁ hmem).mono ?_
  rintro - s₂ ⟨h₂, heq, hal₂, hgone, hmarks₂⟩
  refine hk s₂ h₂ ⟨hf₁.trans ?_, hal₁.trans hal₂, ?_, hgone, fun m hne => ?_⟩
  · rw [heq]
    exact ⟨rfl, rfl, rfl, rfl⟩
  · rw [heq]
    exact ⟨hen.enlarged, hen.clauses, hen.counters⟩
  · rw [hmarks₂ m fun hm => (hne hm).elim, hmarks₁]

section Top

variable (h : Coherent n F body A s)
  (hdrop : s.trail.entries.drop i = e :: s.trail.entries.drop (i + 1))
  (htake : s.trail.entries.take (i + 1) = s.trail.entries.take i ++ [e])

include htake in
theorem mem_take_succ {m : Literal} : m ∈ s.trail.falsified.take (i + 1) ↔
    m ∈ s.trail.falsified.take i ∨ m = e.literal := by
  rw [Trail.take_falsified, htake, List.map_append, ← Trail.take_falsified]
  simp

include hdrop in
theorem mem_drop_iff {m : Literal} : m ∈ s.trail.falsified.drop i ↔
    m = e.literal ∨ m ∈ s.trail.falsified.drop (i + 1) := by
  rw [Trail.drop_falsified, hdrop, List.map_cons, List.mem_cons, ← Trail.drop_falsified]

include h hdrop in
theorem not_mem_below : e.literal ∉ s.trail.falsified.take i := fun hm =>
  h.trail.not_mem_drop hm ((mem_drop_iff hdrop).mpr (Or.inl rfl))

include h hdrop in
/-- A literal that the reason of an entry marks lies below the entry. -/
theorem mem_below {m : Literal} (hr : e.reason = some c)
    (hm : m ∈ (s.arena.literals c).tail) : m ∈ s.trail.falsified.take i := by
  rw [Trail.take_falsified]
  exact h.grounded.lower (by rw [← hdrop, List.take_append_drop]) hr hm

include h hdrop htake in
theorem Looked.cleared_succ (hlook : Looked forced i e s s₁) (hw : Walked forced i s₁ s') :
    ∀ m ∈ s.trail.falsified.take (i + 1), m ∈ s.trail.falsified.take forced →
      ¬ s'.trail.Marked m := by
  intro m hm hmf
  have hfal := hlook.alike.falsified
  rcases (mem_take_succ htake).mp hm with hm | rfl
  · exact hw.cleared m (hfal ▸ hm) (hfal ▸ hmf)
  · have hlt : i < forced := by
      by_contra hge
      exact not_mem_below h hdrop (List.take_subset_take_left _ (by omega) hmf)
    rw [hw.kept _ (hfal ▸ (mem_drop_iff hdrop).mpr (Or.inl rfl))]
    exact hlook.cleared hlt

include h hdrop htake in
theorem Looked.kept_succ (hlook : Looked forced i e s s₁) (hw : Walked forced i s₁ s') :
    ∀ m ∈ s.trail.falsified.drop (i + 1), s'.trail.Marked m ↔ s.trail.Marked m := by
  intro m hm
  have hmd : m ∈ s.trail.falsified.drop i := (mem_drop_iff hdrop).mpr (Or.inr hm)
  have hne : m ≠ e.literal := by
    rintro rfl
    exact h.trail.not_mem_drop ((mem_take_succ htake).mpr (Or.inr rfl)) hm
  rw [hw.kept m (hlook.alike.falsified ▸ hmd), hlook.marked m hne]
  constructor
  · rintro (hm' | ⟨-, c, hr, hm'⟩)
    · exact hm'
    · exact (h.trail.not_mem_drop (mem_below h hdrop hr hm') hmd).elim
  · exact Or.inl

include h hdrop htake in
theorem Looked.entered_succ (hlook : Looked forced i e s s₁) (hw : Walked forced i s₁ s') :
    Entered (Needed s.arena (s.trail.entries.take (i + 1)) s.trail.Marked) s s' := by
  have hent := hw.entered
  rw [hlook.alike.entries] at hent
  have hbelow := not_mem_below h hdrop
  rw [Trail.take_falsified] at hbelow
  have hground := h.grounded.take (i + 1)
  rw [htake] at hground
  have hneeded := needed_push (M := s.trail.Marked) hground hbelow
    (fun e he c hr => hlook.entered.enlarged.literals c
      (h.grounded.has (List.mem_of_mem_take he) hr)) hlook.marked
  rw [htake, hneeded]
  refine hlook.entered.trans hent ?_
  rintro c ⟨hr, -⟩ ⟨e', he', hr', -⟩
  refine hbelow ?_
  rw [hground.literal_inj (by simp) (List.mem_append_left _ he') hr hr']
  exact List.mem_map_of_mem he'

include h hdrop htake in
/-- An entry on top of those that were walked over. -/
theorem Looked.walked (hlook : Looked forced i e s s₁) (hw : Walked forced i s₁ s') :
    Walked forced (i + 1) s s' where
  framed := hlook.framed.trans hw.framed
  alike := hlook.alike.trans hw.alike
  cleared := hlook.cleared_succ h hdrop htake hw
  kept := hlook.kept_succ h hdrop htake hw
  entered := hlook.entered_succ h hdrop htake hw

end Top

theorem ends_traceFrom (h : Coherent n F body A s) (ha : Anchored body A s.trail.entries)
    (hi : i ≤ s.trail.assigned) :
    Ends G R (traceFrom forced i) s fun _ s' => Coherent n F body A s' ∧ Walked forced i s s' := by
  induction i generalizing s with
  | zero =>
    refine ⟨h, Framed.refl s, Alike.refl _, by simp, by simp, ?_⟩
    have hnone : Needed s.arena (s.trail.entries.take 0) s.trail.Marked = ∅ := by simp [Needed]
    rw [hnone]
    exact .refl s
  | succ i ih =>
    obtain ⟨e, hdrop, htake, hat⟩ := Trail.exists_entryAt (t := s.trail) (k := i) (by omega)
    have hmem : e ∈ s.trail.entries := List.mem_of_mem_drop (hdrop ▸ List.mem_cons_self)
    rw [traceFrom, ends_bind, ends_ask, hat, yields_ok]
    refine ends_look_entry h ha hmem fun s₁ h₁ hlook => ?_
    have hsize : s₁.trail.assigned = s.trail.assigned := by
      rw [← Trail.length_entries, hlook.alike.entries, Trail.length_entries]
    refine (ih h₁ (hlook.alike.entries ▸ ha) (by omega)).mono ?_
    exact fun _ s' hw => ⟨hw.1, hlook.walked h hdrop htake hw.2⟩

end Walk

/-- All that is not fixed is unassigned, nothing is marked, and the records of the input stay. -/
structure Backtracked (s s' : State) : Prop where
  framed : Framed s s'
  entries : s'.trail.entries = s.trail.entries.take s.trail.forced
  processed : s'.trail.processed = s.trail.forced
  forced : s'.trail.forced = s.trail.forced
  unmarked : ∀ m ∈ s'.trail.falsified, ¬ s'.trail.Marked m

theorem ends_backtrack {forced : Nat} (h : Coherent n F body A s) (hf : forced ≤ s.trail.assigned) :
    Ends G R (backtrack forced) s fun _ s' => Coherent n F body A s' ∧
      s' = { s with trail := s'.trail } ∧ s'.trail.entries = s.trail.entries.take forced ∧
      s'.trail.processed = forced ∧ s'.trail.forced = s.trail.forced ∧
      ∀ m, s'.trail.Marked m → s.trail.Marked m := by
  obtain ⟨t, hrun, hw, he, -, hfo, hm⟩ := h.trail.truncate hf
  simp only [backtrack, ends_bind, ends_onTrail, hrun, yields_ok]
  have hg := h.grounded.take forced
  rw [← he] at hg
  exact ⟨(h.withTrail hw hg).bounds forced t.forced, trivial, he, trivial, hfo,
    fun m hk => ((hm m).mp hk).1⟩

theorem ends_traceReasons (h : Coherent n F body A s) (ha : Anchored body A s.trail.entries)
    (hf : s.trail.forced ≤ s.trail.assigned) :
    Ends G R traceReasons s fun _ s' => Coherent n F body A s' ∧ Backtracked s s' ∧
      Entered (Needed s.arena s.trail.entries s.trail.Marked) s s' := by
  simp only [traceReasons, ends_bind, ends_look]
  refine (ends_traceFrom h ha (Nat.le_refl _)).mono ?_
  rintro - s₁ ⟨h₁, hf₁, hal, hclear, -, hent⟩
  have hsize : s₁.trail.assigned = s.trail.assigned := by
    rw [← Trail.length_entries, hal.entries, Trail.length_entries]
  have hall : s.trail.falsified.take s.trail.assigned = s.trail.falsified := by
    rw [← Trail.length_falsified, List.take_length]
  rw [hall] at hclear
  rw [← Trail.length_entries, List.take_length] at hent
  refine (ends_backtrack h₁ (by omega)).mono ?_
  rintro - s₂ ⟨h₂, heq, he, hp, hfo, hm⟩
  refine ⟨h₂, ⟨?_, ?_, hp, hfo.trans hal.forced, ?_⟩, ?_⟩
  · refine hf₁.trans ?_
    rw [heq]
    exact ⟨rfl, rfl, rfl, rfl⟩
  · rw [he, hal.entries]
  · intro m hmem hmark
    have hmf : m ∈ s.trail.falsified.take s.trail.forced := by
      rw [← Trail.map_literal_entries, he, hal.entries] at hmem
      rwa [Trail.take_falsified]
    exact hclear m (List.mem_of_mem_take hmf) hmf (hm m hmark)
  · rw [heq]
    exact ⟨hent.enlarged, hent.clauses, hent.counters⟩

/-- The clauses that the conflict in `c` depends on: the clause, and the reasons of what takes part
if all of its literals do. -/
def Dependency (c : Handle) (s : State) : Set Handle :=
  {c} ∪ Needed s.arena s.trail.entries fun m => m ∈ s.arena.literals c ∨ s.trail.Marked m

/-- The explanation of a conflict. -/
theorem ends_explain (h : Coherent n F body A s) (ha : Anchored body A s.trail.entries)
    (hf : s.trail.forced ≤ s.trail.assigned) (hc : c ∈ A)
    (hl : ∀ m ∈ s.arena.literals c, m ∈ s.trail.falsified) :
    Ends G R (explain c) s fun _ s' => Coherent n F body A s' ∧ Backtracked s s' ∧
      Entered (Dependency c s) s s' := by
  obtain ⟨hhas, hlen⟩ := h.attached c hc
  rw [explain, ends_bind]
  refine (ends_need h hhas (fun _ => hc) (Nat.zero_le _) (by simpa using hl)).mono ?_
  rintro - s₁ ⟨h₁, hf₁, hent₁, hal, hmarks⟩
  have hsize : s₁.trail.assigned = s.trail.assigned := by
    rw [← Trail.length_entries, hal.entries, Trail.length_entries]
  refine (ends_traceReasons h₁ (hal.entries ▸ ha) (by rw [hal.forced, hsize]; exact hf)).mono ?_
  rintro - s₂ ⟨h₂, hb, hent₂⟩
  refine ⟨h₂, ⟨hf₁.trans hb.framed, ?_, ?_, ?_, hb.unmarked⟩, ?_⟩
  · rw [hb.entries, hal.entries, hal.forced]
  · rw [hb.processed, hal.forced]
  · rw [hb.forced, hal.forced]
  · have hneeded : Needed s₁.arena s.trail.entries s₁.trail.Marked =
        Needed s.arena s.trail.entries fun m => m ∈ s.arena.literals c ∨ s.trail.Marked m :=
      needed_congr (fun e he d hr => hent₁.enlarged.literals d (h.grounded.has he hr))
        fun m => by simpa using hmarks m
    rw [hal.entries, hneeded] at hent₂
    refine hent₁.trans hent₂ ?_
    -- The first literal of a reason is true.
    rintro d rfl ⟨e, he, hr, -⟩
    obtain ⟨rest, hlit⟩ := h.grounded.head he hr
    exact h.trail.not_mem_neg (Trail.literal_mem_falsified he) (hl _ (by simp [hlit]))

/-- Each clause of `C` is in `g`, up to the order and the repetitions of its literals. -/
def Lists (body : Handle → Clause) (C : Set Handle) (g : Formula) : Prop :=
  ∀ c ∈ C, ∃ d ∈ g, (body c).Same d

/-- Unit propagation over the needed clauses alone derives what took part in a conflict. -/
theorem Traced.implied (h : Traced a es K C) (hb : Stored n F body a) (hg : Grounded a es)
    {g : Formula} {start : Literal → Prop} (hC : Lists body C g)
    (hs : ∀ e ∈ es, e.reason = none → start (-e.literal)) (he : e ∈ es) (hK : e.literal ∈ K) :
    Implied g start (-e.literal) := by
  obtain ⟨pre, post, hsplit⟩ := List.append_of_mem he
  -- Reasons lie below what they force, so the induction is on the place on the trail.
  induction hlen : pre.length using Nat.strong_induction_on generalizing e pre post with
  | h k ih =>
    cases hr : e.reason with
    | none => exact .given (hs e he hr)
    | some c =>
      obtain ⟨hhas, rest, hl, hrest⟩ := hg pre e post c hsplit hr
      obtain ⟨hc, htail⟩ := h.closed e he hK c hr
      obtain ⟨d, hd, hsame⟩ := hC c hc
      have hmem : ∀ m, m ∈ d ↔ m ∈ a.literals c := fun m =>
        (hsame m).symm.trans (hb.mem_iff hhas).symm
      refine .unit hd ((hmem _).mpr (by simp [hl])) ?_
      intro m hm hne
      have hm := (hmem m).mp hm
      rw [hl, List.mem_cons] at hm
      have hmr : m ∈ rest := hm.resolve_left hne
      obtain ⟨e', he', rfl⟩ := List.mem_map.mp (hrest m hmr)
      obtain ⟨pre', post', hsplit'⟩ := List.append_of_mem he'
      have hfull : es = pre' ++ e' :: (post' ++ e :: post) := by
        rw [hsplit, hsplit']
        simp
      have hshort : pre'.length < k := by
        rw [← hlen, hsplit']
        simp
      exact ih _ hshort (by rw [hfull]; simp) (htail _ (by simpa [hl] using hmr)) _ _ hfull rfl

theorem Traced.implied_of_mem (h : Traced a es K C) (hb : Stored n F body a) (hg : Grounded a es)
    {g : Formula} {start : Literal → Prop} (hC : Lists body C g)
    (hs : ∀ e ∈ es, e.reason = none → start (-e.literal)) (hK : l ∈ K) :
    Implied g start (-l) := by
  obtain ⟨e, he, rfl⟩ := List.mem_map.mp (h.subset l hK)
  exact h.implied hb hg hC hs he hK

/-- A clause that took part with all its literals is a conflict of the needed clauses. -/
theorem Traced.conflicting (h : Traced a es K C) (hb : Stored n F body a) (hg : Grounded a es)
    {g : Formula} {start : Literal → Prop} (hC : Lists body ({c} ∪ C) g)
    (hs : ∀ e ∈ es, e.reason = none → start (-e.literal)) (hc : a.Has c)
    (hl : ∀ m ∈ a.literals c, m ∈ K) : Conflicting g start := by
  obtain ⟨d, hd, hsame⟩ := hC c (by simp)
  refine ⟨d, hd, fun m hm => ?_⟩
  have hm' : m ∈ a.literals c := (hb.mem_iff hc).mpr ((hsame m).mpr hm)
  exact h.implied_of_mem hb hg (fun x hx => hC x (Or.inr hx)) hs (hl m hm')

end UnsatCore.Engine
