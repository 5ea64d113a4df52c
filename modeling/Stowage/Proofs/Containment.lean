import Stowage.Proofs.PathSegments

/-!
# Paths and the directories they denote

On absolute paths that are written without empty segments the helpers say of the written paths what
holds of their segments: nesting is being a proper prefix, the way down completes the outer path, and
the parent lacks the base name only.
-/

namespace Stowage.Path

/-! ## Tidy paths -/

/-- An absolute path without empty segments and without a slash at its end, or the root. -/
def Tidy (p : List Char) : Prop :=
  p = ['/'] ∨ (p.head? = some '/' ∧ p.getLast? ≠ some '/' ∧ ¬['/', '/'] <:+: p)

instance (p : List Char) : Decidable (Tidy p) := inferInstanceAs (Decidable (_ ∨ _))

theorem flatMap_allPieces (p : List Char) : (allPieces p).flatMap ('/' :: ·) = '/' :: p := by
  induction p with
  | nil => rfl
  | cons c p ih =>
    rw [allPieces, List.flatMap_cons, List.cons_append, List.cons.injEq] at ih
    by_cases h : c = '/'
    · simp [allPieces, pieces, h, ih.2]
    · simp [allPieces, pieces, h, ih.2]

theorem allPieces_flatMap_slash {s : List Char} {ss : List (List Char)}
    (h : ∀ t ∈ s :: ss, '/' ∉ t) : allPieces (s ++ ss.flatMap ('/' :: ·)) = s :: ss := by
  induction ss generalizing s with
  | nil => simpa using allPieces_of_not_mem (h s List.mem_cons_self)
  | cons t ss ih =>
    have ht := ih fun u hu => h u (List.mem_cons_of_mem s hu)
    rw [List.flatMap_cons, List.cons_append, allPieces_append_slash, ht,
      allPieces_of_not_mem (h s List.mem_cons_self), List.singleton_append]

/-- An empty piece stands between two slashes or behind the last one. -/
theorem Tidy.ne_nil_of_mem {r : List Char} (h : Tidy ('/' :: r)) (hr : r ≠ []) :
    ∀ s ∈ allPieces r, s ≠ [] := by
  rintro s hs rfl
  obtain ⟨l, l', hl⟩ := List.append_of_mem hs
  have hcut := flatMap_allPieces r
  rw [hl, List.flatMap_append, List.flatMap_cons] at hcut
  rcases h with h | ⟨-, hlast, hdouble⟩
  · exact hr (List.cons.inj h).2
  · cases l' with
    | nil =>
      apply hlast
      rw [← hcut]
      simp
    | cons t l' =>
      apply hdouble
      rw [← hcut]
      exact ⟨l.flatMap ('/' :: ·), t ++ l'.flatMap ('/' :: ·), by simp⟩

theorem Tidy.exists_cons {p : List Char} (h : Tidy p) : ∃ r, p = '/' :: r := by
  rcases h with rfl | ⟨hhead, -⟩
  · exact ⟨[], rfl⟩
  · exact List.head?_eq_some_iff.mp hhead

theorem Tidy.canonical {p : List Char} (h : Tidy p) : Canonical p := by
  obtain ⟨r, rfl⟩ := h.exists_cons
  by_cases hr : r = []
  · rw [hr]
    rfl
  · have hall : segments ('/' :: r) = allPieces r := by
      rw [segments_cons_slash, segments_eq, List.filter_eq_self]
      intro s hs
      simpa using h.ne_nil_of_mem hr s hs
    have hne : allPieces r ≠ [] := List.cons_ne_nil _ _
    rw [Canonical, hall, spelling, if_neg hne, flatMap_allPieces]

theorem segments_spelling {ss : List (List Char)} (h : ∀ s ∈ ss, s ≠ [] ∧ '/' ∉ s) :
    segments (spelling ss) = ss := by
  by_cases hss : ss = []
  · rw [hss]
    rfl
  · have hfree : ∀ s ∈ [] :: ss, '/' ∉ s := by simpa using fun s hs => (h s hs).2
    have hcut : allPieces (ss.flatMap ('/' :: ·)) = [] :: ss := allPieces_flatMap_slash hfree
    rw [spelling, if_neg hss, segments_eq, hcut, List.filter_cons_of_neg (by simp),
      List.filter_eq_self]
    intro s hs
    simpa using (h s hs).1

/-! ## Parents -/

theorem length_segments_le_one {s : List Char} (h : '/' ∉ s) : (segments s).length ≤ 1 := by
  rw [segments_eq, allPieces_of_not_mem h]
  exact List.length_filter_le _ _

section
variable {p d : List Char}

theorem Tidy.segments_parent (hp : Tidy p) (h : parent? p = some d) :
    segments d ++ [baseName p] = segments p := by
  obtain ⟨hsplit, hd⟩ := parent?_eq_some h
  have hbase : baseName p ≠ [] := by
    intro hb
    rw [hb] at hsplit
    rcases hp with hroot | ⟨-, hlast, -⟩
    · have := congrArg List.length (hroot.symm.trans hsplit)
      simp at this
      exact hd this
    · apply hlast
      rw [hsplit]
      simp
  have hcut := segments_append_slash d (baseName p)
  rw [← hsplit, segments_of_not_mem (not_mem_baseName p) hbase] at hcut
  exact hcut.symm

theorem Tidy.parent?_eq_none_iff (hp : Tidy p) : parent? p = none ↔ (segments p).length ≤ 1 := by
  constructor
  · intro h
    rcases parent?_eq_none h with hfree | hbase
    · exact length_segments_le_one hfree
    · rw [hbase, segments_cons_slash]
      exact length_segments_le_one (not_mem_baseName p)
  · intro hlen
    cases h : parent? p with
    | none => rfl
    | some d =>
      have hdepth : 1 < (segments p).length := hp.canonical.depth_of_parent h
      omega

end

/-! ## Nesting -/

theorem Canonical.isNested_iff_segments {p q : List Char} (hp : Canonical p) (hq : Canonical q) :
    isNested p q = true ↔ segments q <+: segments p ∧ segments q ≠ segments p := by
  constructor
  · intro h
    have hwithin : Within p q := Path.within_iff.mpr (.inr h)
    refine ⟨hwithin.segments_prefix, fun hsame => ?_⟩
    have heq : q = p := by rw [← hq, hsame, hp]
    rw [heq, isNested_self] at h
    cases h
  · rintro ⟨hstart, hne⟩
    rcases Path.within_iff.mp ((hp.within_iff hq).mpr hstart) with heq | h
    · rw [heq] at hne
      exact absurd rfl hne
    · exact h

/-- The helpers on two written paths, in terms of their segments. -/
structure FollowsSegments (p q : List Char) : Prop where
  segments_iff : ∀ ss, (∀ s ∈ ss, s ≠ [] ∧ '/' ∉ s) → (segments p = ss ↔ p = spelling ss)
  nested_iff : isNested p q = true ↔ segments q <+: segments p ∧ segments q ≠ segments p
  depth_eq : depth p = (segments p).length
  depth_lt : isNested p q = true → depth q < depth p
  way_down : q = p ∨ isNested p q = true →
    segments q ++ segments (relative p q) = segments p
  parent : ∀ d, parent? p = some d → segments d ++ [baseName p] = segments p
  no_parent_iff : parent? p = none ↔ (segments p).length ≤ 1

theorem followsSegments_of_tidy {p q : List Char} (hp : Tidy p) (hq : Tidy q) :
    FollowsSegments p q where
  segments_iff ss hss := by
    constructor
    · rintro rfl
      exact hp.canonical.symm
    · rintro rfl
      exact segments_spelling hss
  nested_iff := hp.canonical.isNested_iff_segments hq.canonical
  depth_eq := rfl
  depth_lt h := by
    obtain ⟨hstart, hne⟩ := (hp.canonical.isNested_iff_segments hq.canonical).mp h
    have hlen : (segments q).length ≠ (segments p).length := fun e => hne (hstart.eq_of_length e)
    exact lt_of_le_of_ne hstart.length_le hlen
  way_down h := (within_iff.mpr h).segments_relative
  parent _ h := hp.segments_parent h
  no_parent_iff := hp.parent?_eq_none_iff

theorem followsSegments_of_siblings :
    let cfg := "/etc/cfg".toList
    let sibling := "/etc/cfgx".toList
    let inner := "/etc/cfg/a.conf".toList
    Tidy cfg ∧ Tidy sibling ∧ Tidy inner ∧
      FollowsSegments sibling cfg ∧ isNested sibling cfg = false ∧
      FollowsSegments inner cfg ∧ isNested inner cfg = true := by
  intro cfg sibling inner
  have hcfg : Tidy cfg := by decide +kernel
  have hsibling : Tidy sibling := by decide +kernel
  have hinner : Tidy inner := by decide +kernel
  exact ⟨hcfg, hsibling, hinner, followsSegments_of_tidy hsibling hcfg, by decide +kernel,
    followsSegments_of_tidy hinner hcfg, by decide +kernel⟩

end Stowage.Path
