import Mathlib.Data.List.Basic
import Mathlib.Data.List.TakeWhile
import Stowage.Mount.Path

/-!
# Paths and their segments

The written tests on paths against the directories that paths denote. A path that lies at or below
another one as written denotes a directory in that of the other. The converse needs canonical paths:
with an empty segment one directory has several spellings.
-/

namespace Stowage.Path

/-! ## Segments -/

def allPieces (p : List Char) : List (List Char) := (pieces p).1 :: (pieces p).2

theorem segments_eq (p : List Char) : segments p = (allPieces p).filter (!·.isEmpty) := rfl

theorem allPieces_append_slash (a b : List Char) :
    allPieces (a ++ '/' :: b) = allPieces a ++ allPieces b := by
  induction a with
  | nil => rfl
  | cons c a ih =>
    simp only [allPieces, List.cons_append, List.cons.injEq] at ih
    obtain ⟨h1, h2⟩ := ih
    simp only [allPieces, List.cons_append, pieces]
    by_cases h : c = '/'
    · simp [h, h1, h2]
    · simp [h, h1, h2]

@[simp] theorem segments_append_slash (a b : List Char) :
    segments (a ++ '/' :: b) = segments a ++ segments b := by
  rw [segments_eq, allPieces_append_slash, List.filter_append]
  rfl

@[simp] theorem segments_nil : segments [] = [] := rfl

@[simp] theorem segments_cons_slash (p : List Char) : segments ('/' :: p) = segments p :=
  segments_append_slash [] p

theorem allPieces_of_not_mem {p : List Char} (h : '/' ∉ p) : allPieces p = [p] := by
  induction p with
  | nil => rfl
  | cons c p ih =>
    simp only [List.mem_cons, not_or] at h
    have := ih h.2
    simp only [allPieces, List.cons.injEq] at this
    simp [allPieces, pieces, Ne.symm h.1, this]

theorem segments_of_not_mem {p : List Char} (h : '/' ∉ p) (hp : p ≠ []) : segments p = [p] := by
  rw [segments_eq, allPieces_of_not_mem h]
  simp [hp]

theorem not_mem_allPieces (p : List Char) : ∀ s ∈ allPieces p, '/' ∉ s := by
  induction p with
  | nil => simp [allPieces, pieces]
  | cons c p ih =>
    simp only [allPieces, List.mem_cons, forall_eq_or_imp] at ih
    simp only [allPieces, pieces]
    by_cases h : c = '/'
    · simpa [h] using ih
    · simpa [h, Ne.symm h] using ih

theorem not_mem_of_mem_segments {p s : List Char} (h : s ∈ segments p) : s ≠ [] ∧ '/' ∉ s := by
  rw [segments_eq, List.mem_filter] at h
  exact ⟨by simpa using h.2, not_mem_allPieces p s h.1⟩

theorem segments_dropWhile_slash (p : List Char) :
    segments (p.dropWhile (· = '/')) = segments p := by
  induction p with
  | nil => rfl
  | cons c p ih =>
    by_cases h : c = '/'
    · subst h
      simpa using ih
    · simp [h]

/-! ## Parents and base names -/

theorem not_mem_baseName (p : List Char) : '/' ∉ baseName p := by
  intro h
  rw [baseName, List.mem_reverse] at h
  have := List.mem_takeWhile_imp h
  simp at this

theorem eq_append_baseName {p r : List Char} {c : Char}
    (h : p.reverse.dropWhile (· ≠ '/') = c :: r) : p = r.reverse ++ '/' :: baseName p := by
  have cut : p.reverse.takeWhile (· ≠ '/') ++ p.reverse.dropWhile (· ≠ '/') = p.reverse :=
    List.takeWhile_append_dropWhile
  have first := List.head?_dropWhile_not (· ≠ '/') p.reverse
  rw [h] at cut first
  simp only [List.head?_cons, ne_eq, decide_not, Bool.not_eq_false', decide_eq_true_eq] at first
  subst first
  have := congrArg List.reverse cut
  rw [List.reverse_append, List.reverse_reverse, List.reverse_cons, List.append_assoc] at this
  exact this.symm

theorem exists_eq_append_baseName {p : List Char} (h : '/' ∈ p) :
    ∃ d, p = d ++ '/' :: baseName p := by
  cases hr : p.reverse.dropWhile (· ≠ '/') with
  | nil => simpa using List.dropWhile_eq_nil_iff.mp hr '/' (List.mem_reverse.mpr h)
  | cons c r => exact ⟨_, eq_append_baseName hr⟩

theorem baseName_append {d k : List Char} (hk : '/' ∉ k) : baseName (d ++ '/' :: k) = k := by
  have hall : ∀ c ∈ k.reverse, decide (c ≠ '/') = true := by
    intro c hc
    exact decide_eq_true (ne_of_mem_of_not_mem (List.mem_reverse.mp hc) hk)
  rw [baseName, List.reverse_append, List.reverse_cons, List.append_assoc,
    List.takeWhile_append_of_pos hall]
  simp

theorem parent?_eq_some {p d : List Char} (h : parent? p = some d) :
    p = d ++ '/' :: baseName p ∧ d ≠ [] := by
  rw [parent?] at h
  cases hr : p.reverse.dropWhile (· ≠ '/') with
  | nil => rw [hr] at h; cases h
  | cons c r =>
    rw [hr] at h
    by_cases he : r = []
    · simp [he] at h
    · simp only [List.isEmpty_iff, he, if_false, Option.some.injEq] at h
      subst h
      exact ⟨eq_append_baseName hr, by simpa using he⟩

theorem parent?_eq_none {p : List Char} (h : parent? p = none) :
    '/' ∉ p ∨ p = '/' :: baseName p := by
  rw [parent?] at h
  cases hr : p.reverse.dropWhile (· ≠ '/') with
  | nil =>
    left
    intro hmem
    simpa using List.dropWhile_eq_nil_iff.mp hr '/' (List.mem_reverse.mpr hmem)
  | cons c r =>
    rw [hr] at h
    by_cases he : r = []
    · right
      have hcut := eq_append_baseName hr
      rwa [he] at hcut
    · simp [he] at h

/-! ## Nesting as written -/

/-- The path lies at another one or below it, as written. -/
def Within (p outer : List Char) : Prop :=
  outer = ['/'] ∨ p = outer ∨ ∃ r, p = outer ++ '/' :: r

theorem isNested_iff {inner outer : List Char} :
    isNested inner outer = true ↔
      (outer = ['/'] ∧ inner ≠ ['/']) ∨ (outer ≠ ['/'] ∧ ∃ r, inner = outer ++ '/' :: r) := by
  unfold isNested
  by_cases h : outer = ['/']
  · simp [h]
  · simp only [h, if_false, false_and, false_or, not_false_eq_true, ne_eq, true_and]
    cases hp : outer.isPrefixOf? inner with
    | none =>
      refine ⟨fun e => (by cases e), fun ⟨r, hr⟩ => ?_⟩
      rw [List.isPrefixOf?_eq_some_iff_append_eq.mpr hr.symm] at hp
      cases hp
    | some r =>
      rw [List.isPrefixOf?_eq_some_iff_append_eq] at hp
      subst hp
      cases r with
      | nil => simp
      | cons c r => simp

theorem isNested_self (p : List Char) : isNested p p = false := by
  rw [Bool.eq_false_iff, ne_eq, isNested_iff]
  rintro (⟨h, hne⟩ | ⟨-, r, h⟩)
  · exact hne h
  · simp at h

theorem within_iff {p outer : List Char} :
    Within p outer ↔ outer = p ∨ isNested p outer = true := by
  rw [isNested_iff]
  unfold Within
  constructor
  · rintro (h | h | ⟨r, h⟩)
    · by_cases hp : p = ['/']
      · exact .inl (h.trans hp.symm)
      · exact .inr (.inl ⟨h, hp⟩)
    · exact .inl h.symm
    · by_cases ho : outer = ['/']
      · refine .inr (.inl ⟨ho, ?_⟩)
        simp [h, ho]
      · exact .inr (.inr ⟨ho, r, h⟩)
  · rintro (h | ⟨h, -⟩ | ⟨-, h⟩)
    · exact .inr (.inl h.symm)
    · exact .inl h
    · exact .inr (.inr h)

theorem Within.segments_prefix {p outer : List Char} (h : Within p outer) :
    segments outer <+: segments p := by
  rcases h with rfl | rfl | ⟨r, rfl⟩
  · exact List.nil_prefix
  · exact List.prefix_refl _
  · rw [segments_append_slash]
    exact List.prefix_append _ _

theorem Within.parent {d b outer : List Char} (h : Within (d ++ '/' :: b) outer)
    (hb : '/' ∉ b) (ne : d ++ '/' :: b ≠ outer) : Within d outer := by
  rcases h with h | h | ⟨r, h⟩
  · exact .inl h
  · exact absurd h ne
  · rcases List.append_eq_append_iff.mp h with ⟨c, ho, hc⟩ | ⟨c, hd, hc⟩
    · rcases List.cons_eq_append_iff.mp hc with ⟨rfl, -⟩ | ⟨c', rfl, hc'⟩
      · exact .inr (.inl (by simpa using ho.symm))
      · exact absurd (hc' ▸ List.mem_append_right c' List.mem_cons_self) hb
    · rcases List.cons_eq_append_iff.mp hc with ⟨rfl, -⟩ | ⟨c', rfl, -⟩
      · exact .inr (.inl (by simpa using hd))
      · exact .inr (.inr ⟨c', hd⟩)

/-- The way down from a path completes it. -/
theorem Within.segments_relative {dir outer : List Char} (h : Within dir outer) :
    segments outer ++ segments (relative dir outer) = segments dir := by
  unfold relative
  cases hp : outer.isPrefixOf? dir with
  | none =>
    have hne : ∀ r, dir ≠ outer ++ r := fun r hr => by
      rw [List.isPrefixOf?_eq_some_iff_append_eq.mpr hr.symm] at hp
      cases hp
    rcases h with rfl | h | ⟨r, h⟩
    · rfl
    · exact absurd (h.trans (List.append_nil outer).symm) (hne [])
    · exact absurd h (hne _)
  | some r =>
    rw [List.isPrefixOf?_eq_some_iff_append_eq] at hp
    subst hp
    simp only [segments_dropWhile_slash]
    rcases h with rfl | h | ⟨t, h⟩
    · exact (segments_cons_slash r).symm
    · have : r = [] := List.append_right_eq_self.mp h
      simp [this]
    · have : r = '/' :: t := List.append_cancel_left h
      simp [this]

/-! ## Canonical paths -/

def spelling (ss : List (List Char)) : List Char :=
  if ss = [] then ['/'] else ss.flatMap ('/' :: ·)

def Canonical (p : List Char) : Prop := spelling (segments p) = p

instance (p : List Char) : Decidable (Canonical p) := inferInstanceAs (Decidable (_ = _))

theorem spelling_append {ss ts : List (List Char)} (hs : ss ≠ []) :
    spelling (ss ++ ts) = spelling ss ++ ts.flatMap ('/' :: ·) := by
  simp [spelling, hs]

theorem Canonical.within_iff {p q : List Char} (hp : Canonical p) (hq : Canonical q) :
    Within p q ↔ segments q <+: segments p := by
  refine ⟨Within.segments_prefix, fun ⟨t, ht⟩ => ?_⟩
  by_cases hn : segments q = []
  · refine .inl ?_
    rw [Canonical, hn] at hq
    exact hq.symm
  · have hpq : p = q ++ t.flatMap ('/' :: ·) := by
      rw [← hp, ← ht, spelling_append hn, hq]
    cases t with
    | nil => exact .inr (.inl (by simpa using hpq))
    | cons s t => exact .inr (.inr ⟨_, hpq⟩)

theorem getLast_flatMap_slash {ss : List (List Char)} (h : ∀ s ∈ ss, s ≠ [] ∧ '/' ∉ s) :
    (ss.flatMap ('/' :: ·)).getLast? ≠ some '/' := by
  rcases List.eq_nil_or_concat ss with rfl | ⟨ss, s, rfl⟩
  · simp
  · obtain ⟨hs, hslash⟩ := h s (by simp)
    obtain ⟨c, hc⟩ := Option.isSome_iff_exists.mp (List.getLast?_isSome.mpr hs)
    have hlast : ('/' :: s).getLast? = some c := by
      rw [List.getLast?_cons, hc]
      rfl
    rw [List.concat_eq_append, List.flatMap_append, List.flatMap_singleton, List.getLast?_append,
      hlast]
    intro e
    cases e
    exact hslash (List.mem_of_getLast? hc)

theorem Canonical.parent {p d : List Char} (hp : Canonical p) (h : parent? p = some d) :
    Canonical d := by
  obtain ⟨hsplit, hd⟩ := parent?_eq_some h
  have hsegs : segments p = segments d ++ segments (baseName p) := by
    conv => lhs; rw [hsplit]
    exact segments_append_slash _ _
  have hpath : p ≠ ['/'] := fun e => by
    have := congrArg List.length (e ▸ hsplit)
    have := List.length_pos_iff.mpr hd
    simp at *
    omega
  have hne : segments p ≠ [] := fun e => hpath (by rw [← hp, e]; rfl)
  have hflat : (segments p).flatMap ('/' :: ·) = d ++ '/' :: baseName p := by
    rw [← hsplit]
    rw [Canonical, spelling, if_neg hne] at hp
    exact hp
  by_cases hb : baseName p = []
  · -- a canonical path does not end with a slash
    have := getLast_flatMap_slash fun s hs => not_mem_of_mem_segments (p := p) hs
    rw [hflat, hb] at this
    simp at this
  · rw [hsegs, segments_of_not_mem (not_mem_baseName p) hb, List.flatMap_append] at hflat
    have hdir : (segments d).flatMap ('/' :: ·) = d :=
      List.append_inj_left' hflat (by simp)
    have : segments d ≠ [] := fun e => hd (by rw [← hdir, e]; rfl)
    rw [Canonical, spelling, if_neg this]
    exact hdir

theorem count_flatMap_slash {ss : List (List Char)} (h : ∀ s ∈ ss, '/' ∉ s) :
    (ss.flatMap ('/' :: ·)).count '/' = ss.length := by
  induction ss with
  | nil => rfl
  | cons s ss ih =>
    have hs := List.count_eq_zero_of_not_mem (h s List.mem_cons_self)
    have hss := ih fun t ht => h t (List.mem_cons_of_mem s ht)
    rw [List.flatMap_cons, List.count_append, List.count_cons_self, hs, hss, List.length_cons]
    omega

theorem Canonical.depth_of_parent {p d : List Char} (hp : Canonical p) (h : parent? p = some d) :
    1 < depth p := by
  obtain ⟨hsplit, hd⟩ := parent?_eq_some h
  obtain ⟨c, d, rfl⟩ := List.exists_cons_of_ne_nil hd
  by_cases hs : segments p = []
  · rw [Canonical, spelling, if_pos hs] at hp
    rw [← hp] at hsplit
    simp at hsplit
  · rw [Canonical, spelling, if_neg hs] at hp
    have hcount := count_flatMap_slash fun s hs => (not_mem_of_mem_segments (p := p) hs).2
    rw [hp] at hcount
    have hhead : p.head? = some '/' := by
      obtain ⟨s, ss, hss⟩ := List.exists_cons_of_ne_nil hs
      rw [← hp, hss]
      rfl
    -- one slash stands at the beginning, and another one behind the parent
    have hc : c = '/' := by
      rw [hsplit] at hhead
      exact Option.some.inj hhead
    have htwo : 1 < p.count '/' := by
      rw [hsplit, hc, List.cons_append, List.count_cons_self, List.count_append,
        List.count_cons_self]
      omega
    rwa [hcount] at htwo

end Stowage.Path
