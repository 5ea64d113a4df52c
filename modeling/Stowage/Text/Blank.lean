/-!
# Blank characters

The characters with the Unicode property White_Space, and text without them at its ends.
-/

namespace Stowage

def isBlank (c : Char) : Bool :=
  let n := c.toNat
  (9 ≤ n && n ≤ 13) || n == 0x20 || n == 0x85 || n == 0xA0 || n == 0x1680 ||
  (0x2000 ≤ n && n ≤ 0x200A) || n == 0x2028 || n == 0x2029 || n == 0x202F ||
  n == 0x205F || n == 0x3000

/-! ## Both ends of a list -/

def dropEndWhile (p : α → Bool) (l : List α) : List α := (l.reverse.dropWhile p).reverse

def trimBlank (l : List Char) : List Char := dropEndWhile isBlank (l.dropWhile isBlank)

theorem dropEndWhile_append_takeWhile (p : α → Bool) (l : List α) :
    dropEndWhile p l ++ (l.reverse.takeWhile p).reverse = l := by
  rw [dropEndWhile, ← List.reverse_append, List.takeWhile_append_dropWhile, List.reverse_reverse]

theorem dropEndWhile_append {p : α → Bool} {t r : List α} (ht : ∀ a ∈ t.getLast?, p a = false)
    (hr : ∀ a ∈ r, p a = true) : dropEndWhile p (t ++ r) = t := by
  have hr' : ∀ a ∈ r.reverse, p a = true := fun a ha => hr a (List.mem_reverse.mp ha)
  have ht' : t.reverse.dropWhile p = t.reverse := by
    rw [← List.head?_reverse] at ht
    cases h : t.reverse with
    | nil => rfl
    | cons a l =>
      rw [h] at ht
      exact List.dropWhile_cons_of_neg (by simp [ht a rfl])
  rw [dropEndWhile, List.reverse_append, List.dropWhile_append_of_pos hr', ht', List.reverse_reverse]

/-! ## Trimmed texts -/

/-- The second text is the first one without the blank characters around it. -/
structure Trimmed (l t : List Char) : Prop where
  around : ∃ before after, l = before ++ (t ++ after) ∧
    (∀ c ∈ before, isBlank c = true) ∧ ∀ c ∈ after, isBlank c = true
  first : ∀ c ∈ t.head?, isBlank c = false
  last : ∀ c ∈ t.getLast?, isBlank c = false

theorem trimmed_trimBlank (l : List Char) : Trimmed l (trimBlank l) := by
  have hcut : trimBlank l ++ ((l.dropWhile isBlank).reverse.takeWhile isBlank).reverse =
      l.dropWhile isBlank := dropEndWhile_append_takeWhile isBlank (l.dropWhile isBlank)
  constructor
  · refine ⟨l.takeWhile isBlank, ((l.dropWhile isBlank).reverse.takeWhile isBlank).reverse,
      ?_, ?_, ?_⟩
    · rw [hcut, List.takeWhile_append_dropWhile]
    · exact List.all_eq_true.mp List.all_takeWhile
    · intro c hc
      exact List.all_eq_true.mp List.all_takeWhile c (List.mem_reverse.mp hc)
  · intro c hc
    have hfirst := List.head?_dropWhile_not isBlank l
    obtain ⟨u, hu⟩ := List.head?_eq_some_iff.mp hc
    rw [← hcut, hu] at hfirst
    exact hfirst
  · intro c hc
    have hlast := List.head?_dropWhile_not isBlank (l.dropWhile isBlank).reverse
    rw [trimBlank, dropEndWhile, List.getLast?_reverse] at hc
    rw [hc] at hlast
    exact hlast

theorem Trimmed.eq_trimBlank {l t : List Char} (h : Trimmed l t) : t = trimBlank l := by
  obtain ⟨⟨before, after, rfl, hbefore, hafter⟩, hfirst, hlast⟩ := h
  rw [trimBlank, List.dropWhile_append_of_pos hbefore]
  cases t with
  | nil =>
    rw [List.nil_append, ← List.append_nil after, List.dropWhile_append_of_pos hafter]
    rfl
  | cons c t =>
    have hc : ¬isBlank c = true := by simp [hfirst c rfl]
    rw [List.cons_append, List.dropWhile_cons_of_neg hc, ← List.cons_append,
      dropEndWhile_append hlast hafter]

theorem Trimmed.unique {l t u : List Char} (ht : Trimmed l t) (hu : Trimmed l u) : t = u :=
  ht.eq_trimBlank.trans hu.eq_trimBlank.symm

end Stowage
