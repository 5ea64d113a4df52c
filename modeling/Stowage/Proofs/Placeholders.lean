import Mathlib.Data.List.Basic
import Mathlib.Data.List.TakeWhile
import Stowage.Proofs.Runs
import Stowage.Reference.Scope

/-!
# Placeholders read back

Segments that are joined with their dots escaped are split again as they were, and every text is
joined from the segments that it splits into. A text that is one placeholder expands to what its
reference stands for.
-/

namespace Stowage

/-! ## Segments -/

namespace Segments

theorem split_cons {c : Char} {r : List Char} (hc : c ≠ '.')
    (hr : c = '\\' → r.head? ≠ some '.') : split (c :: r) = (c :: (split r).1, (split r).2) := by
  rw [split]
  · rintro r' rfl rfl
    exact hr rfl rfl
  · exact hc

/-- Only a backslash at the end of a segment can be taken for an escape of what comes after it. -/
theorem split_escape_append (s r : List Char) (h : s.getLast? = some '\\' → r.head? ≠ some '.') :
    split (escape s ++ r) = (s ++ (split r).1, (split r).2) := by
  induction s with
  | nil => rfl
  | cons c s ih =>
    have hs : s.getLast? = some '\\' → r.head? ≠ some '.' := fun hl =>
      h (by rw [List.getLast?_cons, hl]; rfl)
    by_cases hc : c = '.'
    · subst hc
      rw [escape, if_pos rfl, List.cons_append, List.cons_append, split, ih hs]
      rfl
    · have hnext : c = '\\' → (escape s ++ r).head? ≠ some '.' := by
        rintro rfl
        cases s with
        | nil => exact h rfl
        | cons d s => by_cases hd : d = '.' <;> simp [escape, hd]
      rw [escape, if_neg hc, List.cons_append, split_cons hc hnext, ih hs]
      rfl

/-- No segment but the last one ends in a backslash. -/
def Joinable : List (List Char) → Prop
  | [] => False
  | [_] => True
  | s :: l => s.getLast? ≠ some '\\' ∧ Joinable l

theorem ofChars_join {l : List (List Char)} (h : Joinable l) : ofChars (join l) = l := by
  induction l with
  | nil => exact h.elim
  | cons s l ih =>
    cases l with
    | nil =>
      have hsplit := split_escape_append s [] (by simp)
      rw [List.append_nil] at hsplit
      simp [join, ofChars, hsplit, split]
    | cons t l =>
      have hsplit := split_escape_append s ('.' :: join (t :: l)) fun e => absurd e h.1
      have hrest : ofChars (join (t :: l)) = t :: l := ih h.2
      have hdot : split ('.' :: join (t :: l)) = ([], ofChars (join (t :: l))) := by
        rw [split, ofChars]
      rw [join, ofChars, hsplit, hdot, hrest, List.append_nil]
      exact List.cons_ne_nil t l

theorem ofText_toText {l : List String} (h : Joinable (l.map String.toList)) :
    ofText (toText l) = l := by
  rw [ofText, toText, String.toList_ofList, ofChars_join h, List.map_map]
  simp [Function.comp_def]

theorem mem_join {l : List (List Char)} {c : Char} (h : c ∈ join l) :
    c = '.' ∨ c = '\\' ∨ ∃ s ∈ l, c ∈ s := by
  have hescape : ∀ s : List Char, c ∈ escape s → c = '\\' ∨ c ∈ s := by
    intro s
    induction s with
    | nil => simp [escape]
    | cons d s ih => by_cases hd : d = '.' <;> simp only [escape, hd, if_true, if_false] <;> grind
  induction l with
  | nil => cases h
  | cons s l ih =>
    cases l with
    | nil => grind [join]
    | cons t l => grind [join]

/-! ## Joining what was split -/

theorem join_append_cons (s t : List Char) (l : List (List Char)) :
    join ((s ++ t) :: l) = escape s ++ join (t :: l) := by
  cases l with
  | nil => exact escape_append s t
  | cons u l => simp only [join, escape_append, List.append_assoc]

theorem join_ofChars (cs : List Char) : join (ofChars cs) = cs := by
  unfold ofChars
  fun_induction split cs with
  | case1 => rfl
  | case2 r ih =>
    have hdot := join_append_cons ['.'] (split r).1 (split r).2
    rw [ih] at hdot
    exact hdot
  | case3 r ih => simp only [join, escape, List.nil_append, ih]
  | case4 c r _ hdot ih =>
    have hchar := join_append_cons [c] (split r).1 (split r).2
    rw [ih, escape, if_neg hdot] at hchar
    exact hchar

theorem toText_ofText (s : String) : toText (ofText s) = s := by
  rw [toText, ofText, List.map_map]
  simp [Function.comp_def, join_ofChars]

theorem joinable_iff {l : List (List Char)} :
    Joinable l ↔ l ≠ [] ∧ ∀ s ∈ l.dropLast, s.getLast? ≠ some '\\' := by
  induction l with
  | nil => simp [Joinable]
  | cons s l ih =>
    cases l with
    | nil => simp [Joinable]
    | cons t l => simp [Joinable, ih]

theorem Joinable.cons_head {c : Char} {s : List Char} {l : List (List Char)}
    (h : Joinable (s :: l)) (hc : c = '\\' → s = [] → l = []) : Joinable ((c :: s) :: l) := by
  cases l with
  | nil => trivial
  | cons t l =>
    refine ⟨?_, h.2⟩
    cases s with
    | nil =>
      intro hlast
      have hc' : c = '\\' := by simpa using hlast
      exact absurd (hc hc' rfl) (List.cons_ne_nil t l)
    | cons d s =>
      rw [List.getLast?_cons_cons]
      exact h.1

theorem split_fst_ne_nil {c : Char} {r : List Char} (hc : c ≠ '.') : (split (c :: r)).1 ≠ [] := by
  by_cases hr : c = '\\' → r.head? ≠ some '.'
  · rw [split_cons hc hr]
    exact List.cons_ne_nil _ _
  · simp only [not_forall, not_not] at hr
    obtain ⟨rfl, hr⟩ := hr
    obtain ⟨r', rfl⟩ := List.head?_eq_some_iff.mp hr
    exact List.cons_ne_nil _ _

theorem joinable_ofChars (cs : List Char) : Joinable (ofChars cs) := by
  unfold ofChars
  fun_induction split cs with
  | case1 => trivial
  | case2 r ih => exact ih.cons_head fun hc => absurd hc (by decide)
  | case3 r ih => exact ⟨by simp, ih⟩
  | case4 c r hescape _ ih =>
    apply ih.cons_head
    intro hc hempty
    cases r with
    | nil => rfl
    | cons d r =>
      have hd : d ≠ '.' := fun hd => hescape r hc (by rw [hd])
      exact absurd hempty (split_fst_ne_nil hd)

theorem joinable_ofText (s : String) : Joinable ((ofText s).map String.toList) := by
  rw [ofText, List.map_map]
  simpa [Function.comp_def] using joinable_ofChars s.toList

/-- Splitting a text gives the one list of segments that joins to it and in which no segment before
a separator ends in a backslash. -/
theorem ofText_eq_iff {s : String} {l : List String} : ofText s = l ↔
    l ≠ [] ∧ (∀ p ∈ l.dropLast, p.toList.getLast? ≠ some '\\') ∧ toText l = s := by
  have hjoinable : Joinable (l.map String.toList) ↔
      l ≠ [] ∧ ∀ p ∈ l.dropLast, p.toList.getLast? ≠ some '\\' := by
    rw [joinable_iff, ← List.map_dropLast, List.forall_mem_map, ne_eq, List.map_eq_nil_iff]
  rw [← and_assoc, ← hjoinable]
  constructor
  · rintro rfl
    exact ⟨joinable_ofText s, toText_ofText s⟩
  · rintro ⟨hl, rfl⟩
    exact ofText_toText hl

example : ofText "metadata.labels.app\\.tier" = ["metadata", "labels", "app.tier"] := by decide

end Segments

/-! ## Placeholders -/

namespace Template

theorem pieces_placeholder {reference : List Char} (r : List Char) (hne : reference ≠ [])
    (hchars : ∀ c ∈ reference, isReferenceChar c = true) :
    pieces ('$' :: '\x7b' :: (reference ++ '\x7d' :: r)) = .placeholder reference :: pieces r := by
  have htake : (reference ++ '\x7d' :: r).takeWhile isReferenceChar = reference := by
    rw [List.takeWhile_append_of_pos hchars, List.takeWhile_cons_of_neg (by decide),
      List.append_nil]
  have hdrop : (reference ++ '\x7d' :: r).dropWhile isReferenceChar = '\x7d' :: r := by
    rw [List.dropWhile_append_of_pos hchars, List.dropWhile_cons_of_neg (by decide)]
  have hread : readPiece '$' ('\x7b' :: reference ++ ['\x7d'] ++ r) =
      (.placeholder reference, ('\x7b' :: reference ++ ['\x7d']).length) := by
    have happ : '\x7b' :: reference ++ ['\x7d'] ++ r = '\x7b' :: (reference ++ '\x7d' :: r) := by simp
    rw [happ, readPiece]
    simp [htake, hdrop, hne]
  have := scan_cons hread
  simpa [pieces] using this

end Template

def placeholder (segments : List String) : String :=
  "$\x7b" ++ Segments.toText segments ++ "\x7d"

/-- Segments that can be written into a reference. -/
def Referable (segments : List String) : Prop :=
  Segments.Joinable (segments.map String.toList) ∧
    ∀ s ∈ segments, ∀ c ∈ s.toList, Template.isReferenceChar c = true

theorem referable_iff {segments : List String} : Referable segments ↔ segments ≠ [] ∧
    (∀ s ∈ segments.dropLast, s.toList.getLast? ≠ some '\\') ∧
    (segments.all fun s => s.toList.all Template.isReferenceChar) = true := by
  rw [Referable, Segments.joinable_iff, ← List.map_dropLast, List.forall_mem_map, ne_eq,
    List.map_eq_nil_iff, and_assoc]
  simp only [List.all_eq_true]

instance (segments : List String) : Decidable (Referable segments) :=
  decidable_of_iff' _ referable_iff

theorem Referable.cons {root : String} {path : List String} (hroot : Referable [root, ""])
    (h : Referable path) : Referable (root :: path) := by
  obtain ⟨joinable, chars⟩ := h
  refine ⟨?_, List.forall_mem_cons.mpr ⟨hroot.2 root List.mem_cons_self, chars⟩⟩
  cases path with
  | nil => exact joinable.elim
  | cons key rest => exact ⟨hroot.1.1, joinable⟩

theorem Scope.expand_placeholder (scope : Scope) (mode : ReferenceMode) {segments : List String}
    (h : Referable segments) (several : 1 < segments.length) :
    scope.expand mode (placeholder segments) =
      (Reference.ofSegments (Segments.toText segments) mode segments >>=
        scope.lookup (Segments.toText segments)) := by
  have hne : (Segments.toText segments).toList ≠ [] := by
    match segments, several with
    | s :: t :: l, _ => simp [Segments.toText, Segments.join]
  have hchars : ∀ c ∈ (Segments.toText segments).toList, Template.isReferenceChar c = true := by
    intro c hc
    rw [Segments.toText, String.toList_ofList] at hc
    rcases Segments.mem_join hc with rfl | rfl | ⟨s, hs, hcs⟩
    · decide
    · decide
    · obtain ⟨t, ht, rfl⟩ := List.mem_map.mp hs
      exact h.2 t ht c hcs
  have hpieces : Template.pieces (placeholder segments).toList =
      [.placeholder (Segments.toText segments).toList] := by
    have := Template.pieces_placeholder [] hne hchars
    simpa [placeholder, String.toList_append, Template.pieces, scan] using this
  have hresolve : scope.resolve (Segments.toText segments) mode =
      (Reference.ofSegments (Segments.toText segments) mode segments >>=
        scope.lookup (Segments.toText segments)) := by
    rw [Scope.resolve, Reference.parse, Segments.ofText_toText h.1]
  rw [← hresolve, Scope.expand, Template.expand, hpieces]
  cases hr : scope.resolve (Segments.toText segments) mode with
  | error e => simp [Template.fill, Scope.resolveChars, hr, Except.map, bind, Except.bind]
  | ok value => simp [Template.fill, Scope.resolveChars, hr, Except.map, bind, Except.bind]

end Stowage
