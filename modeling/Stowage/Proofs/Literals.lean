import Stowage.Conversion.Container
import Stowage.Proofs.Readings

/-!
# Literal texts

A text whose dollar signs are doubled expands to itself, wherever it is expanded, and what is
written behind it expands as if it stood alone.
-/

namespace Stowage

namespace Template

theorem not_opens_of_ne {c : Char} {r : List Char} (h : c ≠ '$') : ¬Opens (c :: r) := by
  rintro ⟨p, r', hform⟩
  cases hform with
  | dollar => exact h rfl
  | placeholder => exact h rfl

/-- The dollar signs of an escaped text pair up within it, so none is left that could begin a form
with the text behind. -/
theorem pieces_escape_append (s t : List Char) :
    pieces (escape s ++ t) = s.map .char ++ pieces t := by
  induction s with
  | nil => rfl
  | cons c s ih =>
    by_cases hc : c = '$'
    · subst hc
      rw [escape, if_pos rfl, List.cons_append, List.cons_append, pieces_of_form (.dollar _), ih,
        List.map_cons, List.cons_append]
    · rw [escape, if_neg hc, List.cons_append, pieces_of_not_opens (not_opens_of_ne hc), ih,
        List.map_cons, List.cons_append]

theorem expand_escape_append (resolve : List Char → Except ε (List Char)) (s t : List Char) :
    expand resolve (escape s ++ t) = (expand resolve t).map (s ++ ·) := by
  rw [expand, pieces_escape_append, fill_append_chars, expand]

end Template

def literal (s : String) : String := String.ofList (Template.escape s.toList)

example : literal "$\x7bmetadata.name\x7d costs $$5" = "$$\x7bmetadata.name\x7d costs $$$$5" := by
  decide

def SortedMap.map (f : α → β) (m : SortedMap α) : SortedMap β where
  toList := m.toList.map fun e => (e.1, f e.2)
  sorted := by
    rw [KeySorted, List.pairwise_map]
    exact m.sorted

section
variable (scope : Scope)

theorem Scope.expand_literal_append (mode : ReferenceMode) (s t : String) :
    scope.expand mode (literal s ++ t) = (scope.expand mode t).map (s ++ ·) := by
  unfold expand literal
  rw [String.toList_append, String.toList_ofList, Template.expand_escape_append]
  cases Template.expand (scope.resolveChars mode) t.toList with
  | error e => rfl
  | ok cs => simp [Except.map, String.ofList_append]

theorem Scope.expand_literal (mode : ReferenceMode) (s : String) :
    scope.expand mode (literal s) = .ok s := by
  have hempty : scope.expand mode "" = .ok "" := rfl
  have h := scope.expand_literal_append mode s ""
  rwa [String.append_empty, hempty, Except.map, String.append_empty] at h

theorem Conversion.environment_literal (values : SortedMap String) :
    environment scope (values.map literal) =
      .ok (values.toList.map fun e => ⟨e.1, e.2⟩) := by
  apply mapM_eq_ok_of_forall₂
  refine List.forall₂_map_left_iff.mpr (List.forall₂_map_right_iff.mpr ?_)
  refine List.forall₂_same.mpr fun e _ => ?_
  rw [scope.expand_literal]
  rfl

theorem Mount.fileContent_literal (f : Workload.File) (s : String) :
    fileContent { f with content := some (literal s), binaryContent := none, noExpand := false }
      scope = .ok (.text s) := by
  unfold fileContent
  simp only [scope.expand_literal]
  rfl

/-- An escaped text stands for itself: in front of any other text, alone, as the value of a variable
and as the content of a file. -/
theorem Scope.expand_escaped :
    (∀ mode s t, scope.expand mode (literal s ++ t) = (scope.expand mode t).map (s ++ ·)) ∧
    (∀ mode s, scope.expand mode (literal s) = .ok s) ∧
    (∀ values : SortedMap String, Conversion.environment scope (values.map literal) =
      .ok (values.toList.map fun e => ⟨e.1, e.2⟩)) ∧
    ∀ (f : Workload.File) s, Mount.fileContent
      { f with content := some (literal s), binaryContent := none, noExpand := false } scope =
        .ok (.text s) :=
  ⟨scope.expand_literal_append, scope.expand_literal, Conversion.environment_literal scope,
    Mount.fileContent_literal scope⟩

end
end Stowage
