import Stowage.Document.Json
import Stowage.Proofs.Lexing

/-!
# Written values and their documents

The tokens of a value, taken in where a value may come next, put its document into the innermost
open container. So a text that was written from a value of bounded depth is read as the document of
that value.
-/

namespace Stowage

namespace Json

/-! ## Depth -/

mutual

def height : Json → Nat
  | arr l => itemsHeight l + 1
  | obj l => entriesHeight l + 1
  | _ => 0

def itemsHeight : List Json → Nat
  | [] => 0
  | j :: l => max j.height (itemsHeight l)

def entriesHeight : List (String × Json) → Nat
  | [] => 0
  | (_, j) :: l => max j.height (entriesHeight l)

end

end Json

namespace Document

open State

/-! ## Steps -/

theorem close_of_lt {n : Node} {stack : List Frame} (h : stack.length < maxDepth) :
    close n stack = put n stack := by
  rw [close, if_pos h]

theorem foldlM_listStart {l : List Json} (hl : l ≠ []) (stack : List Frame) :
    (Json.itemTokens l).foldlM step (listStart stack) =
      (Json.itemTokens l).foldlM step (value (.list [] :: stack)) := by
  match l with
  | [] => exact absurd rfl hl
  | j :: l => cases j <;> rfl

theorem foldlM_fieldsStart {l : List (String × Json)} (hl : l ≠ []) (stack : List Frame) :
    (Json.entryTokens l).foldlM step (fieldsStart stack) =
      (Json.entryTokens l).foldlM step (key [] stack) := by
  match l with
  | [] => exact absurd rfl hl
  | _ :: _ => rfl

/-! ## Runs -/

-- By induction on the value, behind any open containers: a member is read with the container that
-- holds it on top of them. The bound on the depth is what keeps each container readable.
mutual

theorem foldlM_tokens : (j : Json) → (stack : List Frame) → stack.length + j.height ≤ maxDepth →
    j.tokens.foldlM step (value stack) = some (put j.node stack)
  | .null, _, _ => rfl
  | .bool _, _, _ => rfl
  | .num _, _, _ => rfl
  | .str _, _, _ => rfl
  | .arr l, stack, h => by
    rw [Json.height] at h
    have hlt : stack.length < maxDepth := by omega
    have hopen : step (value stack) .listOpen = some (listStart stack) := rfl
    rw [Json.tokens, List.cons_append, List.foldlM_cons, hopen, Option.bind_eq_bind,
      Option.bind_some, List.foldlM_append, Json.node]
    by_cases hl : l = []
    · subst hl
      simp [Json.itemTokens, step, close_of_lt hlt, Json.itemNodes]
    · rw [foldlM_listStart hl, foldlM_itemTokens l hl [] stack (by omega)]
      simp [step, close_of_lt hlt]
  | .obj l, stack, h => by
    rw [Json.height] at h
    have hlt : stack.length < maxDepth := by omega
    have hopen : step (value stack) .fieldsOpen = some (fieldsStart stack) := rfl
    rw [Json.tokens, List.cons_append, List.foldlM_cons, hopen, Option.bind_eq_bind,
      Option.bind_some, List.foldlM_append, Json.node]
    by_cases hl : l = []
    · subst hl
      simp [Json.entryTokens, step, close_of_lt hlt, Json.entryNodes]
    · rw [foldlM_fieldsStart hl, foldlM_entryTokens l hl [] stack (by omega)]
      simp [step, close_of_lt hlt]

theorem foldlM_itemTokens : (l : List Json) → l ≠ [] → (items : List Node) →
    (stack : List Frame) → stack.length + Json.itemsHeight l < maxDepth →
    (Json.itemTokens l).foldlM step (value (.list items :: stack)) =
      some (listNext ((Json.itemNodes l).reverse ++ items) stack)
  | [], hl, _, _, _ => absurd rfl hl
  | j :: l, _, items, stack, h => by
    rw [Json.itemsHeight] at h
    have hj : stack.length + 1 + j.height ≤ maxDepth := by omega
    rw [Json.itemTokens, List.foldlM_append, foldlM_tokens j (.list items :: stack) hj]
    by_cases hl : l = []
    · subst hl
      simp [put, Json.itemNodes]
    · have hitems := foldlM_itemTokens l hl (j.node :: items) stack (by omega)
      simp [hl, put, step, hitems, Json.itemNodes]

theorem foldlM_entryTokens : (l : List (String × Json)) → l ≠ [] →
    (entries : List (Node × Node)) → (stack : List Frame) →
    stack.length + Json.entriesHeight l < maxDepth →
    (Json.entryTokens l).foldlM step (key entries stack) =
      some (fieldsNext ((Json.entryNodes l).reverse ++ entries) stack)
  | [], hl, _, _, _ => absurd rfl hl
  | (k, j) :: l, _, entries, stack, h => by
    rw [Json.entriesHeight] at h
    have hj : stack.length + 1 + j.height ≤ maxDepth := by omega
    have htokens := foldlM_tokens j (.fields entries (.scalar (.ofQuoted (some k))) :: stack) hj
    by_cases hl : l = []
    · subst hl
      simp [Json.entryTokens, step, htokens, put, Json.entryNodes]
    · have hentries := foldlM_entryTokens l hl
        ((.scalar (.ofQuoted (some k)), j.node) :: entries) stack (by omega)
      simp [Json.entryTokens, step, htokens, hl, put, hentries, Json.entryNodes]

end

/-- A text that was written from a value is read as the document of that value. -/
theorem ofJson?_text {j : Json} (numbers : j.integral = true) (depth : j.height ≤ maxDepth) :
    ofJson? j.text = some ⟨j.node, 0⟩ := by
  have hrun := foldlM_tokens j [] (by rw [List.length_nil]; omega)
  simp [ofJson?, ofJsonChars?, Json.tokenize_text numbers, hrun, put, node?]

end Document
end Stowage
