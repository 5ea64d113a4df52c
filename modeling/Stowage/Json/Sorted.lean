import Stowage.Json.Basic

/-!
# Sorting the keys of a value

`sorted` brings each object of a value into canonical form, at every depth. Of two entries with one
key the later stays.
-/

namespace Stowage.Json

mutual

def sorted : Json → Json
  | arr l => arr (sortedItems l)
  | obj l => obj (sortedEntries [] l)
  | j => j

def sortedItems : List Json → List Json
  | [] => []
  | j :: l => j.sorted :: sortedItems l

def sortedEntries (acc : List (String × Json)) : List (String × Json) → List (String × Json)
  | [] => acc
  | (k, j) :: l => sortedEntries (sortedInsert k j.sorted acc) l

end

mutual

theorem canonical_sorted (j : Json) : j.sorted.canonical = true :=
  match j with
  | null | bool _ | num _ | str _ => rfl
  | arr l => by simpa [sorted, canonical] using canonicalItems_sortedItems l
  | obj l => by simpa [sorted] using canonical_sortedEntries l [] rfl

theorem canonicalItems_sortedItems (l : List Json) : canonicalItems (sortedItems l) = true :=
  match l with
  | [] => rfl
  | j :: l => by
    simp [sortedItems, canonicalItems, canonical_sorted j, canonicalItems_sortedItems l]

theorem canonical_sortedEntries (l acc : List (String × Json)) (h : (obj acc).canonical = true) :
    (obj (sortedEntries acc l)).canonical = true :=
  match l with
  | [] => h
  | (k, j) :: l => by
    rw [sortedEntries]
    exact canonical_sortedEntries l _ (canonical_sortedInsert h k (canonical_sorted j))

end

mutual

theorem sorted_of_canonical : (j : Json) → j.canonical = true → j.sorted = j
  | null, _ | bool _, _ | num _, _ | str _, _ => rfl
  | arr l, h => by rw [sorted, sortedItems_of_canonical l h]
  | obj l, h => by
    rw [canonical, Bool.and_eq_true, decide_eq_true_eq] at h
    rw [sorted, sortedEntries_of_canonical l [] h.1 h.2, List.nil_append]

theorem sortedItems_of_canonical : (l : List Json) → canonicalItems l = true → sortedItems l = l
  | [], _ => rfl
  | j :: l, h => by
    rw [canonicalItems, Bool.and_eq_true] at h
    rw [sortedItems, sorted_of_canonical j h.1, sortedItems_of_canonical l h.2]

theorem sortedEntries_of_canonical : (l acc : List (String × Json)) → KeySorted (acc ++ l) →
    canonicalEntries l = true → sortedEntries acc l = acc ++ l
  | [], acc, _, _ => by rw [sortedEntries, List.append_nil]
  | (k, j) :: l, acc, hs, h => by
    rw [canonicalEntries, Bool.and_eq_true] at h
    rw [sortedEntries, sorted_of_canonical j h.1, sortedInsert_of_lt hs.lt_of_append,
      sortedEntries_of_canonical l _ (by rwa [List.append_assoc]) h.2, List.append_assoc,
      List.singleton_append]

end

end Stowage.Json
