/-!
# Looking up entries

The first entry of a key answers for it.
-/

namespace Stowage

theorem lookup_cons_eq_ite [DecidableEq α] (k j : α) (x : β) (l : List (α × β)) :
    ((j, x) :: l).lookup k = if k = j then some x else l.lookup k := by
  rw [List.lookup_cons]
  by_cases h : k = j
  · simp [h]
  · simp [h, show (k == j) = false from beq_false_of_ne h]

theorem mem_of_lookup_eq_some [DecidableEq α] {k : α} {x : β} {l : List (α × β)}
    (h : l.lookup k = some x) : (k, x) ∈ l := by
  induction l with
  | nil => cases h
  | cons e l ih =>
    obtain ⟨j, y⟩ := e
    rw [lookup_cons_eq_ite] at h
    split at h
    · next e => cases h; subst e; exact List.mem_cons_self
    · exact List.mem_cons_of_mem _ (ih h)

end Stowage
