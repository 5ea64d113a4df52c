import Stowage.Map.Entries

/-!
# Maps in order of declaration

A map from strings that keeps the order in which its keys were first written.
Writing a key again replaces its value where it stands.
-/

namespace Stowage

/-! ## Entry lists -/

/-- Replaces the entry of the key where it stands, or adds it at the end. -/
def putEntry (k : String) (x : β) : List (String × β) → List (String × β)
  | [] => [(k, x)]
  | (k', x') :: l => if k = k' then (k, x) :: l else (k', x') :: putEntry k x l

def KeyDistinct (l : List (String × β)) : Prop := (l.map Prod.fst).Nodup

instance (l : List (String × β)) : Decidable (KeyDistinct l) :=
  inferInstanceAs (Decidable (List.Nodup _))

theorem keys_putEntry (k : String) (x : β) (l : List (String × β)) :
    (putEntry k x l).map Prod.fst =
      if k ∈ l.map Prod.fst then l.map Prod.fst else l.map Prod.fst ++ [k] := by
  induction l with
  | nil => rfl
  | cons b l ih =>
    obtain ⟨k', x'⟩ := b
    rw [putEntry]; split
    · next h => simp [h]
    · next h =>
      simp only [List.map_cons, ih, List.mem_cons, h, false_or]
      split <;> simp

theorem KeyDistinct.putEntry {l : List (String × β)} (h : KeyDistinct l) (k : String) (x : β) :
    KeyDistinct (putEntry k x l) := by
  rw [KeyDistinct, keys_putEntry]; split
  · exact h
  · next hk => exact List.nodup_append.mpr ⟨h, by simp, by grind⟩

theorem KeyDistinct.lookup_of_mem {l : List (String × β)} (h : KeyDistinct l) {k : String} {x : β}
    (hx : (k, x) ∈ l) : l.lookup k = some x := by
  induction l with
  | nil => cases hx
  | cons b l ih =>
    obtain ⟨j, y⟩ := b
    obtain ⟨hj, hl⟩ := List.nodup_cons.mp h
    rw [lookup_cons_eq_ite]
    rcases List.mem_cons.mp hx with e | htail
    · cases e
      rw [if_pos rfl]
    · have hk : k ∈ l.map Prod.fst := List.mem_map_of_mem htail
      have hne : k ≠ j := fun e => hj (e ▸ hk)
      rw [if_neg hne, ih hl htail]

theorem lookup_putEntry (k k' : String) (x : β) (l : List (String × β)) :
    (putEntry k x l).lookup k' = if k' = k then some x else l.lookup k' := by
  induction l with
  | nil => exact lookup_cons_eq_ite k' k x []
  | cons b l ih =>
    obtain ⟨j, y⟩ := b
    rw [putEntry]; split
    · next e => subst e; grind [lookup_cons_eq_ite]
    · grind [lookup_cons_eq_ite]

theorem putEntry_of_not_mem {l : List (String × β)} {k : String} (h : k ∉ l.map Prod.fst) (x : β) :
    putEntry k x l = l ++ [(k, x)] := by
  induction l with
  | nil => rfl
  | cons b l ih =>
    rw [List.map_cons, List.mem_cons, not_or] at h
    rw [putEntry, if_neg h.1, ih h.2, List.cons_append]

theorem KeyDistinct.not_mem_of_append {l r : List (String × β)} {e : String × β}
    (h : KeyDistinct (l ++ e :: r)) : e.1 ∉ l.map Prod.fst := by
  rw [KeyDistinct, List.map_append, List.map_cons] at h
  exact fun hl => (List.nodup_append.mp h).2.2 _ hl _ List.mem_cons_self rfl

/-! ## Maps -/

structure OrderedMap (β : Type u) where
  toList : List (String × β)
  distinct : KeyDistinct toList
deriving DecidableEq

namespace OrderedMap

def empty : OrderedMap β := ⟨[], List.nodup_nil⟩

instance : Inhabited (OrderedMap β) := ⟨empty⟩

def insert (m : OrderedMap β) (k : String) (x : β) : OrderedMap β :=
  ⟨putEntry k x m.toList, m.distinct.putEntry k x⟩

def get? (m : OrderedMap β) (k : String) : Option β := m.toList.lookup k

def contains (m : OrderedMap β) (k : String) : Bool := (m.get? k).isSome

def isEmpty (m : OrderedMap β) : Bool := m.toList.isEmpty

/-- Of two entries with one key the first gives the place and the last the value. -/
def ofList (l : List (String × β)) : OrderedMap β := l.foldl (fun m e => m.insert e.1 e.2) empty

@[simp] theorem get?_empty (k : String) : (empty : OrderedMap β).get? k = none := rfl

theorem get?_insert (m : OrderedMap β) (k k' : String) (x : β) :
    (m.insert k x).get? k' = if k' = k then some x else m.get? k' :=
  lookup_putEntry k k' x m.toList

theorem toList_foldl_insert {m : OrderedMap β} {l : List (String × β)}
    (h : KeyDistinct (m.toList ++ l)) :
    (l.foldl (fun m e => m.insert e.1 e.2) m).toList = m.toList ++ l := by
  induction l generalizing m with
  | nil => rw [List.foldl_nil, List.append_nil]
  | cons e l ih =>
    have hm : (m.insert e.1 e.2).toList = m.toList ++ [e] :=
      putEntry_of_not_mem h.not_mem_of_append e.2
    rw [List.foldl_cons, ih (by rwa [hm, List.append_assoc]), hm, List.append_assoc]
    rfl

@[simp] theorem ofList_toList (m : OrderedMap β) : ofList m.toList = m := by
  have h : (ofList m.toList).toList = m.toList := toList_foldl_insert (m := empty) m.distinct
  cases m
  cases e : ofList _
  simp_all

end OrderedMap
end Stowage
