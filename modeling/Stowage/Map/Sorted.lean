import Stowage.Map.Entries

/-!
# Maps sorted by key

A map from strings is its list of entries in strictly increasing key order, so
equal maps have equal lists. Writing a key again replaces its value.
-/

namespace Stowage

/-! ## Entry lists -/

/-- Places an entry by its key; an entry of the same key gives way to it. -/
def sortedInsert (k : String) (x : β) : List (String × β) → List (String × β)
  | [] => [(k, x)]
  | (k', x') :: l =>
    if k < k' then (k, x) :: (k', x') :: l
    else if k = k' then (k, x) :: l
    else (k', x') :: sortedInsert k x l

def KeySorted (l : List (String × β)) : Prop := l.Pairwise fun a b => a.1 < b.1

instance (l : List (String × β)) : Decidable (KeySorted l) :=
  inferInstanceAs (Decidable (l.Pairwise _))

theorem mem_sortedInsert {k : String} {x : β} {a : String × β} {l : List (String × β)} :
    a ∈ sortedInsert k x l → a = (k, x) ∨ a ∈ l := by
  induction l with
  | nil => simp [sortedInsert]
  | cons b l ih =>
    obtain ⟨k', x'⟩ := b
    rw [sortedInsert]; split
    · simp
    · split <;> grind

theorem lookup_sortedInsert (k k' : String) (x : β) (l : List (String × β)) :
    (sortedInsert k x l).lookup k' = if k' = k then some x else l.lookup k' := by
  induction l with
  | nil => exact lookup_cons_eq_ite k' k x []
  | cons b l ih =>
    obtain ⟨j, y⟩ := b
    rw [sortedInsert]; split
    · exact lookup_cons_eq_ite k' k x _
    · split
      · next e => subst e; grind [lookup_cons_eq_ite]
      · grind [lookup_cons_eq_ite]

theorem KeySorted.sortedInsert {l : List (String × β)} (h : KeySorted l) (k : String) (x : β) :
    KeySorted (sortedInsert k x l) := by
  induction l with
  | nil => simp [Stowage.sortedInsert, KeySorted]
  | cons b l ih =>
    obtain ⟨k', x'⟩ := b
    have hl : KeySorted l := List.Pairwise.of_cons h
    have hk : ∀ a ∈ l, k' < a.1 := fun a ha => List.rel_of_pairwise_cons h ha
    rw [Stowage.sortedInsert]; split
    · next lt =>
      refine List.pairwise_cons.mpr ⟨fun a ha => ?_, h⟩
      rcases List.mem_cons.mp ha with rfl | ha
      · exact lt
      · exact String.lt_trans lt (hk a ha)
    · split
      · next e => subst e; exact List.pairwise_cons.mpr ⟨hk, hl⟩
      · next nlt ne =>
        refine List.pairwise_cons.mpr ⟨fun a ha => ?_, ih hl⟩
        rcases mem_sortedInsert ha with rfl | ha
        · exact Std.lt_of_le_of_ne (String.not_lt.mp nlt) (Ne.symm ne)
        · exact hk a ha

theorem sortedInsert_of_lt {l : List (String × β)} {k : String} (h : ∀ a ∈ l, a.1 < k) (x : β) :
    sortedInsert k x l = l ++ [(k, x)] := by
  induction l with
  | nil => rfl
  | cons b l ih =>
    obtain ⟨hb, hl⟩ := List.forall_mem_cons.mp h
    have hne : k ≠ b.1 := fun e => String.lt_irrefl k (e ▸ hb)
    rw [sortedInsert, if_neg (String.lt_asymm hb), if_neg hne, ih hl, List.cons_append]

theorem KeySorted.lt_of_append {l r : List (String × β)} {e : String × β}
    (h : KeySorted (l ++ e :: r)) : ∀ a ∈ l, a.1 < e.1 := fun _ ha =>
  (List.pairwise_append.mp h).2.2 _ ha _ List.mem_cons_self

/-! ## Maps -/

structure SortedMap (β : Type u) where
  toList : List (String × β)
  sorted : KeySorted toList
deriving DecidableEq

namespace SortedMap

def empty : SortedMap β := ⟨[], List.Pairwise.nil⟩

instance : Inhabited (SortedMap β) := ⟨empty⟩

def insert (m : SortedMap β) (k : String) (x : β) : SortedMap β :=
  ⟨sortedInsert k x m.toList, m.sorted.sortedInsert k x⟩

def get? (m : SortedMap β) (k : String) : Option β := m.toList.lookup k

def isEmpty (m : SortedMap β) : Bool := m.toList.isEmpty

def singleton (k : String) (x : β) : SortedMap β := empty.insert k x

/-- Of two entries with one key the later stays. -/
def ofList (l : List (String × β)) : SortedMap β := l.foldl (fun m e => m.insert e.1 e.2) empty

/-- Entries of `m'` win over those of `m`. -/
def union (m m' : SortedMap β) : SortedMap β := m'.toList.foldl (fun m e => m.insert e.1 e.2) m

@[simp] theorem get?_empty (k : String) : (empty : SortedMap β).get? k = none := rfl

theorem get?_insert (m : SortedMap β) (k k' : String) (x : β) :
    (m.insert k x).get? k' = if k' = k then some x else m.get? k' :=
  lookup_sortedInsert k k' x m.toList

theorem toList_foldl_insert {m : SortedMap β} {l : List (String × β)}
    (h : KeySorted (m.toList ++ l)) :
    (l.foldl (fun m e => m.insert e.1 e.2) m).toList = m.toList ++ l := by
  induction l generalizing m with
  | nil => rw [List.foldl_nil, List.append_nil]
  | cons e l ih =>
    have hm : (m.insert e.1 e.2).toList = m.toList ++ [e] := sortedInsert_of_lt h.lt_of_append e.2
    rw [List.foldl_cons, ih (by rwa [hm, List.append_assoc]), hm, List.append_assoc]
    rfl

@[simp] theorem ofList_toList (m : SortedMap β) : ofList m.toList = m := by
  have h : (ofList m.toList).toList = m.toList := toList_foldl_insert (m := empty) m.sorted
  cases m
  cases e : ofList _
  simp_all

end SortedMap
end Stowage
