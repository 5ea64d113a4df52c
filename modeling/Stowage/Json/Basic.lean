import Stowage.Decimal.Double
import Stowage.Map.Sorted

/-!
# JSON values

Free-form values. An object is a list of entries in the order in which they are written; a value is
canonical when the keys of each of its objects strictly increase.
-/

namespace Stowage

inductive Number
  | int (n : Int)
  | double (d : Double)
deriving DecidableEq

inductive Json
  | null
  | bool (b : Bool)
  | num (n : Number)
  | str (s : String)
  | arr (items : List Json)
  | obj (entries : List (String × Json))

namespace Json

instance : Inhabited Json := ⟨null⟩

/-! ## Canonical values -/

mutual

def canonical : Json → Bool
  | arr l => canonicalItems l
  | obj l => decide (KeySorted l) && canonicalEntries l
  | _ => true

def canonicalItems : List Json → Bool
  | [] => true
  | j :: l => j.canonical && canonicalItems l

def canonicalEntries : List (String × Json) → Bool
  | [] => true
  | (_, j) :: l => j.canonical && canonicalEntries l

end

theorem canonicalEntries_iff {l : List (String × Json)} :
    canonicalEntries l = true ↔ ∀ e ∈ l, e.2.canonical = true := by
  induction l with
  | nil => simp [canonicalEntries]
  | cons e l ih => obtain ⟨k, j⟩ := e; simp [canonicalEntries, ih]

theorem canonical_obj {l : List (String × Json)} :
    (obj l).canonical = true ↔ KeySorted l ∧ ∀ e ∈ l, e.2.canonical = true := by
  simp [canonical, canonicalEntries_iff]

theorem canonical_sortedInsert {l : List (String × Json)} (h : (obj l).canonical = true)
    (k : String) {j : Json} (hj : j.canonical = true) :
    (obj (sortedInsert k j l)).canonical = true := by
  rw [canonical_obj] at h ⊢
  refine ⟨h.1.sortedInsert k j, fun e he => ?_⟩
  rcases mem_sortedInsert he with rfl | he
  · exact hj
  · exact h.2 e he

/-! ## Access -/

def entries? : Json → Option (List (String × Json))
  | obj l => some l
  | _ => none

def text? : Json → Option String
  | str s => some s
  | _ => none

def walk? : Json → List String → Option Json
  | j, [] => some j
  | obj l, k :: path => (l.lookup k).bind (·.walk? path)
  | _, _ :: _ => none

/-! ## Building -/

def ofStrings (l : List String) : Json := arr (l.map str)

def ofMap (m : SortedMap String) : Json := obj (m.toList.map fun e => (e.1, str e.2))

def ofOption (f : α → Json) : Option α → Json
  | some a => f a
  | none => null

def ofNat (n : Nat) : Json := num (.int n)

def ofInt (n : Int) : Json := num (.int n)

end Json
end Stowage
