import Stowage.Document.Node
import Stowage.Json.Sorted

/-!
# Free-form metadata

Any nested values under sorted keys. The entries `name` and `annotations` have a meaning.
-/

namespace Stowage

structure Metadata where
  entries : List (String × Json)
  canonical : (Json.obj entries).canonical = true

namespace Metadata

def empty : Metadata := ⟨[], rfl⟩

instance : Inhabited Metadata := ⟨empty⟩

def ofEntries (l : List (String × Json)) : Metadata :=
  ⟨Json.sortedEntries [] l, Json.canonical_sortedEntries l [] rfl⟩

@[simp] theorem ofEntries_entries (m : Metadata) : ofEntries m.entries = m := by
  obtain ⟨l, hl⟩ := m
  have h : (Json.obj l).sorted = .obj l := Json.sorted_of_canonical _ hl
  simpa [ofEntries, Json.sorted] using h

def ofName (name : String) : Metadata := ofEntries [("name", .str name)]

def insert (m : Metadata) (k : String) (j : Json) (h : j.canonical = true) : Metadata :=
  ⟨sortedInsert k j m.entries, Json.canonical_sortedInsert m.canonical k h⟩

def json (m : Metadata) : Json := .obj m.entries

/-! ## Look-up -/

def get? (m : Metadata) (k : String) : Option Json := m.entries.lookup k

/-- The name, if it is a text. -/
def name? (m : Metadata) : Option String := (m.get? "name").bind Json.text?

def lookup? (m : Metadata) : List String → Option Json
  | [] => none
  | k :: path => (m.get? k).bind (·.walk? path)

/-! ## Annotations -/

def annotationEntries (m : Metadata) : List (String × Json) :=
  ((m.get? "annotations").bind Json.entries?).getD []

def annotated? (m : Metadata) (key : String) : Option Json := m.annotationEntries.lookup key

theorem canonical_get? {m : Metadata} {k : String} {j : Json} (h : m.get? k = some j) :
    j.canonical = true :=
  (Json.canonical_obj.mp m.canonical).2 _ (mem_of_lookup_eq_some h)

theorem canonical_annotationEntries (m : Metadata) :
    (Json.obj m.annotationEntries).canonical = true := by
  rw [annotationEntries]
  cases h : m.get? "annotations" with
  | none => rfl
  | some j => cases j with
    | obj l => exact canonical_get? h
    | _ => rfl

/-- Writes an annotation. Annotations that are not an object give way to one. -/
def annotate (m : Metadata) (key value : String) : Metadata :=
  m.insert "annotations" (.obj (sortedInsert key (.str value) m.annotationEntries))
    (Json.canonical_sortedInsert m.canonical_annotationEntries key rfl)

/-! ## Reading -/

def ofNode? (n : Node) : Decoding Metadata := ofEntries <$> n.entries? Node.value?

end Metadata
end Stowage
