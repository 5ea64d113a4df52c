import Stowage.Document.Node
import Stowage.Map.Sorted

/-!
# Resources

A workload declares the resources it needs. Each has an identity token, and, once provisioned,
outputs by key.
-/

namespace Stowage

structure Resource where
  type : String
  className : Option String
  /-- Shares the resource between workloads. -/
  id : Option String
deriving DecidableEq

namespace Resource

def defaultClass : String := "default"

/-- The identity token: type, class, and either the explicit id or the names of the workload and of
the resource. -/
def token (workload name : String) (r : Resource) : String :=
  let owner := match r.id with
    | some id => id
    | none => workload ++ "." ++ name
  r.type ++ "." ++ r.className.getD defaultClass ++ "#" ++ owner

def fieldNames : List String := ["type", "class", "id"]

def ofNode? (n : Node) : Decoding Resource := do
  let r ← n.record? fieldNames
  return {
    type := ← r.required? "type" Node.text?
    className := ← r.optional? "class" Node.text?
    id := ← r.optional? "id" Node.text? }

def json (r : Resource) : Json := .obj [
  ("type", .str r.type),
  ("class", Json.ofOption .str r.className),
  ("id", Json.ofOption .str r.id)]

end Resource

/-! ## Outputs -/

/-- Values that provisioning gave, by resource and key. -/
structure Outputs where
  byResource : SortedMap (SortedMap String)
deriving DecidableEq

namespace Outputs

def empty : Outputs := ⟨.empty⟩

instance : Inhabited Outputs := ⟨empty⟩

def of? (o : Outputs) (resource : String) : Option (SortedMap String) := o.byResource.get? resource

def get? (o : Outputs) (resource key : String) : Option String := (o.of? resource).bind (·.get? key)

def insert (o : Outputs) (resource key value : String) : Outputs :=
  ⟨o.byResource.insert resource (((o.of? resource).getD .empty).insert key value)⟩

def ofNode? (n : Node) : Decoding Outputs :=
  Outputs.mk <$> n.sortedMap? (Node.sortedMap? Node.text?)

def json (o : Outputs) : Json := .obj (o.byResource.toList.map fun e => (e.1, Json.ofMap e.2))

end Outputs
end Stowage
