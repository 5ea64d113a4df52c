import Stowage.Document.Node
import Stowage.Manifest.Basic

/-!
# Conversion options

A namespace and common labels, laid over the finished manifests.
-/

namespace Stowage
namespace Conversion

structure Options where
  inNamespace : Option String
  /-- Put on every manifest and on the pod template, never on a selector. -/
  commonLabels : SortedMap String
deriving DecidableEq

namespace Options

def unset : Options := ⟨none, .empty⟩

instance : Inhabited Options := ⟨unset⟩

def ofNode? (n : Node) : Decoding Options := do
  let r ← n.record? ["namespace", "commonLabels"]
  return {
    inNamespace := ← r.optional? "namespace" Node.text?
    commonLabels := ← r.defaulted? "commonLabels" .empty (Node.sortedMap? Node.text?) }

def json (o : Options) : Json := .obj [
  ("namespace", Json.ofOption .str o.inNamespace),
  ("commonLabels", Json.ofMap o.commonLabels)]

/-! ## Stamping -/

/-- A namespace replaces that of an object, and its own labels win over the common ones. -/
def stampIdentity (o : Options) (i : Manifest.Identity) : Manifest.Identity :=
  { i with
    inNamespace := o.inNamespace.or i.inNamespace
    labels := o.commonLabels.union i.labels }

def stamp (o : Options) (m : Manifest) : Manifest := m.mapIdentity o.stampIdentity

end Options
end Conversion
end Stowage
