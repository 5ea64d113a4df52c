import Stowage.Yaml.Schema
import Stowage.Yaml.Tokens
import Stowage.Yaml.Tree

/-!
# Documents written in YAML

Anchors are numbered, and aliases stand for what has the numbers. What is nested too deeply is
well-formed but cannot be read.
-/

namespace Stowage.Document

open Yaml (Properties)

/-! ## Numbering anchors -/

abbrev AnchorNumbers := List (List Char × Nat)

/-- An anchor gets the count of distinct names before it as its number. A name given again adds
nothing to the count, so the next new name has the same number. -/
def numberAnchor (names : AnchorNumbers) (name : List Char) : Nat × AnchorNumbers :=
  let n := names.length
  (n, (name, n) :: names.filter (·.1 ≠ name))

def numberProperties (p : Properties (List Char)) :
    StateT AnchorNumbers Option (Properties Nat) := do
  match p.anchor with
  | none => pure ⟨none, p.tag⟩
  | some name =>
    let n ← modifyGet fun names => numberAnchor names name
    pure ⟨some n, p.tag⟩

mutual

/-- Numbers the anchors of a tree in their order. None for an alias without an anchor before it. -/
def numberTree : Yaml.Tree (List Char) → StateT AnchorNumbers Option (Yaml.Tree Nat)
  | .aliasOf name => do
    let names ← get
    return .aliasOf (← names.lookup name)
  | .scalar p style text => return .scalar (← numberProperties p) style text
  | .list p l => do
    let p ← numberProperties p
    return .list p (← numberItems l)
  | .fields p l => do
    let p ← numberProperties p
    return .fields p (← numberEntries l)

def numberItems : List (Yaml.Tree (List Char)) → StateT AnchorNumbers Option (List (Yaml.Tree Nat))
  | [] => return []
  | t :: l => do
    let t ← numberTree t
    return t :: (← numberItems l)

def numberEntries : List (Yaml.Tree (List Char) × Yaml.Tree (List Char)) →
    StateT AnchorNumbers Option (List (Yaml.Tree Nat × Yaml.Tree Nat))
  | [] => return []
  | (k, v) :: l => do
    let k ← numberTree k
    let v ← numberTree v
    return (k, v) :: (← numberEntries l)

end

mutual

def numbered : Yaml.Tree Nat → List (Nat × Yaml.Tree Nat)
  | .aliasOf _ => []
  | .scalar p style text => p.anchor.toList.map (·, .scalar p style text)
  | .list p l => p.anchor.toList.map (·, .list p l) ++ numberedItems l
  | .fields p l => p.anchor.toList.map (·, .fields p l) ++ numberedEntries l

def numberedItems : List (Yaml.Tree Nat) → List (Nat × Yaml.Tree Nat)
  | [] => []
  | t :: l => numbered t ++ numberedItems l

def numberedEntries : List (Yaml.Tree Nat × Yaml.Tree Nat) → List (Nat × Yaml.Tree Nat)
  | [] => []
  | (k, v) :: l => numbered k ++ numbered v ++ numberedEntries l

end

/-! ## Trees as documents -/

/-- What numbers stand for: the last part that has each. -/
def Targets := List (Nat × Yaml.Tree Nat)

def Targets.ofTree (t : Yaml.Tree Nat) : Targets := (numbered t).reverse

def maxYamlDepth : Nat := 128

def aliasesPerPart : Nat := 100

/-- A list or fields; a tag of an application bars the reading as a value. -/
def container (p : Properties Nat) (n : Node) : Node :=
  if p.tag.map Yaml.Tag.ofBytes = some .application then .tagged n else n

def scalarNode : Yaml.Tree Nat → Node
  | .scalar p style text => .scalar (Yaml.scalar (p.tag.map Yaml.Tag.ofBytes) style text)
  | _ => .unreadable

def partNode (inner : Yaml.Tree Nat → Node) : Yaml.Tree Nat → Node
  | .list p l => container p (.list false (l.map inner))
  | .fields p l => container p (.fields (l.map fun (k, v) => (inner k, inner v)))
  | t => scalarNode t

def partOrAlias (targets : Targets) (part : Yaml.Tree Nat → Node) : Yaml.Tree Nat → Node
  | .aliasOf k => .aliasOf fun _ => ((List.lookup k targets).map part).getD .unreadable
  | t => part t

def ofTree (targets : Targets) : (depth : Nat) → Yaml.Tree Nat → Node
  | 0 => partOrAlias targets scalarNode
  | n + 1 => partOrAlias targets (partNode (ofTree targets n))

/-! ## Reading texts -/

def blank : Scalar := { Scalar.unreadable with absent := some true, empty := true }

def ofYamlChars? (cs : List Char) : Option Document := do
  let ts ← Yaml.tokens? cs
  if ts.isEmpty then some ⟨.scalar blank, 0⟩ else
  let t ← Yaml.Tree.ofTokens? ts
  let (t, _) ← (numberTree t).run []
  some ⟨ofTree (Targets.ofTree t) maxYamlDepth t, aliasesPerPart * t.size⟩

def ofYaml? (s : String) : Option Document := ofYamlChars? s.toList

end Stowage.Document
