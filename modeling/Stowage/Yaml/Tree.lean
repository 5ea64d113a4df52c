import Stowage.Yaml.Token

/-!
# Trees of YAML

What tokens amount to: scalars, lists and fields with the anchors and tags written in front of them,
and aliases, which stand for what an anchor names. A missing node is an empty plain scalar.
-/

namespace Stowage.Yaml

structure Properties (ν : Type) where
  anchor : Option ν
  tag : Option (List UInt8)

inductive Tree (ν : Type)
  | aliasOf (name : ν)
  | scalar (properties : Properties ν) (style : ScalarStyle) (text : List Char)
  | list (properties : Properties ν) (items : List (Tree ν))
  | fields (properties : Properties ν) (entries : List (Tree ν × Tree ν))

namespace Tree

def missing : Tree ν := scalar ⟨none, none⟩ .plain []

/-! ## Size -/

mutual

/-- Scalars and aliases count once, lists and fields at their beginning and at their end. -/
def size : Tree ν → Nat
  | aliasOf _ => 1
  | scalar _ _ _ => 1
  | list _ l => itemsSize l + 2
  | fields _ l => entriesSize l + 2

def itemsSize : List (Tree ν) → Nat
  | [] => 0
  | t :: l => t.size + itemsSize l

def entriesSize : List (Tree ν × Tree ν) → Nat
  | [] => 0
  | (k, v) :: l => k.size + v.size + entriesSize l

end

/-! ## Properties -/

abbrev Handles := List (List Char × List UInt8)

def defaultHandles : Handles :=
  [(['!'], utf8Bytes ['!']), (['!', '!'], utf8Bytes "tag:yaml.org,2002:".toList)]

def expandTag? (hs : Handles) (handle : List Char) (rest : List UInt8) : Option (List UInt8) :=
  if handle.isEmpty then some rest else (hs.lookup handle).map (· ++ rest)

def properties? (hs : Handles) : List Token → Option (Properties (List Char) × List Token)
  | .anchor a :: .tag h t :: ts => (expandTag? hs h t).map fun t => (⟨some a, some t⟩, ts)
  | .tag h t :: .anchor a :: ts => (expandTag? hs h t).map fun t => (⟨some a, some t⟩, ts)
  | .anchor a :: ts => some (⟨some a, none⟩, ts)
  | .tag h t :: ts => (expandTag? hs h t).map fun t => (⟨none, some t⟩, ts)
  | ts => some (⟨none, none⟩, ts)

/-- A node without content needs an anchor or a tag. -/
def emptyNode? (p : Properties ν) (ts : List Token) : Option (Tree ν × List Token) :=
  if p.anchor.isSome || p.tag.isSome then some (scalar p .plain [], ts) else none

/-! ## Ends of nodes -/

def endsItem (t : Token) : Bool := t = .blockEntry || t = .blockEnd

def endsField (t : Token) : Bool := t = .key || t = .value || t = .blockEnd

def endsFlowItem (t : Token) : Bool := t = .flowEntry || t = .flowListEnd

def endsFlowField (t : Token) : Bool := t = .flowEntry || t = .flowFieldsEnd

/-- Passes over the comma in front of all parts of a flow collection but the first. -/
def separator? (first : Bool) (ts : List Token) : Option (List Token) :=
  if first then some ts else
  match ts with
  | .flowEntry :: ts => some ts
  | _ => none

/-! ## Nodes -/

/-- What a node stands in. Block collections may not stand in flow collections, and a list that is
the key or value of block fields need not be indented. -/
inductive Place
  | block
  | field
  | flow
deriving DecidableEq

mutual

def node? (hs : Handles) (place : Place) :
    (fuel : Nat) → List Token → Option (Tree (List Char) × List Token)
  | 0, _ => none
  | _ + 1, .aliasOf name :: ts => some (aliasOf name, ts)
  | n + 1, ts => do
    let (p, ts) ← properties? hs ts
    match ts with
    | .scalar style text :: ts => some (scalar p style text, ts)
    | .flowListStart :: ts => (flowItems? hs true n ts).map fun (l, ts) => (list p l, ts)
    | .flowFieldsStart :: ts => (flowFields? hs true n ts).map fun (l, ts) => (fields p l, ts)
    | .blockListStart :: r =>
      if place = .flow then emptyNode? p ts
      else (items? hs n r).map fun (l, ts) => (list p l, ts)
    | .blockFieldsStart :: r =>
      if place = .flow then emptyNode? p ts
      else (blockFields? hs n r).map fun (l, ts) => (fields p l, ts)
    | .blockEntry :: _ =>
      if place = .field then (unindentedItems? hs n ts).map fun (l, ts) => (list p l, ts)
      else emptyNode? p ts
    | ts => emptyNode? p ts

/-- A node, or a missing one where a token comes that ends it. -/
def nodeBefore? (hs : Handles) (place : Place) (ends : Token → Bool) :
    (fuel : Nat) → List Token → Option (Tree (List Char) × List Token)
  | 0, _ => none
  | n + 1, ts => if ts.head?.any ends then some (missing, ts) else node? hs place n ts

/-- The value of a field, which is missing where there is no colon. -/
def fieldValue? (hs : Handles) (place : Place) (ends : Token → Bool) :
    (fuel : Nat) → List Token → Option (Tree (List Char) × List Token)
  | 0, _ => none
  | n + 1, .value :: ts => nodeBefore? hs place ends n ts
  | _ + 1, ts => some (missing, ts)

def items? (hs : Handles) :
    (fuel : Nat) → List Token → Option (List (Tree (List Char)) × List Token)
  | 0, _ => none
  | n + 1, .blockEntry :: ts => do
    let (t, ts) ← nodeBefore? hs .block endsItem n ts
    let (l, ts) ← items? hs n ts
    some (t :: l, ts)
  | _ + 1, .blockEnd :: ts => some ([], ts)
  | _ + 1, _ => none

def unindentedItems? (hs : Handles) :
    (fuel : Nat) → List Token → Option (List (Tree (List Char)) × List Token)
  | 0, _ => none
  | n + 1, .blockEntry :: ts => do
    let (t, ts) ← nodeBefore? hs .block (fun t => endsItem t || endsField t) n ts
    let (l, ts) ← unindentedItems? hs n ts
    some (t :: l, ts)
  | _ + 1, ts => some ([], ts)

def blockFields? (hs : Handles) :
    (fuel : Nat) → List Token → Option (List (Tree (List Char) × Tree (List Char)) × List Token)
  | 0, _ => none
  | n + 1, .key :: ts => do
    let (k, ts) ← nodeBefore? hs .field endsField n ts
    let (v, ts) ← fieldValue? hs .field endsField n ts
    let (l, ts) ← blockFields? hs n ts
    some ((k, v) :: l, ts)
  | _ + 1, .blockEnd :: ts => some ([], ts)
  | _ + 1, _ => none

/-- The items of a flow list. One with a key is a single field. -/
def flowItems? (hs : Handles) (first : Bool) :
    (fuel : Nat) → List Token → Option (List (Tree (List Char)) × List Token)
  | 0, _ => none
  | _ + 1, .flowListEnd :: ts => some ([], ts)
  | n + 1, ts => do
    match ← separator? first ts with
    | .flowListEnd :: ts => some ([], ts)
    | .key :: ts =>
      let (k, ts) ← itemKey? hs n ts
      let (v, ts) ← fieldValue? hs .flow endsFlowItem n ts
      let (l, ts) ← flowItems? hs false n ts
      some (fields ⟨none, none⟩ [(k, v)] :: l, ts)
    | ts =>
      let (t, ts) ← node? hs .flow n ts
      let (l, ts) ← flowItems? hs false n ts
      some (t :: l, ts)

/-- The key of a single field in a flow list. A missing one takes the token that comes instead. -/
def itemKey? (hs : Handles) :
    (fuel : Nat) → List Token → Option (Tree (List Char) × List Token)
  | 0, _ => none
  | n + 1, ts =>
    if ts.head?.any (fun t => t = .value || endsFlowItem t) then some (missing, ts.drop 1)
    else node? hs .flow n ts

/-- The entries of fields in flow style. One without a colon has no value. -/
def flowFields? (hs : Handles) (first : Bool) :
    (fuel : Nat) → List Token → Option (List (Tree (List Char) × Tree (List Char)) × List Token)
  | 0, _ => none
  | _ + 1, .flowFieldsEnd :: ts => some ([], ts)
  | n + 1, ts => do
    match ← separator? first ts with
    | .flowFieldsEnd :: ts => some ([], ts)
    | .key :: ts =>
      let (k, ts) ← nodeBefore? hs .flow (fun t => t = .value || endsFlowField t) n ts
      let (v, ts) ← fieldValue? hs .flow endsFlowField n ts
      let (l, ts) ← flowFields? hs false n ts
      some ((k, v) :: l, ts)
    | ts =>
      let (k, ts) ← node? hs .flow n ts
      let (l, ts) ← flowFields? hs false n ts
      some ((k, missing) :: l, ts)

end

/-! ## Documents -/

/-- The handles that directives declare, each at most once. -/
def directives? : (versioned : Bool) → Handles → List Token → Option (Handles × List Token)
  | versioned, hs, .version major minor :: ts =>
    if versioned || major ≠ 1 || (minor ≠ 1 && minor ≠ 2) then none else directives? true hs ts
  | versioned, hs, .tagHandle handle expansion :: ts =>
    if (hs.lookup handle).isSome then none
    else directives? versioned ((handle, expansion) :: hs) ts
  | _, hs, ts => some (hs ++ defaultHandles, ts)

def startsDocument : Token → Bool
  | .version _ _ | .tagHandle _ _ | .documentStart => true
  | _ => false

/-- Enough for tokens, each of which is behind at most four steps. -/
def fuelFor (ts : List Token) : Nat := 4 * ts.length + 16

def document? (ts : List Token) : Option (Tree (List Char) × List Token) :=
  if !ts.head?.any startsDocument then node? defaultHandles .block (fuelFor ts) ts else do
  let (hs, ts) ← directives? false [] ts
  match ts with
  | .documentStart :: ts =>
    if ts.head?.all (fun t => startsDocument t || t = .documentEnd) then some (missing, ts)
    else node? hs .block (fuelFor ts) ts
  | _ => none

def ofTokens? (ts : List Token) : Option (Tree (List Char)) := do
  let (t, ts) ← document? ts
  if ts.all (· = .documentEnd) then some t else none

end Tree
end Stowage.Yaml
