import Stowage.Document.Node
import Stowage.Json.Token

/-!
# Documents written in JSON

Tokens are read one by one, the open containers standing on a stack. A container more than
`maxDepth` deep is well-formed but cannot be read.
-/

namespace Stowage

/-! ## Values as documents -/

namespace Scalar

def ofNumber (n : Option Number) : Scalar :=
  { unreadable with
    value := n.map .num
    count := n.bind fun
      | .int k => if 0 ≤ k then some k.toNat else none
      | .double _ => none }

def ofQuoted (s : Option String) : Scalar := { unreadable with text := s, value := s.map .str }

def null : Scalar := { unreadable with value := some .null, absent := some true }

def ofBool (b : Bool) : Scalar := { unreadable with value := some (.bool b), flag := some b }

end Scalar

mutual

def Json.node : Json → Node
  | .null => .scalar .null
  | .bool b => .scalar (.ofBool b)
  | .num n => .scalar (.ofNumber (some n))
  | .str s => .scalar (.ofQuoted (some s))
  | .arr l => .list true (itemNodes l)
  | .obj l => .fields (entryNodes l)

def Json.itemNodes : List Json → List Node
  | [] => []
  | j :: l => j.node :: Json.itemNodes l

def Json.entryNodes : List (String × Json) → List (Node × Node)
  | [] => []
  | (k, j) :: l => (.scalar (.ofQuoted (some k)), j.node) :: Json.entryNodes l

end

@[simp] theorem Node.text?_ofQuoted (s : String) :
    (Node.scalar (.ofQuoted (some s))).text? = pure s := rfl

mutual

theorem Json.value?_node : (j : Json) → j.node.value? = pure j
  | .null => rfl
  | .bool _ => rfl
  | .num _ => rfl
  | .str _ => rfl
  | .arr l => by simp [Json.node, Node.value?, Json.values?_itemNodes l]
  | .obj l => by simp [Json.node, Node.value?, Json.entryValues?_entryNodes l]

theorem Json.values?_itemNodes : (l : List Json) → Node.values? (Json.itemNodes l) = pure l
  | [] => rfl
  | j :: l => by simp [Json.itemNodes, Node.values?, Json.value?_node j, Json.values?_itemNodes l]

theorem Json.entryValues?_entryNodes :
    (l : List (String × Json)) → Node.entryValues? (Json.entryNodes l) = pure l
  | [] => rfl
  | (k, j) :: l => by
    simp [Json.entryNodes, Node.entryValues?, Json.value?_node j, Json.entryValues?_entryNodes l]

end

/-! ## Reading tokens -/

namespace Document

def maxDepth : Nat := 127

/-- A container that is not closed yet, what it holds standing in reverse. -/
inductive Frame
  | list (items : List Node)
  | fields (entries : List (Node × Node)) (key : Node)

inductive State
  | value (stack : List Frame)
  | listStart (stack : List Frame)
  | listNext (items : List Node) (stack : List Frame)
  | fieldsStart (stack : List Frame)
  | key (entries : List (Node × Node)) (stack : List Frame)
  | colon (entries : List (Node × Node)) (key : Node) (stack : List Frame)
  | fieldsNext (entries : List (Node × Node)) (stack : List Frame)
  | finished (n : Node)

namespace State

def put (n : Node) : List Frame → State
  | [] => finished n
  | .list items :: stack => listNext (n :: items) stack
  | .fields entries k :: stack => fieldsNext ((k, n) :: entries) stack

def close (n : Node) (stack : List Frame) : State :=
  put (if stack.length < maxDepth then n else .unreadable) stack

def start (stack : List Frame) : Json.Token → Option State
  | .listOpen => some (listStart stack)
  | .fieldsOpen => some (fieldsStart stack)
  | .text s => some (put (.scalar (.ofQuoted s)) stack)
  | .number n => some (put (.scalar (.ofNumber n)) stack)
  | .null => some (put (.scalar .null) stack)
  | .bool b => some (put (.scalar (.ofBool b)) stack)
  | _ => none

def step : State → Json.Token → Option State
  | value stack, t => start stack t
  | listStart stack, .listClose => some (close (.list true []) stack)
  | listStart stack, t => start (.list [] :: stack) t
  | listNext items stack, .listClose => some (close (.list true items.reverse) stack)
  | listNext items stack, .comma => some (value (.list items :: stack))
  | fieldsStart stack, .fieldsClose => some (close (.fields []) stack)
  | fieldsStart stack, .text k => some (colon [] (.scalar (.ofQuoted k)) stack)
  | key entries stack, .text k => some (colon entries (.scalar (.ofQuoted k)) stack)
  | colon entries k stack, .colon => some (value (.fields entries k :: stack))
  | fieldsNext entries stack, .fieldsClose => some (close (.fields entries.reverse) stack)
  | fieldsNext entries stack, .comma => some (key entries stack)
  | _, _ => none

def node? : State → Option Node
  | finished n => some n
  | _ => none

end State

def ofJsonChars? (cs : List Char) : Option Document := do
  let ts ← Json.tokenize cs
  let s ← ts.foldlM State.step (State.value [])
  s.node?.map (⟨·, 0⟩)

def ofJson? (s : String) : Option Document := ofJsonChars? s.toList

end Document
end Stowage
