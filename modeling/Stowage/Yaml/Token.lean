import Stowage.Text.Digits
import Stowage.Yaml.BlockScalar
import Stowage.Yaml.FlowScalar

/-!
# Tokens of YAML

The signs of a YAML text: scalars, properties of nodes, the marks of documents, and the beginnings
and ends of collections. Those of block collections come from indentation.
-/

namespace Stowage.Yaml

inductive ScalarStyle
  | plain
  | quoted
  | literal
  | folded
deriving DecidableEq

inductive Token
  | version (major minor : Nat)
  | tagHandle (handle : List Char) (expansion : List UInt8)
  | documentStart
  | documentEnd
  | blockListStart
  | blockFieldsStart
  | blockEnd
  | flowListStart
  | flowListEnd
  | flowFieldsStart
  | flowFieldsEnd
  | blockEntry
  | flowEntry
  | key
  | value
  | aliasOf (name : List Char)
  | anchor (name : List Char)
  | tag (handle : List Char) (rest : List UInt8)
  | scalar (style : ScalarStyle) (text : List Char)
deriving DecidableEq

/-! ## Tags -/

/-- A handle in exclamation marks; only the first of them is needed in front of a node. -/
def tagHandle? (directive : Bool) (c : Cursor) : Option (List Char × Cursor) :=
  if c.head? ≠ some '!' then none else
  let name := (c.rest.drop 1).takeWhile isWordChar
  let after := c.advance (name.length + 1)
  if after.head? = some '!' then some ('!' :: name ++ ['!'], after.advance 1)
  else if directive && !name.isEmpty then none
  else some ('!' :: name, after)

def isTagChar (verbatim : Bool) (c : Char) : Bool :=
  isWordChar c || ";/?:@&=+$.!~*'()%".toList.contains c ||
  (verbatim && (c = ',' || c = '[' || c = ']'))

def continuationCount? (b : UInt8) : Option Nat :=
  if b < 0x80 then some 0
  else if 0xC0 ≤ b && b < 0xE0 then some 1
  else if 0xE0 ≤ b && b < 0xF0 then some 2
  else if 0xF0 ≤ b && b < 0xF8 then some 3
  else none

def isContinuation (b : UInt8) : Bool := 0x80 ≤ b && b < 0xC0

def percentByte? : List Char → Option (UInt8 × List Char)
  | '%' :: a :: b :: r => (natural? 16 [a, b]).map fun v => (UInt8.ofNat v, r)
  | _ => none

def continuation? : (count : Nat) → List Char → Option (List UInt8 × List Char)
  | 0, r => some ([], r)
  | n + 1, cs => do
    let (b, r) ← percentByte? cs
    if !isContinuation b then none else
    let (bs, r) ← continuation? n r
    some (b :: bs, r)

/-- Bytes of the form of one character. They need not be that of any. -/
def percentSequence? (cs : List Char) : Option (List UInt8 × List Char) := do
  let (b, r) ← percentByte? cs
  let (bs, r) ← continuation? (← continuationCount? b) r
  some (b :: bs, r)

def tagBytes? (verbatim : Bool) : (fuel : Nat) → List Char → Option (List UInt8 × List Char)
  | 0, r => some ([], r)
  | n + 1, cs =>
    match cs with
    | [] => some ([], [])
    | c :: r =>
      if c = '%' then do
        let (x, r) ← percentSequence? cs
        let (t, r) ← tagBytes? verbatim n r
        some (x ++ t, r)
      else if isTagChar verbatim c then do
        let (t, r) ← tagBytes? verbatim n r
        some (utf8Bytes [c] ++ t, r)
      else some ([], cs)

/-- The part of a tag behind its handle, up to a zero byte; `head` stands in front of it already. -/
def tagRest? (verbatim : Bool) (head : List Char) (c : Cursor) : Option (List UInt8 × Cursor) := do
  let (t, r) ← tagBytes? verbatim (c.rest.length + 1) c.rest
  if head.isEmpty && t.isEmpty then none
  else some ((utf8Bytes (head.drop 1) ++ t).takeWhile (· ≠ 0), c.advance (c.rest.length - r.length))

/-- The tag of a node, which a blank, the end of the line, or a comma in a flow collection ends. -/
def tag? (inFlow : Bool) (c : Cursor) : Option (Token × Cursor) := do
  let (token, c) ←
    if (c.rest.drop 1).head? = some '<' then do
      let (t, c) ← tagRest? true [] (c.advance 2)
      if c.head? = some '>' then some (Token.tag [] t, c.advance 1) else none
    else do
      let (handle, after) ← tagHandle? false c
      if 2 ≤ handle.length && handle.getLast? = some '!' then do
        let (t, c) ← tagRest? false [] after
        some (Token.tag handle t, c)
      else do
        let (t, c) ← tagRest? false handle after
        some (if t.isEmpty then Token.tag [] (utf8Bytes ['!']) else Token.tag ['!'] t, c)
  if endsWord c.rest || (inFlow && c.head? = some ',') then some (token, c) else none

/-! ## Anchors -/

def anchorName? (c : Cursor) : Option (List Char × Cursor) :=
  let name := (c.rest.drop 1).takeWhile isWordChar
  let after := c.advance (name.length + 1)
  if name.isEmpty then none
  else if endsWord after.rest || after.head?.any ("?:,]\x7d%@`".toList.contains ·) then
    some (name, after)
  else none

/-! ## Directives -/

def versionNumber? (c : Cursor) : Option (Nat × Cursor) :=
  let ds := c.rest.takeWhile Char.isDigit
  if 9 < ds.length then none else (natural? 10 ds).map fun n => (n, c.advance ds.length)

def version? (c : Cursor) : Option (Token × Cursor) := do
  let (major, c) ← versionNumber? (c.skipWhile isWhite)
  if c.head? ≠ some '.' then none else
  let (minor, c) ← versionNumber? (c.advance 1)
  some (.version major minor, c)

def tagDirective? (c : Cursor) : Option (Token × Cursor) := do
  let (handle, c) ← tagHandle? true (c.skipWhile isWhite)
  if !c.head?.any isWhite then none else
  let (expansion, c) ← tagRest? true [] (c.skipWhile isWhite)
  if endsWord c.rest then some (.tagHandle handle expansion, c) else none

def directive? (c : Cursor) : Option (Token × Cursor) := do
  let name := (c.rest.drop 1).takeWhile isWordChar
  let after := c.advance (name.length + 1)
  if !endsWord after.rest then none else
  let (token, c) ←
    if name = "YAML".toList then version? after
    else if name = "TAG".toList then tagDirective? after
    else none
  (c.finishLine?).map fun c => (token, c)

end Stowage.Yaml
