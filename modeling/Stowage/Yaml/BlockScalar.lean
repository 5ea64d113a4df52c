import Stowage.Yaml.Cursor

/-!
# Block scalars

Literal and folded scalars: a header line, and the lines indented below it.
-/

namespace Stowage.Yaml

/-! ## Headers -/

/-- What becomes of the line breaks at the end. -/
inductive Chomping
  | clip
  | strip
  | keep
deriving DecidableEq

structure BlockHeader where
  chomping : Chomping
  /-- Zero where the first line decides. -/
  increment : Nat

def chomping? : List Char → Option (Chomping × List Char)
  | '+' :: r => some (.keep, r)
  | '-' :: r => some (.strip, r)
  | _ => none

/-- An explicit indentation; zero is none, and is refused. -/
def increment? : List Char → Option (Nat × List Char)
  | c :: r =>
    if c.isDigit then (if c = '0' then none else some (c.toNat - 48, r)) else some (0, c :: r)
  | [] => some (0, [])

def blockHeader? (cs : List Char) : Option (BlockHeader × Nat) :=
  match chomping? cs with
  | some (ch, r) => (increment? r).map fun (k, s) => (⟨ch, k⟩, cs.length - s.length)
  | none => do
    let (k, r) ← increment? cs
    if k = 0 then some (⟨.clip, 0⟩, 0) else
    match chomping? r with
    | some (ch, s) => some (⟨ch, k⟩, cs.length - s.length)
    | none => some (⟨.clip, k⟩, cs.length - r.length)

/-! ## Lines -/

structure Blanks where
  breaks : List Char
  deepest : Nat
  cursor : Cursor

/-- Empty lines from a place on; an indentation of zero is not known yet. -/
def readBlanks (indent : Nat) : (fuel : Nat) → Blanks → Option Blanks
  | 0, b => some b
  | n + 1, b =>
    let spaces := (b.cursor.rest.takeWhile (· = ' ')).length
    let room := if indent = 0 then spaces else min spaces (indent - b.cursor.column)
    let c := b.cursor.advance room
    let deepest := max b.deepest c.column
    if (indent = 0 || c.column < indent) && c.head? = some '\t' then none
    else match c.head? with
      | some x =>
        if isBreak x then readBlanks indent n ⟨b.breaks ++ [breakChar x], deepest, c.nextLine⟩
        else some ⟨b.breaks, deepest, c⟩
      | none => some ⟨b.breaks, deepest, c⟩

def blanks? (indent : Nat) (c : Cursor) : Option Blanks :=
  readBlanks indent (c.rest.length + 1) ⟨[], 0, c⟩

/-- What is read so far: the text, the break of the last line, and the empty lines behind it. -/
structure BlockText where
  text : List Char
  lastBreak : List Char
  breaks : List Char
  /-- Whether the last line begins with a blank. -/
  indented : Bool
  cursor : Cursor

/-- What joins the text to a next line, whose first character decides whether it is indented. -/
def BlockText.join (b : BlockText) (literal indented : Bool) : List Char :=
  if !literal && b.lastBreak = ['\n'] && !b.indented && !indented then
    if b.breaks.isEmpty then [' '] else b.breaks
  else b.lastBreak ++ b.breaks

def readLines (literal : Bool) (indent : Nat) : (fuel : Nat) → BlockText → Option BlockText
  | 0, _ => none
  | n + 1, b =>
    if b.cursor.column ≠ indent || b.cursor.atEnd then some b else do
    let indented := b.cursor.head?.any isWhite
    let (line, c) := b.cursor.takeLine
    let lastBreak := (c.head?.map breakChar).toList
    let blanks ← blanks? indent c.nextLine
    readLines literal indent n
      ⟨b.text ++ b.join literal indented ++ line, lastBreak, blanks.breaks, indented, blanks.cursor⟩

def BlockText.chomped (b : BlockText) : Chomping → List Char
  | .strip => b.text
  | .clip => b.text ++ b.lastBreak
  | .keep => b.text ++ b.lastBreak ++ b.breaks

/-- A block scalar from its indicator on, inside a block that is indented by `parent`. -/
def blockScalar? (literal : Bool) (parent : Int) (c : Cursor) : Option (List Char × Cursor) := do
  let (header, k) ← blockHeader? (c.rest.drop 1)
  let c ← (c.advance (k + 1)).finishLine?
  let base := parent.toNat
  let given := if header.increment = 0 then 0 else base + header.increment
  let blanks ← blanks? given c
  let indent := if given = 0 then max (max blanks.deepest (parent + 1).toNat) 1 else given
  let b ← readLines literal indent (c.rest.length + 1) ⟨[], [], blanks.breaks, false, blanks.cursor⟩
  some (b.chomped header.chomping, b.cursor)

end Stowage.Yaml
