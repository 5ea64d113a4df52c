import Stowage.Bytes.Utf8

/-!
# Places in a YAML text

What is left of a text, with the line and column that it begins at, and the classes of characters
that YAML tells apart. Columns count characters.
-/

namespace Stowage.Yaml

/-! ## Characters -/

/-- The line and paragraph separators, which keep their form when lines are folded. -/
def isSeparator (c : Char) : Bool := c.toNat == 0x2028 || c.toNat == 0x2029

def isBreak (c : Char) : Bool := c = '\n' || c = '\r' || c.toNat == 0x85 || isSeparator c

def isWhite (c : Char) : Bool := c = ' ' || c = '\t'

def isWordChar (c : Char) : Bool := c.isAlphanum || c = '-' || c = '_'

def isPrintable (c : Char) : Bool :=
  let n := c.toNat
  n == 9 || n == 10 || n == 13 || (0x20 ≤ n && n ≤ 0x7E) || n == 0x85 || (0xA0 ≤ n && n ≤ 0xD7FF) ||
  (0xE000 ≤ n && n ≤ 0xFFFD) || 0x10000 ≤ n

def isByteOrderMark (c : Char) : Bool := c.toNat == 0xFEFF

def endsWord : List Char → Bool
  | [] => true
  | c :: _ => isWhite c || isBreak c

def breakChar (c : Char) : Char := if isSeparator c then c else '\n'

/-! ## Cursors -/

structure Cursor where
  rest : List Char
  offset : Nat
  line : Nat
  column : Nat

namespace Cursor

def start (cs : List Char) : Cursor := ⟨cs, 0, 0, 0⟩

/-- Passes over characters of one line. -/
def advance (c : Cursor) (n : Nat) : Cursor :=
  { c with
    rest := c.rest.drop n
    offset := c.offset + (utf8Bytes (c.rest.take n)).length
    column := c.column + n }

def nextLine (c : Cursor) : Cursor :=
  match c.rest with
  | '\r' :: '\n' :: r => ⟨r, c.offset + 2, c.line + 1, 0⟩
  | b :: r => if isBreak b then ⟨r, c.offset + b.utf8Size, c.line + 1, 0⟩ else c
  | [] => c

def head? (c : Cursor) : Option Char := c.rest.head?

def atEnd (c : Cursor) : Bool := c.rest.isEmpty

def atBreak (c : Cursor) : Bool := c.rest.head?.any isBreak

def atLineEnd (c : Cursor) : Bool := c.atEnd || c.atBreak

/-- Passes over characters of one sort, of which none is a line break. -/
def skipWhile (p : Char → Bool) (c : Cursor) : Cursor := c.advance (c.rest.takeWhile p).length

def takeLine (c : Cursor) : List Char × Cursor :=
  let l := c.rest.takeWhile (!isBreak ·)
  (l, c.advance l.length)

/-- Blanks and a comment up to the end of the line; none where anything else stands there. -/
def finishLine? (c : Cursor) : Option Cursor :=
  let c := c.skipWhile isWhite
  let c := if c.head? = some '#' then c.takeLine.2 else c
  if c.atLineEnd then some c.nextLine else none

def atMark (c : Cursor) (mark : Char) : Bool :=
  c.column == 0 && match c.rest with
    | x :: y :: z :: r => x == mark && y == mark && z == mark && endsWord r
    | _ => false

def atDocumentMark (c : Cursor) : Bool := c.atMark '-' || c.atMark '.'

end Cursor
end Stowage.Yaml
