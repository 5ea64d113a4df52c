import Stowage.Json.Numeral
import Stowage.Json.Printer
import Stowage.Text.Scan

/-!
# Tokens of JSON

Brackets, commas and colons, texts, numbers and words. A text whose escapes leave half of a
surrogate pair, and a number beyond the range of doubles, are tokens without a value.
-/

namespace Stowage.Json

inductive Token
  | listOpen
  | listClose
  | fieldsOpen
  | fieldsClose
  | comma
  | colon
  | text (s : Option String)
  | number (n : Option Number)
  | null
  | bool (b : Bool)

inductive Lexeme
  | blank
  | token (t : Token)
  | malformed

/-! ## Texts -/

/-- A character as it stands, or a code written in hexadecimal. -/
inductive Piece
  | char (c : Char)
  | code (n : Nat)

def escaped? : Char → Option Char
  | '"' => some '"'
  | '\\' => some '\\'
  | '/' => some '/'
  | 'b' => some (Char.ofNat 8)
  | 'f' => some (Char.ofNat 12)
  | 'n' => some '\n'
  | 'r' => some '\r'
  | 't' => some '\t'
  | _ => none

/-- The pieces up to the closing quote, and how many characters they take with it. -/
def pieces : List Char → Option (List Piece × Nat)
  | [] => none
  | '"' :: _ => some ([], 1)
  | '\\' :: 'u' :: a :: b :: c :: d :: r => do
    let n ← natural? 16 [a, b, c, d]
    let (ps, k) ← pieces r
    some (.code n :: ps, k + 6)
  | '\\' :: e :: r => do
    let c ← escaped? e
    let (ps, k) ← pieces r
    some (.char c :: ps, k + 2)
  | c :: r =>
    if c = '\\' || c.toNat < 32 then none else do
    let (ps, k) ← pieces r
    some (.char c :: ps, k + 1)

def isHighSurrogate (n : Nat) : Bool := 0xD800 ≤ n && n < 0xDC00

def isLowSurrogate (n : Nat) : Bool := 0xDC00 ≤ n && n < 0xE000

/-- Joins surrogate pairs; none where one half is alone. -/
def joinPieces : List Piece → Option (List Char)
  | [] => some []
  | .char c :: l => (joinPieces l).map (c :: ·)
  | .code hi :: .code lo :: l =>
    if isHighSurrogate hi then
      if isLowSurrogate lo then
        (joinPieces l).map (Char.ofNat (0x10000 + (hi - 0xD800) * 0x400 + (lo - 0xDC00)) :: ·)
      else none
    else if isLowSurrogate hi then none
    else (joinPieces (.code lo :: l)).map (Char.ofNat hi :: ·)
  | .code n :: l =>
    if isHighSurrogate n || isLowSurrogate n then none else (joinPieces l).map (Char.ofNat n :: ·)

/-! ## Tokens -/

def isNumeralChar (c : Char) : Bool :=
  c.isDigit || c = '+' || c = '-' || c = '.' || c = 'e' || c = 'E'

def readWord (w : String) (t : Token) (c : Char) (r : List Char) : Lexeme × Nat :=
  if w.toList.isPrefixOf (c :: r) then (.token t, w.length - 1) else (.malformed, 0)

def readLexeme (c : Char) (r : List Char) : Lexeme × Nat :=
  match c with
  | ' ' | '\t' | '\n' | '\r' => (.blank, 0)
  | '[' => (.token .listOpen, 0)
  | ']' => (.token .listClose, 0)
  | '\x7b' => (.token .fieldsOpen, 0)
  | '\x7d' => (.token .fieldsClose, 0)
  | ',' => (.token .comma, 0)
  | ':' => (.token .colon, 0)
  | '"' =>
    match pieces r with
    | some (ps, k) => (.token (.text ((joinPieces ps).map String.ofList)), k)
    | none => (.malformed, 0)
  | 'n' => readWord "null" .null c r
  | 't' => readWord "true" (.bool true) c r
  | 'f' => readWord "false" (.bool false) c r
  | _ =>
    let tail := r.takeWhile isNumeralChar
    match Numeral.read? (c :: tail) with
    | some n => (.token (.number n.number?), tail.length)
    | none => (.malformed, 0)

def tokens? : List Lexeme → Option (List Token)
  | [] => some []
  | .blank :: l => tokens? l
  | .token t :: l => (tokens? l).map (t :: ·)
  | .malformed :: _ => none

def tokenize (cs : List Char) : Option (List Token) := tokens? (scan readLexeme 0 cs)

end Stowage.Json
