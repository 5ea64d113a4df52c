import Stowage.Decimal.Shortest
import Stowage.Json.Basic
import Stowage.Text.Digits

/-!
# Writing JSON

The compact form: no blanks, entries in their order, and only quotes, backslashes and control
characters escaped.
-/

namespace Stowage
namespace Json

/-! ## Numbers -/

/-- How a double is laid out: positional while the leading digit stands between the two powers of
ten, otherwise one digit, a point if more follow, and a signed exponent. -/
structure Layout where
  leastPositional : Int
  greatestPositional : Int

def layout : Layout := ⟨-5, 15⟩

def zeros (n : Nat) : List Char := List.replicate n '0'

/-- Digits with a point after the place of the unit, and a zero where a side would be empty. -/
def positional (ds : List Char) (exponent : Int) : List Char :=
  if exponent ≥ 0 then ds ++ zeros exponent.toNat ++ ['.', '0']
  else
    let places := (-exponent).toNat
    if places < ds.length then ds.take (ds.length - places) ++ '.' :: ds.drop (ds.length - places)
    else '0' :: '.' :: zeros (places - ds.length) ++ ds

def scientific (ds : List Char) (leading : Int) : List Char :=
  let sign := if leading < 0 then '-' else '+'
  let mantissa := match ds with
    | d :: [] => [d]
    | d :: r => d :: '.' :: r
    | [] => []
  mantissa ++ 'e' :: sign :: Nat.toDigits 10 leading.natAbs

def doubleChars (d : Double) : List Char :=
  let x := d.shortest
  let ds := Nat.toDigits 10 x.digits
  let leading := ds.length - 1 + x.exponent
  let body :=
    if layout.leastPositional ≤ leading && leading ≤ layout.greatestPositional
    then positional ds x.exponent else scientific ds leading
  if d.negative then '-' :: body else body

def intChars (n : Int) : List Char :=
  if n < 0 then '-' :: Nat.toDigits 10 n.natAbs else Nat.toDigits 10 n.natAbs

def numberChars : Number → List Char
  | .int n => intChars n
  | .double d => doubleChars d

/-! ## Strings -/

def escapeChar (c : Char) : List Char :=
  if c = '"' then ['\\', '"']
  else if c = '\\' then ['\\', '\\']
  else if c.toNat = 8 then ['\\', 'b']
  else if c.toNat = 9 then ['\\', 't']
  else if c.toNat = 10 then ['\\', 'n']
  else if c.toNat = 12 then ['\\', 'f']
  else if c.toNat = 13 then ['\\', 'r']
  else if c.toNat < 32 then ['\\', 'u', '0', '0', hexDigit (c.toNat / 16), hexDigit (c.toNat % 16)]
  else [c]

def quoted (s : String) : List Char := '"' :: s.toList.flatMap escapeChar ++ ['"']

/-! ## Values -/

mutual

def chars : Json → List Char
  | null => "null".toList
  | bool true => "true".toList
  | bool false => "false".toList
  | num n => numberChars n
  | str s => quoted s
  | arr l => '[' :: itemChars l ++ [']']
  | obj l => '\x7b' :: entryChars l ++ ['\x7d']

def itemChars : List Json → List Char
  | [] => []
  | j :: l => j.chars ++ (if l.isEmpty then [] else ',' :: itemChars l)

def entryChars : List (String × Json) → List Char
  | [] => []
  | (k, j) :: l => quoted k ++ ':' :: j.chars ++ (if l.isEmpty then [] else ',' :: entryChars l)

end

def text (j : Json) : String := String.ofList j.chars

def plain : Json → String
  | str s => s
  | j => j.text

end Json
end Stowage
