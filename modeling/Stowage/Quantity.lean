import Stowage.Conversion.Fault
import Stowage.Text.Blank
import Stowage.Text.Digits

/-!
# Quantities

Amounts of cpu, memory and storage: an optional sign, a decimal number, and a unit or an exponent of
ten. Only the form is checked; an amount is passed on as it is written.
-/

namespace Stowage.Quantity

def units : List (List Char) :=
  ["Ki", "Mi", "Gi", "Ti", "Pi", "Ei", "n", "u", "m", "k", "M", "G", "T", "P", "E"].map
    String.toList

def isDigits (cs : List Char) : Bool := !cs.isEmpty && cs.all (isDigit 10)

def isExponent : List Char → Bool
  | c :: r =>
    (c = 'e' || c = 'E') && match r with
      | '+' :: r | '-' :: r => isDigits r
      | r => isDigits r
  | [] => false

def isSuffix (cs : List Char) : Bool := cs.isEmpty || units.contains cs || isExponent cs

/-- What follows the digits, the point and the digits behind it at the front; none where there is no
digit on either side of the point. -/
def afterNumber? (cs : List Char) : Option (List Char) :=
  let whole := cs.takeWhile (isDigit 10)
  match cs.dropWhile (isDigit 10) with
  | '.' :: r =>
    if whole.isEmpty && (r.takeWhile (isDigit 10)).isEmpty then none
    else some (r.dropWhile (isDigit 10))
  | r => if whole.isEmpty then none else some r

def isUnsigned (cs : List Char) : Bool := (afterNumber? cs).any isSuffix

def parse (value : String) : Except Cause String :=
  let cs := trimBlank value.toList
  let unsigned := match cs with
    | '+' :: r | '-' :: r => r
    | r => r
  if !isUnsigned unsigned then .error (.quantity value "not a valid quantity")
  else if cs.head? = some '-' then .error (.quantity value "quantity must not be negative")
  else .ok (String.ofList cs)

end Stowage.Quantity
