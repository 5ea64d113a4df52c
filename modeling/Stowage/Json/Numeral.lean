import Stowage.Json.Basic
import Stowage.Text.Digits

/-!
# Numerals of JSON

A numeral is read into its parts, and the parts into a number. Integers that fit a signed or an
unsigned 64-bit word are kept; all else is a double, found from as many leading digits as fit a word
and one scaling by a power of ten.
-/

namespace Stowage

structure Numeral where
  negative : Bool
  whole : List Nat
  /-- Empty where there is no point. -/
  fraction : List Nat
  exponent : Option (Bool × List Nat)

namespace Numeral

/-! ## Grammar -/

def readSign : List Char → Bool × List Char
  | '-' :: r => (true, r)
  | r => (false, r)

/-- No zero stands before another digit. -/
def isWhole : List Nat → Bool
  | [] => false
  | [_] => true
  | d :: _ => d != 0

def readFraction : List Char → Option (List Nat × List Char)
  | '.' :: r =>
    let (ds, r) := spanDigits 10 r
    if ds.isEmpty then none else some (ds, r)
  | r => some ([], r)

def readExponent : List Char → Option (Option (Bool × List Nat) × List Char)
  | [] => some (none, [])
  | c :: r =>
    if c = 'e' || c = 'E' then
      let (negative, r) := match r with
        | '-' :: r => (true, r)
        | '+' :: r => (false, r)
        | r => (false, r)
      let (ds, r) := spanDigits 10 r
      if ds.isEmpty then none else some (some (negative, ds), r)
    else some (none, c :: r)

def read? (cs : List Char) : Option Numeral := do
  let (negative, cs) := readSign cs
  let (whole, cs) := spanDigits 10 cs
  if !isWhole whole then none else
  let (fraction, cs) ← readFraction cs
  let (exponent, cs) ← readExponent cs
  if cs.isEmpty then some ⟨negative, whole, fraction, exponent⟩ else none

/-! ## Value -/

/-- Takes digits into a number while it stays within a word; the second part counts them. -/
def absorb (n : Nat) : List Nat → Nat × Nat
  | [] => (n, 0)
  | d :: ds =>
    if n * 10 + d < UInt64.size then
      let (m, k) := absorb (n * 10 + d) ds
      (m, k + 1)
    else (n, 0)

def powerOfTen (k : Nat) : Option Double := Double.ofNat (Nat.pow 10 k)

/-- Multiplies by a power of ten that is itself a double, or fails as infinite. -/
def scaleUp (d : Double) (k : Nat) : Option Double :=
  if k ≤ 308 then (powerOfTen k).bind d.mul
  else if d.isZero then some d else none

/-- Divides by powers of ten that are themselves doubles. -/
def scaleDown (d : Double) (k : Nat) : Option Double :=
  if k ≤ 308 then (powerOfTen k).bind d.div
  else if d.isZero then some d
  else ((powerOfTen 308).bind d.div).bind fun d => scaleDown d (k - 308)
termination_by k

def double? (negative : Bool) (significand : Nat) (exponent : Int) : Option Double := do
  let d ← Double.ofNat significand
  let d ← if exponent ≥ 0 then scaleUp d exponent.toNat else scaleDown d (-exponent).toNat
  some { d with negative := negative }

def clampExponent (e : Int) : Int := max (-0x80000000) (min 0x7FFFFFFF e)

def scaled? (n : Numeral) (significand : Nat) (exponent : Int) : Option Double :=
  match n.exponent with
  | none => double? n.negative significand exponent
  | some (below, ds) =>
    let e := ofDigits 10 ds
    if e ≥ 0x80000000 then
      if significand ≠ 0 && !below then none else some (Double.zero n.negative)
    else
      double? n.negative significand
        (clampExponent (if below then exponent - e else exponent + e))

/-- None where the number is beyond the range of doubles. -/
def number? (n : Numeral) : Option Number :=
  let (s, taken) := absorb 0 n.whole
  let dropped := n.whole.length - taken
  if n.fraction.isEmpty && n.exponent.isNone && dropped == 0 then
    if !n.negative then some (.int s)
    else if 0 < s && s ≤ 0x8000000000000000 then some (.int (-s))
    else (double? true s 0).map .double
  else
    let (s, taken) := absorb s n.fraction
    (n.scaled? s (dropped - taken)).map .double

end Numeral
end Stowage
