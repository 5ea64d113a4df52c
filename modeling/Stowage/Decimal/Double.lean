/-!
# Double-precision numbers

Finite numbers `± mantissa · 2 ^ exponent` in the one form that binary64 gives them, and rounding
of an exact quotient to the nearest of them, a tie going to the even mantissa.
-/

namespace Stowage

namespace Double

/-- Full precision above the subnormal range, and no exponent beyond binary64. -/
def Canonical (mantissa : Nat) (exponent : Int) : Prop :=
  mantissa < Nat.pow 2 53 ∧ -1074 ≤ exponent ∧ exponent ≤ 971 ∧
    (Nat.pow 2 52 ≤ mantissa ∨ exponent = -1074)

instance (m : Nat) (e : Int) : Decidable (Canonical m e) := inferInstanceAs (Decidable (_ ∧ _))

end Double

structure Double where
  negative : Bool
  mantissa : Nat
  exponent : Int
  canonical : Double.Canonical mantissa exponent
deriving DecidableEq

namespace Double

def zero (negative : Bool) : Double := ⟨negative, 0, -1074, by decide⟩

def isZero (d : Double) : Bool := d.mantissa == 0

/-- `num / den` with a half going to the even neighbour. -/
def roundQuotient (num den : Nat) : Nat :=
  let q := num / den
  let r := 2 * (num % den)
  if r < den || (r == den && q % 2 == 0) then q else q + 1

/-- `num / (den · 2 ^ e)` as a fraction. -/
def scaled (num den : Nat) (e : Int) : Nat × Nat :=
  if e ≥ 0 then (num, den * Nat.pow 2 e.toNat) else (num * Nat.pow 2 (-e).toNat, den)

/-- The exponent at which the integer part of `num / den` has 53 digits, or the least there is. -/
def exponentOf (num den : Nat) : Int :=
  let e : Int := num.log2 - den.log2 - 52
  let (n, d) := scaled num den e
  max (-1074) (if n / d < Nat.pow 2 52 then e - 1 else e)

/-- The double nearest to `num / den`; none where that is infinite. -/
def ofRatio (negative : Bool) (num den : Nat) : Option Double :=
  if num = 0 then some (zero negative) else
  let e := exponentOf num den
  let (n, d) := scaled num den e
  let m := roundQuotient n d
  let (m, e) := if m = Nat.pow 2 53 then (Nat.pow 2 52, e + 1) else (m, e)
  if h : Canonical m e then some ⟨negative, m, e, h⟩ else none

def ofNat (n : Nat) : Option Double := ofRatio false n 1

def ratio (d : Double) : Nat × Nat :=
  if d.exponent ≥ 0 then (d.mantissa * Nat.pow 2 d.exponent.toNat, 1)
  else (d.mantissa, Nat.pow 2 (-d.exponent).toNat)

def mul (a b : Double) : Option Double :=
  ofRatio (a.negative != b.negative) (a.ratio.1 * b.ratio.1) (a.ratio.2 * b.ratio.2)

def div (a b : Double) : Option Double :=
  ofRatio (a.negative != b.negative) (a.ratio.1 * b.ratio.2) (a.ratio.2 * b.ratio.1)

/-- The double nearest to `digits · 10 ^ exponent`. Digits so far out that only zero or infinity is
near are decided by their place alone. -/
def ofDecimal (negative : Bool) (digits : Nat) (exponent : Int) : Option Double :=
  let place := (Nat.toDigits 10 digits).length + exponent
  if digits = 0 || place < -400 then some (zero negative)
  else if place > 400 then none
  else if exponent ≥ 0 then ofRatio negative (digits * Nat.pow 10 exponent.toNat) 1
  else ofRatio negative digits (Nat.pow 10 (-exponent).toNat)

end Double
end Stowage
