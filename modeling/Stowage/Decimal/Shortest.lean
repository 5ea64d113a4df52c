import Stowage.Decimal.Double

/-!
# Shortest decimal digits

The fewest digits that read back as a double: the numbers that round to it form an interval, and
the first decimal grid with a point in the interval gives the digits. Of two such points the nearer
is taken, and of two equally near the even one.
-/

namespace Stowage

/-- `digits · 10 ^ exponent`. -/
structure Decimal where
  digits : Nat
  exponent : Int

namespace Shortest

/-- The interval around a double, and the grid of the powers of ten, counted in one unit. -/
structure Scale where
  low : Nat
  centre : Nat
  high : Nat
  step : Nat
  closed : Bool

/-- In quarters of the last place; below a power of two the neighbour is half as far. -/
def scaleAt (d : Double) (k : Int) : Scale :=
  let q := d.exponent - 2
  let unit := Nat.pow 2 q.toNat * Nat.pow 10 (-k).toNat
  let below := if d.mantissa = Nat.pow 2 52 && d.exponent > -1074 then 1 else 2
  { low := (4 * d.mantissa - below) * unit
    centre := 4 * d.mantissa * unit
    high := (4 * d.mantissa + 2) * unit
    step := Nat.pow 2 (-q).toNat * Nat.pow 10 k.toNat
    closed := d.mantissa % 2 == 0 }

def Scale.contains (s : Scale) (n : Nat) : Bool :=
  if s.closed then s.low ≤ n * s.step && n * s.step ≤ s.high
  else s.low < n * s.step && n * s.step < s.high

def Scale.point? (s : Scale) : Option Nat :=
  let n := s.centre / s.step
  match s.contains n, s.contains (n + 1) with
  | false, false => none
  | true, false => some n
  | false, true => some (n + 1)
  | true, true =>
    let below := s.centre - n * s.step
    let above := (n + 1) * s.step - s.centre
    some (if below < above || (below == above && n % 2 == 0) then n else n + 1)

def digitCount (n : Nat) : Nat := (Nat.toDigits 10 n).length

def leadingExponent (num den : Nat) : Int :=
  if den ≤ num then digitCount (num / den) - 1
  else - (digitCount ((den + num - 1) / num - 1) : Int)

def strip : (fuel : Nat) → Decimal → Decimal
  | 0, x => x
  | n + 1, x =>
    if x.digits % 10 == 0 && x.digits != 0 then strip n ⟨x.digits / 10, x.exponent + 1⟩ else x

end Shortest

/-- The shortest decimal that reads back as the magnitude of a double. -/
def Double.shortest (d : Double) : Decimal :=
  if d.isZero then ⟨0, 0⟩ else
  let e := Shortest.leadingExponent d.ratio.1 d.ratio.2
  let found := (List.range 17).findSome? fun (i : Nat) =>
    (Shortest.scaleAt d (e - i)).point?.map fun n => Decimal.mk n (e - i)
  Shortest.strip 20 (found.getD ⟨0, 0⟩)

end Stowage
