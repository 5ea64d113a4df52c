/-!
# Digits

Values of digits in bases up to sixteen, and natural numbers written with them.
-/

namespace Stowage

def digitValue? (base : Nat) (c : Char) : Option Nat :=
  let n := c.toNat
  let v := if 48 ≤ n && n ≤ 57 then n - 48
    else if 97 ≤ n && n ≤ 102 then n - 87
    else if 65 ≤ n && n ≤ 70 then n - 55
    else base
  if v < base then some v else none

theorem digitValue?_eq_some {base v : Nat} {c : Char} (h : base ≤ 10) :
    digitValue? base c = some v ↔ c.toNat = 48 + v ∧ v < base := by
  simp only [digitValue?, Option.ite_none_right_eq_some, Option.some.injEq, Bool.and_eq_true,
    decide_eq_true_eq]
  split
  · omega
  · split
    · omega
    · split
      · omega
      · omega

def isDigit (base : Nat) (c : Char) : Bool := (digitValue? base c).isSome

theorem isDigit_ten_iff {c : Char} : isDigit 10 c = true ↔ c.isDigit = true := by
  have hc : c.isDigit = true ↔ 48 ≤ c.toNat ∧ c.toNat ≤ 57 := Char.isDigit_iff_toNat
  rw [isDigit, Option.isSome_iff_exists, hc]
  simp only [digitValue?_eq_some (Nat.le_refl 10)]
  constructor
  · rintro ⟨v, hv, hlt⟩
    omega
  · intro h
    exact ⟨c.toNat - 48, by omega, by omega⟩

def hexDigit (n : Nat) : Char := if n < 10 then Char.ofNat (48 + n) else Char.ofNat (87 + n)

/-- The number that a list of digit values stands for, the first the most significant. -/
def ofDigits (base : Nat) (ds : List Nat) : Nat := ds.foldl (fun n d => n * base + d) 0

def natural? (base : Nat) (cs : List Char) : Option Nat :=
  if cs.isEmpty then none else (cs.mapM (digitValue? base)).map (ofDigits base)

def spanDigits (base : Nat) (cs : List Char) : List Nat × List Char :=
  ((cs.takeWhile (isDigit base)).filterMap (digitValue? base), cs.dropWhile (isDigit base))

end Stowage
