import Stowage.Conversion.Fault
import Stowage.Text.Blank
import Stowage.Text.Digits

/-!
# File modes

Permissions are written in octal, with an optional sign, and are at most `0777`.
-/

namespace Stowage.FileMode

def greatest : Int := 0o777

/-- The least value of the 32-bit word that a mode is kept in. -/
def least : Int := -0x80000000

def value? : List Char → Option Int
  | '-' :: r => (natural? 8 r).map fun n => -(n : Int)
  | '+' :: r => (natural? 8 r).map Int.ofNat
  | r => (natural? 8 r).map Int.ofNat

def parse (mode : String) : Except Cause Int :=
  match value? (trimBlank mode.toList) with
  | some n => if least ≤ n ∧ n ≤ greatest then .ok n else .error (.fileMode mode)
  | none => .error (.fileMode mode)

end Stowage.FileMode
