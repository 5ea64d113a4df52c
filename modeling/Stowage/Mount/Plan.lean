import Stowage.Manifest.Basic

/-!
# Mount plans

Each volume and each file of a container gives one mount and, except for a claim, the volume that it
reads from.
-/

namespace Stowage

inductive Origin
  | volume (index : Nat)
  | file (index : Nat)
deriving DecidableEq

namespace Origin

def text : Origin → String
  | volume i => "volumes." ++ toString i
  | file i => "files." ++ toString i

/-- Volumes come first. -/
def le : Origin → Origin → Bool
  | volume i, volume j => i ≤ j
  | volume _, file _ => true
  | file _, volume _ => false
  | file i, file j => i ≤ j

end Origin

structure Plan where
  origin : Origin
  mount : Manifest.Mount
  /-- None where the volume comes from a claim template. -/
  volume : Option Manifest.Volume
deriving DecidableEq

end Stowage
