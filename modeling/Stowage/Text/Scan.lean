/-!
# Reading a text from the left

A reader looks at the whole of what is left, gives one piece, and says how many
further characters the piece takes beyond its first.
-/

namespace Stowage

/-- Reads pieces one after the other, after passing over `skip` characters. -/
def scan (read : Char → List Char → α × Nat) : (skip : Nat) → List Char → List α
  | _, [] => []
  | skip + 1, _ :: r => scan read skip r
  | 0, c :: r => (read c r).1 :: scan read (read c r).2 r

theorem scan_append (read : Char → List Char → α × Nat) (p r : List Char) :
    scan read p.length (p ++ r) = scan read 0 r := by
  induction p with
  | nil => rfl
  | cons c p ih => exact ih

theorem scan_cons {read : Char → List Char → α × Nat} {c : Char} {p r : List Char} {a : α}
    (h : read c (p ++ r) = (a, p.length)) : scan read 0 (c :: (p ++ r)) = a :: scan read 0 r := by
  rw [scan, h, scan_append]

end Stowage
