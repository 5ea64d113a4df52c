/-!
# Segments of a reference

A dotted path is split at its dots. A dot inside a segment is written with a backslash before it;
a backslash before anything else stands for itself.
-/

namespace Stowage.Segments

/-! ## Splitting -/

/-- The first segment, and those after it. -/
def split : List Char → List Char × List (List Char)
  | [] => ([], [])
  | '\\' :: '.' :: r => ('.' :: (split r).1, (split r).2)
  | '.' :: r => ([], (split r).1 :: (split r).2)
  | c :: r => (c :: (split r).1, (split r).2)

def ofChars (cs : List Char) : List (List Char) := (split cs).1 :: (split cs).2

def ofText (s : String) : List String := (ofChars s.toList).map String.ofList

/-! ## Joining -/

def escape : List Char → List Char
  | [] => []
  | c :: r => if c = '.' then '\\' :: '.' :: escape r else c :: escape r

def join : List (List Char) → List Char
  | [] => []
  | [s] => escape s
  | s :: l => escape s ++ '.' :: join l

def toText (l : List String) : String := String.ofList (join (l.map String.toList))

theorem escape_append (s t : List Char) : escape (s ++ t) = escape s ++ escape t := by
  induction s with
  | nil => rfl
  | cons c s ih => by_cases h : c = '.' <;> simp [escape, h, ih]

end Stowage.Segments
