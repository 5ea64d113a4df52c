import Stowage.Text.Scan

/-!
# Texts with placeholders

Read from left to right, a text is a list of pieces: a placeholder with the reference between its
braces, or a character. Two dollar signs stand for one; a dollar sign that starts neither form
stands for itself.
-/

namespace Stowage.Template

inductive Piece
  | char (c : Char)
  | placeholder (reference : List Char)
deriving DecidableEq

/-- ASCII letters and digits, and the signs a reference is written with. -/
def isReferenceChar (c : Char) : Bool :=
  c.isAlphanum || c = '.' || c = '-' || c = '_' || c = '\\'

def readPiece (c : Char) (r : List Char) : Piece × Nat :=
  match c, r with
  | '$', '$' :: _ => (.char '$', 1)
  | '$', '\x7b' :: r =>
    let reference := r.takeWhile isReferenceChar
    if !reference.isEmpty && (r.dropWhile isReferenceChar).head? = some '\x7d' then
      (.placeholder reference, reference.length + 2)
    else (.char '$', 0)
  | c, _ => (.char c, 0)

def pieces (cs : List Char) : List Piece := scan readPiece 0 cs

/-- Fills each placeholder, and fails as the first that cannot be filled. -/
def fill (resolve : List Char → Except ε (List Char)) : List Piece → Except ε (List Char)
  | [] => .ok []
  | .char c :: l => (fill resolve l).map (c :: ·)
  | .placeholder reference :: l => do
    let value ← resolve reference
    let rest ← fill resolve l
    .ok (value ++ rest)

def expand (resolve : List Char → Except ε (List Char)) (cs : List Char) : Except ε (List Char) :=
  fill resolve (pieces cs)

/-! ## Escaping -/

/-- The text that stands for `cs` as it is. -/
def escape : List Char → List Char
  | [] => []
  | c :: r => if c = '$' then '$' :: '$' :: escape r else c :: escape r

end Stowage.Template
