import Stowage.Conversion.Fault
import Stowage.Text.Blank

/-!
# Mount paths

Paths inside a container, as lists of characters: their segments, parents and base names, and when
one lies under another. The root lies over every other path.
-/

namespace Stowage.Path

/-! ## Segments -/

/-- What stands before the first slash, and the pieces after it. -/
def pieces : List Char → List Char × List (List Char)
  | [] => ([], [])
  | c :: r =>
    if c = '/' then ([], (pieces r).1 :: (pieces r).2)
    else (c :: (pieces r).1, (pieces r).2)

def segments (p : List Char) : List (List Char) :=
  ((pieces p).1 :: (pieces p).2).filter (!·.isEmpty)

def depth (p : List Char) : Nat := (segments p).length

/-! ## Parents and base names -/

def baseName (p : List Char) : List Char := (p.reverse.takeWhile (· ≠ '/')).reverse

/-- What stands before the last slash; none where that is nothing. -/
def parent? (p : List Char) : Option (List Char) :=
  match p.reverse.dropWhile (· ≠ '/') with
  | [] => none
  | _ :: r => if r.isEmpty then none else some r.reverse

/-! ## Nesting -/

def isNested (inner outer : List Char) : Bool :=
  if outer = ['/'] then inner ≠ ['/']
  else match outer.isPrefixOf? inner with
    | some r => r.head? = some '/'
    | none => false

/-- The way from `outer` down to `dir`. -/
def relative (dir outer : List Char) : List Char :=
  match outer.isPrefixOf? dir with
  | some r => r.dropWhile (· = '/')
  | none => dir

/-! ## Mount targets -/

/-- An absolute path without slashes at its end. -/
def normalize (path : String) : Except Cause String :=
  if path.toList.head? ≠ some '/' then .error (.mountPath path)
  else
    let trimmed := dropEndWhile (· = '/') path.toList
    .ok (if trimmed.isEmpty then "/" else String.ofList trimmed)

end Stowage.Path
