/-!
# Stable sorting by insertion

Elements that compare equal keep their places.
-/

namespace Stowage

def insertBy (le : α → α → Bool) (a : α) : List α → List α
  | [] => [a]
  | b :: l => if le a b then a :: b :: l else b :: insertBy le a l

def sortBy (le : α → α → Bool) (l : List α) : List α := l.foldr (insertBy le) []

end Stowage
