import ProcessFlow.Text.Pieces

/-! # Paths

A path is names between slashes. The lengths of paths and of names are limited, in bytes of UTF-8.
-/

namespace ProcessFlow

def longestName : Nat := 255

def longestPath : Nat := 4095

def pathNames (path : String) : List String := (pieces '/' path.toList).map String.ofList

/-- The name of the file that a path leads to. It has none if it ends by going up. -/
def fileName? (path : String) : Option (List Char) :=
  match ((pieces '/' path.toList).filter fun name => name ≠ [] ∧ name ≠ ['.']).getLast? with
  | some ['.', '.'] => none
  | name => name

/-- What follows the last dot of a name. A dot at the front of a name begins no extension. -/
def extension? (name : List Char) : Option (List Char) :=
  match (pieces '.' name).reverse with
  | [] | [_] | [_, []] => none
  | last :: _ => some last

/-- The lists that a list ends with, from itself to the last item. -/
def endings {α : Type} : List α → List (List α)
  | [] => []
  | head :: rest => (head :: rest) :: endings rest

/-- A directory and those it lies in, innermost first, each without a slash at its end. -/
def ancestors (directory : String) : List String :=
  let outward := match (pieces '/' directory.toList).reverse with
    | [] :: outer => outer
    | names => names
  (endings outward).map fun names => String.ofList (List.intercalate ['/'] names.reverse)

end ProcessFlow
