/-! Paths as texts. Joining and cutting them off work on the text alone and never look at files. -/

namespace ImageRecipe.Path

/-- The pieces of a text between slashes. -/
def pieces (cs : List Char) : List (List Char) :=
  match cs with
  | [] => [[]]
  | '/' :: r => [] :: pieces r
  | c :: r =>
    match pieces r with
    | [] => [[c]]
    | p :: ps => (c :: p) :: ps

/-- Pieces with slashes between them. -/
def joinPieces : List (List Char) → List Char
  | [] => []
  | [p] => p
  | p :: r => p ++ '/' :: joinPieces r

def isAbsolute (path : String) : Bool := path.toList.head? == some '/'

/-- A path taken from a base, unless it is absolute. -/
def join (base path : String) : String :=
  if isAbsolute path then path
  else if base.isEmpty || base.toList.getLast? == some '/' then base ++ path
  else base ++ "/" ++ path

/-- Pieces that name nothing, which do not count at the end of a path. -/
def isIdle (piece : List Char) : Bool := piece.isEmpty || piece = ['.']

/-- Pieces without the idle ones at the end. A dot that a relative path begins with stays. -/
def dropIdle (absolute : Bool) (ps : List (List Char)) : List (List Char) :=
  let kept := (ps.reverse.dropWhile isIdle).reverse
  match kept, ps with
  | [], ['.'] :: _ => if absolute then [] else [['.']]
  | kept, _ => kept

/-- The path without its last name; none for the root and for the empty path. -/
def parent? (path : String) : Option String :=
  let absolute := isAbsolute path
  let body := if absolute then path.toList.drop 1 else path.toList
  match dropIdle absolute (pieces body) with
  | [] => none
  | ps =>
    let rest := joinPieces (dropIdle absolute ps.dropLast)
    some (String.ofList (if absolute then '/' :: rest else rest))

/-- The directory that a path lies in, a dot where the path does not name one. -/
def directory (path : String) : String :=
  match parent? path with
  | some d => if d.isEmpty then "." else d
  | none => "."

/-- A path, the directory that it lies in, and so on; at most so many. -/
def ancestorsUpTo : Nat → String → List String
  | 0, _ => []
  | n + 1, path =>
    path :: (match parent? path with
      | some p => ancestorsUpTo n p
      | none => [])

/-- A path and all that it lies in, the innermost first. -/
def ancestors (path : String) : List String := ancestorsUpTo (path.length + 1) path

/-- The names of a path in order. A path that is not relative begins with a slash; dots count only at the
beginning of a relative path. -/
def components (path : String) : List (List Char) :=
  let cs := path.toList
  let names := fun (l : List (List Char)) => l.filter fun p => !isIdle p
  match cs with
  | '/' :: _ => ['/'] :: names (pieces cs)
  | _ =>
    match pieces cs with
    | ['.'] :: r => ['.'] :: names r
    | l => names l

/-- The last name of a path, unless the path ends in none. -/
def fileName? (path : String) : Option String :=
  match (components path).getLast? with
  | some n => if n = ['.'] || n = ['.', '.'] || n = ['/'] then none else some (String.ofList n)
  | none => none

end ImageRecipe.Path
