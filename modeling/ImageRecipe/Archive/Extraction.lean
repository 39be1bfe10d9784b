import ImageRecipe.Archive.Reader

/-! Putting the members of an archive into a file tree, below one directory that nothing leads out of. -/

namespace ImageRecipe.Archive

namespace StoredMember

variable (m : StoredMember)

/-- Whether the member is a directory by its type. -/
def isDirectory : Bool := m.code = directoryCode

/-- Whether the member is put as a directory although it is none by its type: outside the standard format a
path that ends in a slash makes it one. -/
def isTacitDirectory : Bool := m.format ≠ some .standard && m.path.getLast? = some RawPath.slash

/-- Whether the member only says something of others. -/
def isRemark : Bool := [longPathCode, longTargetCode, attributesCode, defaultsCode].contains m.code

/-- The names by which the member is put below a directory; none for a path that leads upwards. -/
def names? : Option (List FileName) :=
  let names := m.path.names.filter fun n => n ≠ [] && n ≠ FileName.here
  if names.contains FileName.up then none else some names

end StoredMember

section Extraction

variable (root : Location) (t : FileTree)

/-- The place that names lead to from the directory that an archive is put in. -/
def locate (last : Bool) (names : List FileName) : Except Fault Location := do
  FileTree.checkPath (RawPath.slash :: RawPath.ofNames (root ++ names))
  t.walk last FileTree.linkLimit root names

/-- Fail unless names lead to something below the directory. -/
def requireInside (names : List FileName) : Except Fault Unit := do
  let l ← locate root t true names
  if !root.isPrefixOf l || (t.entry? l).isNone then throw .badArchive

/-- The tree with the directories above a member, made from the outermost on. -/
def ensureParents (t : FileTree) : List (List FileName) → Except Fault FileTree
  | [] => .ok t
  | names :: r => do
    let l ← locate root t false names
    if (t.entry? l).isSome then ensureParents t r
    else do
      requireInside root t names.dropLast
      ensureParents (← t.makeDirectoryAt l) r

/-- Put a directory where it belongs, unless it is there. A link to a directory is none. -/
def placeDirectory (l : Location) (mode : Option Nat) : Except Fault FileTree := do
  let t ← match t.entry? l with
    | some (.directory _) => pure t
    | some _ => throw .alreadyExists
    | none => t.makeDirectoryAt l
  match t.entry? l, mode with
  | some e, some mode => pure (t.put l (e.withMode mode))
  | _, _ => pure t

/-- Put what lies at a target, a path from the directory, at a place that nothing lies at. -/
def placeAgain (l : Location) (target : RawPath) : Except Fault FileTree := do
  FileTree.checkPath target
  let start := if target.isAbsolute then [] else root
  let whole ← t.walk true FileTree.linkLimit start target.names
  if !root.isPrefixOf whole || (t.entry? whole).isNone then throw .badArchive
  match t.entry? (← t.walk false FileTree.linkLimit start target.names), t.entry? l with
  | _, some _ => throw .alreadyExists
  | some (.directory _), _ | none, _ => throw .badArchive
  | some e, none => t.replace l e

/-- Put a member below the directory. Members whose paths lead upwards or name nothing are passed over. -/
def placeMember (m : StoredMember) : Except Fault FileTree :=
  match m.names? with
  | none | some [] => .ok t
  | some names => do
    let t ← ensureParents root t ((List.range (names.length - 1)).map fun n => names.take (n + 1))
    requireInside root t names.dropLast
    let l ← locate root t false names
    let mode := m.mode.map fun n => n % 4096
    if m.isDirectory then placeDirectory t l mode
    else if m.code = linkCode then do
      FileTree.checkPath m.target
      t.replace l (.link m.target)
    else if m.code = sameFileCode then placeAgain root t l m.target
    else if m.isRemark then pure t
    else if m.isTacitDirectory then placeDirectory t l mode
    else t.replace l (.file (mode.getD openedMode) ⟨m.data.toArray⟩)

/-- Put members one after the other. -/
def placeAll (t : FileTree) : List StoredMember → Except Fault FileTree
  | [] => .ok t
  | m :: r => do placeAll (← placeMember root t m) r

/-- Put the members of an archive below a directory. Directories come last, the innermost first, so that
their modes hinder nothing. -/
def extract (members : List StoredMember) : Except Fault FileTree := do
  let t ← placeAll root t (members.filter fun m => !m.isDirectory)
  placeAll root t
    ((members.filter StoredMember.isDirectory).mergeSort fun a b => decide (b.path ≤ a.path))

end Extraction

/-- Unpack an archive into a directory, which is made if it is not there. -/
def unpack (t : FileTree) (directory : Location) (path : String) (bs : List UInt8) :
    Except Fault FileTree := do
  let t ← t.makePath directory path
  let root ← t.resolve true directory path
  extract root t (← decode bs)

end ImageRecipe.Archive
