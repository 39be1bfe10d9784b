import ImageRecipe.Sorted.Map
import ImageRecipe.Files.Fault
import ImageRecipe.Files.Name
import ImageRecipe.Files.Path

/-! File trees: what lies at which place. Paths are followed through symbolic links, forty of them at
most. Everything in a tree belongs to the one who uses it, whose rights are what the modes grant to
owners. -/

namespace ImageRecipe

/-- A place in a file tree: the names on the way from the root. -/
abbrev Location := List FileName

/-- The place of names that are texts. -/
def Location.ofTexts (l : List String) : Location := l.map FileName.ofText

/-- The names of a place with slashes between them, each as a text. -/
def Location.text (l : Location) : String := "/".intercalate (l.map FileName.text)

/-- Byte strings are compared byte by byte. -/
instance decidableEqBytes : DecidableEq ByteArray := ByteArray.instDecidableEq

inductive Entry where
  | file (mode : Nat) (data : ByteArray)
  | directory (mode : Nat)
  /-- A symbolic link. -/
  | link (target : RawPath)
  | pipe (mode : Nat)
  deriving DecidableEq

/-- A right to an entry. To execute a directory is to use the names in it. -/
inductive Right where
  | read
  | write
  | execute
  deriving DecidableEq, Repr

/-- The bit of a mode that grants a right to the owner. -/
def Right.bit : Right → Nat
  | read => 0o400
  | write => 0o200
  | execute => 0o100

/-- The bit of a directory's mode that goes over to the directories made in it. -/
def groupBit : Nat := 0o2000

namespace Entry

def isDirectory : Entry → Bool
  | directory _ => true
  | _ => false

def isFile : Entry → Bool
  | file .. => true
  | _ => false

/-- The mode of an entry. A link lets everyone do everything. -/
def mode : Entry → Nat
  | file mode _ => mode
  | directory mode => mode
  | link _ => 0o777
  | pipe mode => mode

/-- The same entry with another mode; a link has none. -/
def withMode (mode : Nat) : Entry → Entry
  | file _ data => file mode data
  | directory _ => directory mode
  | link target => link target
  | pipe _ => pipe mode

/-- Whether a bit of the mode is set. -/
def hasBit (e : Entry) (bit : Nat) : Bool := e.mode / bit % 2 = 1

def grants (e : Entry) (r : Right) : Bool := e.hasBit r.bit

end Entry

/-- The entries of a file tree by their locations. The root is always there. -/
structure FileTree where
  entries : SortedMap Location Entry

/-- The mode of directories that are made on the way. -/
def directoryMode : Nat := 0o755

/-- The mode of files that are written as a whole. -/
def writtenMode : Nat := 0o600

/-- The mode of files that are made by opening them. -/
def openedMode : Nat := 0o644

namespace FileTree

def empty : FileTree := ⟨SortedMap.empty⟩

def entry? (t : FileTree) (l : Location) : Option Entry :=
  match l with
  | [] => some (.directory directoryMode)
  | l => t.entries.get? l

def put (t : FileTree) (l : Location) (e : Entry) : FileTree := ⟨t.entries.insert l e⟩

def erase (t : FileTree) (l : Location) : FileTree := ⟨t.entries.erase l⟩

/-- The tree without a place and everything below it. -/
def eraseBelow (t : FileTree) (l : Location) : FileTree :=
  ⟨⟨t.entries.entries.filter fun e => !l.isPrefixOf e.1, t.entries.ascending.filter _⟩⟩

/-- Everything below a place, located from there. -/
def below (t : FileTree) (l : Location) : List (Location × Entry) :=
  t.entries.entries.filterMap fun e =>
    if l.isPrefixOf e.1 && l.length < e.1.length then some (e.1.drop l.length, e.2) else none

/-- The names in a directory. -/
def children (t : FileTree) (l : Location) : List FileName :=
  (t.below l).filterMap fun e => match e.1 with
    | [name] => some name
    | _ => none

/-- How many links a path may go through. -/
def linkLimit : Nat := 40

/-- The greatest length of a name in bytes. -/
def nameLimit : Nat := 255

/-- The length in bytes from which on a path is too long. -/
def pathLimit : Nat := 4096

/-- Go through names from a place on. Links are passed to `follow` with the names after them; a link at the
end of the path is followed only if `last` says so. -/
def walkNames (t : FileTree) (last : Bool) (follow : Location → List FileName → Except Fault Location) :
    Location → List FileName → Except Fault Location
  | here, [] => .ok here
  | here, name :: rest =>
    match t.entry? here with
    | none => .error .notFound
    | some (.directory mode) =>
      if name = [] then walkNames t last follow here rest
      else if !(Entry.directory mode).grants .execute then .error .permissionDenied
      else if name = FileName.here then walkNames t last follow here rest
      else if name = FileName.up then walkNames t last follow here.dropLast rest
      else if nameLimit < name.length then .error .nameTooLong
      else
        match t.entry? (here ++ [name]) with
        | some (.link target) =>
          if rest.isEmpty && !last then .ok (here ++ [name])
          else follow (if RawPath.isAbsolute target then [] else here) (RawPath.names target ++ rest)
        | _ => walkNames t last follow (here ++ [name]) rest
    | some _ => .error .notDirectory

/-- Go through names with a number of links that may still be followed. -/
def walk (t : FileTree) (last : Bool) : Nat → Location → List FileName → Except Fault Location
  | 0 => walkNames t last fun _ _ => .error .tooManyLinks
  | n + 1 => walkNames t last (walk t last n)

/-- Whether a path may be given to the file system at all. -/
def checkPath (path : RawPath) : Except Fault Unit :=
  if path.isEmpty then .error .notFound
  else if path.contains 0 then .error .nulInName
  else if pathLimit ≤ path.length then .error .nameTooLong
  else .ok ()

/-- The place that a path leads to from a working directory. Whatever is on the way is there; at the place
itself nothing need be. -/
def resolve (t : FileTree) (last : Bool) (directory : Location) (path : String) : Except Fault Location := do
  let path := RawPath.ofText path
  checkPath path
  t.walk last linkLimit (if RawPath.isAbsolute path then [] else directory) (RawPath.names path)

/-- Fail unless there is something at a place to which a right is granted. -/
def require (t : FileTree) (r : Right) (l : Location) : Except Fault Unit :=
  match t.entry? l with
  | some e => if e.grants r then .ok () else .error .permissionDenied
  | none => .error .notFound

/-- Put an entry in the place of another one, or where there is none. The directory that it lies in must be
writable. -/
def replace (t : FileTree) (l : Location) (e : Entry) : Except Fault FileTree := do
  t.require .write l.dropLast
  match t.entry? l with
  | some (.directory _) => throw .isDirectory
  | _ => pure (t.put l e)

/-- Make a directory at a place. -/
def makeDirectoryAt (t : FileTree) (l : Location) : Except Fault FileTree := do
  if (t.entry? l).isSome then throw .alreadyExists
  t.require .write l.dropLast
  let inherits := (t.entry? l.dropLast).any fun e => e.hasBit groupBit
  pure (t.put l (.directory (directoryMode + if inherits then groupBit else 0)))

/-- Fail unless everything at a place and below it can be read. -/
def requireReadable (t : FileTree) (l : Location) : Except Fault Unit :=
  let readable := fun (here : Location) (e : Entry) => match e with
    | .file .. => e.grants .read
    | .directory _ => e.grants .read && (e.grants .execute || (t.children here).isEmpty)
    | _ => true
  if (t.entry? l).all (readable l) && (t.below l).all fun e => readable (l ++ e.1) e.2 then .ok ()
  else .error .permissionDenied

/-- Fail unless a directory can be removed with everything in it. -/
def requireRemovable (t : FileTree) (l : Location) : Except Fault Unit := do
  let removable := fun (here : Location) (e : Entry) =>
    !e.isDirectory || e.grants .read && (e.grants .write && e.grants .execute || (t.children here).isEmpty)
  t.require .write l.dropLast
  if (t.entry? l).all (removable l) && (t.below l).all fun e => removable (l ++ e.1) e.2 then pure ()
  else throw .permissionDenied

section Access

variable (t : FileTree) (directory : Location) (path : String)

/-- What a path leads to, behind all links. -/
def status : Except Fault Entry := do
  match t.entry? (← t.resolve true directory path) with
  | some e => pure e
  | none => throw .notFound

/-- What lies at a path itself, be it a link. -/
def linkStatus : Except Fault Entry := do
  match t.entry? (← t.resolve false directory path) with
  | some e => pure e
  | none => throw .notFound

/-- Whether a path leads to anything. -/
def pathExists : Bool := (t.status directory path).toOption.isSome

def isDirectory : Bool := (t.status directory path).toOption.any Entry.isDirectory

def isFile : Bool := (t.status directory path).toOption.any Entry.isFile

/-- Fail unless what a path leads to can be read. -/
def openReadable : Except Fault Unit := do t.require .read (← t.resolve true directory path)

def read : Except Fault ByteArray := do
  t.openReadable directory path
  match ← t.status directory path with
  | .file _ data => pure data
  | .directory _ => throw .isDirectory
  | _ => throw .badFileType

/-- The names in a directory. -/
def list : Except Fault (List FileName) := do
  let l ← t.resolve true directory path
  match t.entry? l with
  | some (.directory _) =>
    t.require .read l
    pure (t.children l)
  | some _ => throw .notDirectory
  | none => throw .notFound

/-- Make a directory. -/
def makeDirectory : Except Fault FileTree := do t.makeDirectoryAt (← t.resolve false directory path)

/-- Make a directory unless there is one. -/
def ensureDirectory : Except Fault FileTree :=
  match t.makeDirectory directory path with
  | .ok t => .ok t
  | .error e => if t.isDirectory directory path then .ok t else .error e

/-- Put a file with its whole content in a directory that is there. Whatever else has its name gives way,
except a directory. -/
def write (data : ByteArray) : Except Fault FileTree := do
  match ← t.status directory (Path.directory path) with
  | .directory _ => t.replace (← t.resolve false directory path) (.file writtenMode data)
  | _ => throw .notDirectory

/-- Open a file for writing, which makes it if it is not there. -/
def openFile : Except Fault FileTree := do
  let l ← t.resolve true directory path
  match t.entry? l with
  | some (.directory _) => throw .isDirectory
  | some _ =>
    t.require .write l
    pure t
  | none => t.replace l (.file openedMode ByteArray.empty)

/-- Remove anything but a directory; of a link, the link itself. -/
def remove : Except Fault FileTree := do
  let l ← t.resolve false directory path
  match t.entry? l with
  | some (.directory _) => throw .isDirectory
  | some _ =>
    t.require .write l.dropLast
    pure (t.erase l)
  | none => throw .notFound

/-- Remove a directory with everything in it, or a link. -/
def removeTree : Except Fault FileTree := do
  let l ← t.resolve false directory path
  match t.entry? l with
  | some (.directory _) =>
    t.requireRemovable l
    pure (t.eraseBelow l)
  | some (.link _) =>
    t.require .write l.dropLast
    pure (t.erase l)
  | some _ => throw .notDirectory
  | none => throw .notFound

end Access

/-- Make the first directory of a list of which each lies in the next, and those that it lies in. -/
def makeDirectories (t : FileTree) (directory : Location) : List String → Except Fault FileTree
  | [] => .error .notFound
  | path :: outer =>
    if path.isEmpty then .ok t
    else
      match t.makeDirectory directory path with
      | .ok t => .ok t
      | .error .notFound => do
        let t ← t.makeDirectories directory outer
        t.ensureDirectory directory path
      | .error e => if t.isDirectory directory path then .ok t else .error e

/-- Make a directory and those that it lies in, as far as they are not there. -/
def makePath (t : FileTree) (directory : Location) (path : String) : Except Fault FileTree :=
  t.makeDirectories directory (Path.ancestors path)

end FileTree

end ImageRecipe
