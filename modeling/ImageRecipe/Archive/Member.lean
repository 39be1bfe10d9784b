import ImageRecipe.Archive.Ownership
import ImageRecipe.Files.Tree
import ImageRecipe.Plan.Basic

/-! Archives as lists of members, and the members that a layer comes to. Members are in the order of their
paths, and neither host owners nor times get into them. -/

namespace ImageRecipe

inductive MemberKind where
  | file
  | directory
  | link
  /-- A member that layers never hold, by its type byte. -/
  | other (code : UInt8)
  deriving DecidableEq, Repr

/-- A member of an archive. -/
structure Member where
  /-- The path of a directory ends in a slash. -/
  path : String
  kind : MemberKind
  mode : Nat
  uid : Nat
  gid : Nat
  user : String
  group : String
  data : List UInt8
  /-- Where a link leads. -/
  target : String
  deriving DecidableEq, Repr

/-- How a layer directory is packed. -/
structure LayerOptions where
  /-- The directory of the image that the layer is put in. -/
  destination : String := "/"
  owner : Ownership := .root
  permissions : Permissions := .preserve
  deriving DecidableEq, Repr

namespace LayerOptions

variable (o : LayerOptions)

/-- A member with the layer's owner. -/
def member (path : String) (kind : MemberKind) (mode : Nat) (data : List UInt8) (target : String) :
    Member :=
  match o.owner with
  | .root => ⟨path, kind, mode, 0, 0, "", "", data, target⟩
  | .numeric uid gid => ⟨path, kind, mode, uid, gid, "", "", data, target⟩
  | .named user group => ⟨path, kind, mode, 0, 0, user, group, data, target⟩

/-- The destination without slashes at its ends. -/
def inner : String :=
  let isSlash := fun (c : Char) => c = '/'
  String.ofList ((o.destination.toList.dropWhile isSlash).reverse.dropWhile isSlash).reverse

/-- The path of a directory in the archive. -/
def directoryPath (path : String) : String :=
  String.ofList ((path.toList.reverse.dropWhile fun c => c = '/').reverse ++ ['/'])

/-- The directories that the destination lies in, from the outermost down to itself. -/
def destinationDirectories : List String :=
  let names := Path.components o.inner
  (List.range names.length).map fun n => String.ofList (Path.joinPieces (names.take (n + 1)))

/-- The modes that the layer gives to files and directories, given their own. -/
def fileMode (mode : Nat) : Nat :=
  match o.permissions with
  | .preserve => mode % 4096
  | .fixed file _ => file

def directoryMode (mode : Nat) : Nat :=
  match o.permissions with
  | .preserve => mode % 4096
  | .fixed _ directory => directory

/-- The member of an entry at a path in the layer; pipes have none. -/
def memberOf? (path : String) : Entry → Option Member
  | .file mode data =>
    some (o.member (Path.join o.inner path) .file (o.fileMode mode) data.toList "")
  | .directory mode =>
    some (o.member (directoryPath (Path.join o.inner path)) .directory (o.directoryMode mode) [] "")
  | .link target => some (o.member (Path.join o.inner path) .link 0o777 [] (RawPath.text target))
  | .pipe _ => none

/-- Entries by their paths as texts, in the order of these texts. -/
def sortedEntries (entries : List (Location × Entry)) : List (String × Entry) :=
  (entries.map fun e => (e.1.text, e.2)).mergeSort fun a b => decide (a.1 ≤ b.1)

/-- The members of a layer: the directories of its destination and then its entries. -/
def members (entries : List (Location × Entry)) : List Member :=
  (o.destinationDirectories.map fun d => o.member (directoryPath d) .directory 0o755 [] "") ++
    (sortedEntries entries).filterMap fun e => o.memberOf? e.1 e.2

end LayerOptions

end ImageRecipe
