import ImageRecipe.Archive.Member
import ImageRecipe.Text.Utf8
import ImageRecipe.Text.Number

/-! Archives as bytes. Every member has a header of 512 bytes before its data, which is filled up to blocks
of 512 bytes. A name too long for its header is put before it as a member of its own. -/

namespace ImageRecipe.Archive

def blockSize : Nat := 512

/-- The room that a header has for a path or the target of a link. -/
def nameSize : Nat := 100

/-- The room that a header has for the name of a user or a group. -/
def ownerNameSize : Nat := 32

def bytesOfText (s : String) : List UInt8 := (Text.bytes s).toList

def bytesOfChars (cs : List Char) : List UInt8 := bytesOfText (String.ofList cs)

def zeros (n : Nat) : List UInt8 := List.replicate n 0

/-- Bytes filled up with zeros, or cut, to a width. -/
def fit (width : Nat) (bs : List UInt8) : List UInt8 := (bs ++ zeros (width - bs.length)).take width

/-- A number in octal digits with a zero byte behind them. Digits in front that have no room are lost. -/
def octalField (width n : Nat) : List UInt8 :=
  let ds := Text.padZeros (width - 1) (Text.octal n)
  bytesOfChars (ds.drop (ds.length - (width - 1))) ++ [0]

/-- A number that octal digits cannot hold, in the last eight bytes of a field with its first bit set. -/
def binaryField (width n : Nat) : List UInt8 :=
  match zeros (width - 8) ++ (List.range 8).reverse.map fun k => UInt8.ofNat (n / Nat.pow 256 k) with
  | b :: r => (b ||| 0x80) :: r
  | [] => []

/-- The number of a user or a group. -/
def ownerField (n : Nat) : List UInt8 := if n < 2097152 then octalField 8 n else binaryField 8 n

/-- The number of bytes of a member's data. -/
def sizeField (n : Nat) : List UInt8 := if n < 8589934592 then octalField 12 n else binaryField 12 n

def typeCode : MemberKind → UInt8
  | .file => 0x30
  | .directory => 0x35
  | .link => 0x32
  | .other code => code

/-- What a header says. -/
structure Header where
  name : List UInt8
  mode : Nat
  uid : Nat
  gid : Nat
  size : Nat
  code : UInt8
  target : List UInt8 := []
  user : List UInt8 := []
  group : List UInt8 := []

namespace Header

/-- The header's block around a checksum field. -/
def blockWith (h : Header) (checksum : List UInt8) : List UInt8 :=
  fit nameSize h.name ++ octalField 8 h.mode ++ ownerField h.uid ++ ownerField h.gid ++
    sizeField h.size ++ octalField 12 0 ++ checksum ++ [h.code] ++ fit nameSize h.target ++
    bytesOfText "ustar  " ++ [0] ++ fit ownerNameSize h.user ++ fit ownerNameSize h.group ++ zeros 183

def sum (bs : List UInt8) : Nat := bs.foldl (fun n b => n + b.toNat) 0

/-- The block of a header, whose checksum is the sum of all bytes with the checksum taken for blanks. -/
def block (h : Header) : List UInt8 :=
  h.blockWith (octalField 8 (sum (h.blockWith (List.replicate 8 0x20))))

end Header

/-- Data filled up to whole blocks. -/
def padded (data : List UInt8) : List UInt8 :=
  data ++ zeros ((blockSize - data.length % blockSize) % blockSize)

/-- The pieces of text that spell a path in its shortest form. -/
def spelling (path : String) (names : List (List Char)) : List (List Char) :=
  let joined := names.foldl
    (fun (pieces, slash) name =>
      (pieces ++ (if slash then [['/'], name] else [name]), name ≠ ['/']))
    (([] : List (List Char)), false)
  joined.1 ++ (if path.toList.getLast? == some '/' then [['/']] else [])

/-- As many pieces as there is room for, and whether there is room for all. A piece with a zero byte has none. -/
def place (room : Nat) : List (List Char) → List UInt8 × Bool
  | [] => ([], true)
  | p :: r =>
    let bs := bytesOfChars p
    if room < bs.length || bs.contains 0 then ([], false)
    else
      let (rest, whole) := place (room - bs.length) r
      (bs ++ rest, whole)

/-- The names that a member's path is spelled with. A path may not lead upwards, and a dot counts only where
it is the whole path. Of a path that is cut off, the last name may be cut to look like one that leads
upwards. -/
def memberNames? (cut : Bool) (path : String) : Option (List (List Char)) :=
  match Path.components path with
  | [] => none
  | [['.']] => some [['.']]
  | names =>
    if (if cut then names.dropLast else names).contains ['.', '.'] || names.head? == some ['/'] then none
    else
      match names.filter fun n => n ≠ ['.'] with
      | [] => none
      | names => some names

/-- The header in front of a name that has no room in a header. -/
def longHeader (code : UInt8) (name : List UInt8) : Header :=
  { name := bytesOfText "././@LongLink", mode := 0o644, uid := 0, gid := 0, size := name.length + 1, code }

/-- A name that has no room in a header, as a member of its own. -/
def longName (code : UInt8) (name : List UInt8) : List UInt8 :=
  (longHeader code name).block ++ padded (name ++ [0])

/-- The longest beginning of a text that fits in a number of bytes. -/
def cutText (room : Nat) : List Char → List Char
  | [] => []
  | c :: r => if room < c.utf8Size then [] else c :: cutText (room - c.utf8Size) r

/-- A text written over another one of a field, with a zero byte behind it. -/
def overlay (text old : List UInt8) : List UInt8 := text ++ 0 :: old.drop (text.length + 1)

/-- What stands before a member's header for its path, and the path in the header. -/
def pathFields (path : String) : Except Fault (List UInt8 × List UInt8) :=
  let whole := bytesOfText path
  let attempt := fun (cut : Bool) (path : String) =>
    match memberNames? cut path with
    | some names => place nameSize (spelling path names)
    | none => ([], false)
  let (name, fits) := attempt false path
  if fits then .ok ([], name)
  else if whole.length < nameSize then .error .badArchive
  else
    let (start, fits) := attempt true (String.ofList (cutText nameSize path.toList))
    if fits then .ok (longName 0x4c whole, overlay start name) else .error .badArchive

/-- What stands before a link's header for its target, and the target in the header. -/
def targetFields (target : String) : List UInt8 × List UInt8 :=
  let (text, fits) := place nameSize (spelling target (Path.components target))
  (if fits then [] else longName 0x4b (bytesOfText target), text)

/-- A name of a user or a group. -/
def ownerName (s : String) : Except Fault (List UInt8) :=
  let bs := bytesOfText s
  if ownerNameSize < bs.length || bs.contains 0 then .error .badArchive else .ok bs

/-- The bytes of a member. -/
def encodeMember (m : Member) : Except Fault (List UInt8) := do
  let user ← ownerName m.user
  let group ← ownerName m.group
  let (longPath, name) ← pathFields m.path
  let (longTarget, target) := if m.kind = .link then targetFields m.target else ([], [])
  let header : Header :=
    { name, mode := m.mode, uid := m.uid, gid := m.gid, size := m.data.length, code := typeCode m.kind
      target, user, group }
  pure (longPath ++ longTarget ++ header.block ++ padded m.data)

/-- The bytes of an archive: its members and two blocks of zeros. -/
def encode (members : List Member) : Except Fault (List UInt8) := do
  let parts ← members.mapM encodeMember
  pure (parts.flatten ++ zeros (2 * blockSize))

/-- The archive of a layer's entries. -/
def pack (o : LayerOptions) (entries : List (Location × Entry)) : Except Fault (List UInt8) :=
  encode (o.members entries)

/-- The archive of a directory; one that does not exist has no entries. -/
def packDirectory (t : FileTree) (directory : Location) (path : String) (o : LayerOptions) :
    Except Fault (List UInt8) :=
  match t.resolve true directory path with
  | .error _ => pack o []
  | .ok l =>
    match t.entry? l with
    | some (.directory _) => do
      t.requireReadable l
      pack o (t.below l)
    | some _ => .error .notDirectory
    | none => pack o []

end ImageRecipe.Archive
