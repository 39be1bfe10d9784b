import ImageRecipe.Archive.Header
import ImageRecipe.Text.Blank

/-! Reading archives: each header with the data behind it is a member, or says something of the member that
follows. -/

namespace ImageRecipe.Archive

/-- The bytes before the first zero byte. -/
def beforeZero (bs : List UInt8) : List UInt8 := bs.takeWhile fun b => b ≠ 0

/-- The number of a field in octal digits, among blanks. -/
def octalOfField (bs : List UInt8) : Except Fault Nat :=
  let cs := Text.trimEnd (Text.trimStart (FileName.text (beforeZero bs)).toList)
  match Text.parseOctal Text.limit64 cs with
  | some n => .ok n
  | none => .error .badArchive

/-- The number of a field: octal digits, or bytes of which the first has its first bit set. -/
def numberOfField (bs : List UInt8) : Except Fault Nat :=
  match bs with
  | b :: r =>
    if 0x80 ≤ b then .ok (r.foldl (fun n b => 256 * n + b.toNat) (b.toNat % 128) % Text.limit64)
    else octalOfField (b :: r)
  | [] => .error .badArchive

/-- Some bytes of a block. -/
def slice (start length : Nat) (block : List UInt8) : List UInt8 := (block.drop start).take length

/-- The byte of a block at a position. -/
def byteAt (i : Nat) (block : List UInt8) : UInt8 := block.getD i 0

/-- The two formats of headers whose members may say something of the next one. -/
inductive HeaderFormat where
  | standard
  | gnu
  deriving DecidableEq, Repr

/-- The format that the magic bytes of a header name, if any. -/
def formatOf? (block : List UInt8) : Option HeaderFormat :=
  let magic := slice 257 8 block
  if magic = bytesOfText "ustar" ++ [0, 0x30, 0x30] then some .standard
  else if magic = bytesOfText "ustar  " ++ [0] then some .gnu
  else none

/-- The byte of a header that tells the type of its member. -/
def codeOf (block : List UInt8) : UInt8 := byteAt 156 block

/-- The types of members. -/
def directoryCode : UInt8 := 0x35

def linkCode : UInt8 := 0x32

/-- Another name for what an earlier member put. -/
def sameFileCode : UInt8 := 0x31

/-- A file that is stored without its holes. -/
def sparseCode : UInt8 := 0x53

def longPathCode : UInt8 := 0x4c

def longTargetCode : UInt8 := 0x4b

/-- Attributes of the next member. -/
def attributesCode : UInt8 := 0x78

/-- Attributes of all members that follow. -/
def defaultsCode : UInt8 := 0x67

/-- A member as it is stored. Its path and its target need spell no text, and its mode may be
unreadable. -/
structure StoredMember where
  code : UInt8
  format : Option HeaderFormat
  path : RawPath
  mode : Option Nat
  uid : Nat
  gid : Nat
  user : List UInt8
  group : List UInt8
  data : List UInt8
  /-- Where a link leads; the empty path if nothing tells. -/
  target : RawPath
  deriving DecidableEq

/-- The kind of a type. -/
def kindOfCode (code : UInt8) : MemberKind :=
  if code = 0x30 || code = 0 then .file
  else if code = directoryCode then .directory
  else if code = linkCode then .link
  else .other code

/-- A stored member in texts. -/
def StoredMember.member (m : StoredMember) : Member where
  path := m.path.text
  kind := kindOfCode m.code
  mode := m.mode.getD 0
  uid := m.uid
  gid := m.gid
  user := FileName.text m.user
  group := FileName.text m.group
  data := m.data
  target := m.target.text

/-! ## Attributes -/

/-- An attribute: its name and its value. -/
abbrev Attribute := List UInt8 × List UInt8

/-- The attribute of a line: the length of the line, a blank, and the name before an equals sign. -/
def attributeOfLine? (line : List UInt8) : Option Attribute :=
  let digits := line.takeWhile fun b => b ≠ 0x20
  let text := line.drop (digits.length + 1)
  let name := text.takeWhile fun b => b ≠ 0x3d
  match Text.parseUnsigned Text.limit64 (FileName.text digits).toList with
  | some n =>
    if n = line.length + 1 && name.length < text.length then some (name, text.drop (name.length + 1))
    else none
  | none => none

/-- The attributes on the lines of some data, up to an empty line; none in the place of a line that holds no
attribute. The first line begins with the bytes of `line`, last first. -/
def attributesFrom (line : List UInt8) : List UInt8 → List (Option Attribute)
  | [] => if line.isEmpty then [] else [attributeOfLine? line.reverse]
  | b :: r =>
    if b ≠ 0x0a then attributesFrom (b :: line) r
    else if line.isEmpty then []
    else attributeOfLine? line.reverse :: attributesFrom [] r

/-- The first value of an attribute. -/
def attribute? (name : String) (attributes : List (Option Attribute)) : Option (List UInt8) :=
  (attributes.filterMap id).lookup (bytesOfText name)

/-- The size that attributes tell: the first one that is a number, unless a line before it holds no
attribute. -/
def sizeAttribute? : List (Option Attribute) → Option Nat
  | [] | none :: _ => none
  | some (name, value) :: r =>
    let size := if name = bytesOfText "size" then
        (FileName.text? value).bind fun s => Text.parseUnsigned Text.limit64 s.toList
      else none
    match size with
    | some n => some n
    | none => sizeAttribute? r

/-! ## Members that say something of the next one -/

/-- What was read of the member that follows. -/
structure Pending where
  path : Option RawPath := none
  target : Option RawPath := none
  attributes : Option (List (Option Attribute)) := none
  deriving DecidableEq

/-- The path that stands in place of that of the header. -/
def Pending.path? (p : Pending) : Option RawPath := p.path <|> p.attributes.bind (attribute? "path")

/-- The target that stands in place of that of the header. -/
def Pending.target? (p : Pending) : Option RawPath :=
  p.target <|> p.attributes.bind (attribute? "linkpath")

/-- The size that stands in place of that of the header. -/
def Pending.size? (p : Pending) : Option Nat := p.attributes.bind sizeAttribute?

/-- A long name without the zero byte behind it. -/
def withoutEnd (bs : List UInt8) : List UInt8 := if bs.getLast? = some 0 then bs.dropLast else bs

/-- What is known of the next member after a member that only says something of it; none for any other. The
same may not be said twice. -/
def Pending.add? (p : Pending) (block data : List UInt8) : Except Fault (Option Pending) :=
  let code := codeOf block
  if formatOf? block = none then .ok none
  else if code = longPathCode then
    if p.path.isSome then .error .badArchive else .ok (some { p with path := some (withoutEnd data) })
  else if code = longTargetCode then
    if p.target.isSome then .error .badArchive else .ok (some { p with target := some (withoutEnd data) })
  else if code = attributesCode then
    if p.attributes.isSome then .error .badArchive
    else .ok (some { p with attributes := some (attributesFrom [] data) })
  else .ok none

/-! ## Files with holes -/

/-- A part of a file that is no hole. -/
structure Extent where
  offset : Nat
  length : Nat
  deriving DecidableEq, Repr

/-- The extents in so many entries of a table; an entry with an empty field is none. -/
def extents : Nat → List UInt8 → Except Fault (List Extent)
  | 0, _ => .ok []
  | n + 1, table => do
    let offset := slice 0 12 table
    let length := slice 12 12 table
    let rest ← extents n (table.drop 24)
    if byteAt 0 offset = 0 || byteAt 0 length = 0 then pure rest
    else pure (⟨← octalOfField offset, ← octalOfField length⟩ :: rest)

/-- The extents in the blocks behind a header, each of which tells whether another one follows, and what
is behind the blocks. -/
def furtherExtents : Nat → List UInt8 → Except Fault (List Extent × List UInt8)
  | 0, _ => .error .badArchive
  | fuel + 1, bs => do
    let block := bs.take blockSize
    if block.length < blockSize then throw .badArchive
    let here ← extents 21 block
    if byteAt 504 block = 1 then
      let (more, rest) ← furtherExtents fuel (bs.drop blockSize)
      pure (here ++ more, rest)
    else pure (here, bs.drop blockSize)

/-- The extents of a header and what is behind their table. -/
def extentsOf (block rest : List UInt8) : Except Fault (List Extent × List UInt8) := do
  let here ← extents 4 (block.drop 386)
  if byteAt 482 block = 1 then
    let (more, rest) ← furtherExtents (rest.length / blockSize + 1) rest
    pure (here ++ more, rest)
  else pure (here, rest)

/-- The content of a file from a position on, with zeros in its holes. The extents are in order, they take
up all of the data, and each that is not empty begins on a block of it. `taken` bytes of the data are
used already. -/
def spread (size here taken : Nat) (data : List UInt8) : List Extent → Except Fault (List UInt8)
  | [] => if here = size && data.isEmpty then .ok [] else .error .badArchive
  | e :: r => do
    if e.length ≠ 0 && taken % blockSize ≠ 0 then throw .badArchive
    if e.offset < here || data.length < e.length then throw .badArchive
    let rest ← spread size (e.offset + e.length) (taken + e.length) (data.drop e.length) r
    pure (zeros (e.offset - here) ++ data.take e.length ++ rest)

/-! ## Archives -/

/-- Whether a header's checksum is right. -/
def checksumHolds (block : List UInt8) : Except Fault Bool := do
  let found ← octalOfField (slice 148 8 block)
  pure (found % Text.limit32 = Header.sum (block.take 148) + Header.sum (block.drop 156) + 8 * 32)

/-- The first header of an archive and what follows. A block of zeros or the end of the bytes ends the
archive. -/
def firstHeader? (bs : List UInt8) : Except Fault (Option (List UInt8 × List UInt8)) :=
  let block := bs.take blockSize
  if bs.isEmpty then .ok none
  else if block.length < blockSize then .error .badArchive
  else if block.all fun b => b = 0 then .ok none
  else do
    if !(← checksumHolds block) then throw .badArchive
    pure (some (block, bs.drop blockSize))

/-- Data of a size and what follows the blocks that it fills. -/
def cutData (size : Nat) (bs : List UInt8) : Except Fault (List UInt8 × List UInt8) := do
  let room := size + (blockSize - size % blockSize) % blockSize
  let stored := bs.take room
  if stored.length < room then throw .badArchive
  pure (stored.take size, bs.drop room)

/-- The path in a header, whose beginning the standard format may keep in a field of its own. -/
def headerPath (block : List UInt8) : RawPath :=
  let name := beforeZero (slice 0 nameSize block)
  let beginning := beforeZero (slice 345 155 block)
  if formatOf? block = some .standard && !beginning.isEmpty then beginning ++ RawPath.slash :: name else name

/-- The member of a header's block and its data. -/
def memberOfBlock (p : Pending) (block data : List UInt8) : StoredMember :=
  let number := fun (bs : List UInt8) => (numberOfField bs).toOption.getD 0
  { code := codeOf block
    format := formatOf? block
    path := p.path?.getD (headerPath block)
    mode := (octalOfField (slice 100 8 block)).toOption.map fun n => n % Text.limit32
    uid := number (slice 108 8 block)
    gid := number (slice 116 8 block)
    user := beforeZero (slice 265 32 block)
    group := beforeZero (slice 297 32 block)
    data
    target := p.target?.getD (beforeZero (slice 157 nameSize block)) }

/-- The data of a member and what follows it. Holes are known in one of the formats only. -/
def memberData (p : Pending) (block rest : List UInt8) : Except Fault (List UInt8 × List UInt8) := do
  let size := p.size?.getD (← numberOfField (slice 124 12 block))
  if codeOf block = sparseCode then
    if formatOf? block ≠ some .gnu then throw .badArchive
    let (es, rest) ← extentsOf block rest
    let (data, rest) ← cutData size rest
    pure (← spread (← octalOfField (slice 483 12 block)) 0 0 data es, rest)
  else cutData size rest

/-- The members of an archive's blocks. -/
def membersFrom : Nat → Pending → List UInt8 → Except Fault (List StoredMember)
  | 0, _, _ => .ok []
  | fuel + 1, p, bs => do
    match ← firstHeader? bs with
    | none => if p = {} then pure [] else throw .badArchive
    | some (block, rest) =>
      let (data, rest) ← memberData p block rest
      match ← p.add? block data with
      | some p => membersFrom fuel p rest
      | none => pure (memberOfBlock p block data :: (← membersFrom fuel {} rest))

/-- The members of an archive as they are stored. -/
def decode (bs : List UInt8) : Except Fault (List StoredMember) :=
  membersFrom (bs.length / blockSize + 1) {} bs

/-- The members of an archive. -/
def members (bs : List UInt8) : Except Fault (List Member) := do pure ((← decode bs).map StoredMember.member)

end ImageRecipe.Archive
