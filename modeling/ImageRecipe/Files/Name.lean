import ImageRecipe.Text.Utf8

/-! Names of files and paths as the file system has them: bytes, which need not spell a text. -/

namespace ImageRecipe

/-- The name of a file. -/
abbrev FileName := List UInt8

/-- A path: names with slashes between them. -/
abbrev RawPath := List UInt8

/-- The bytes of a text. -/
def FileName.ofText (s : String) : FileName := (Text.bytes s).toList

/-- The text that a name spells, with U+FFFD in place of what spells none. -/
def FileName.text (n : FileName) : String := Text.ofBytesLossy ⟨n.toArray⟩

/-- The text that a name spells, if it spells one. -/
def FileName.text? (n : FileName) : Option String := Text.ofBytes? ⟨n.toArray⟩

/-- The name by which a directory knows itself. -/
def FileName.here : FileName := [0x2e]

/-- The name by which a directory knows the one that it lies in. -/
def FileName.up : FileName := [0x2e, 0x2e]

namespace RawPath

def slash : UInt8 := 0x2f

def ofText (s : String) : RawPath := FileName.ofText s

def text (p : RawPath) : String := FileName.text p

def isAbsolute (p : RawPath) : Bool := p.head? == some slash

/-- The names between the slashes of a path; two slashes in a row have the empty name between them. -/
def names : RawPath → List FileName
  | [] => [[]]
  | b :: r =>
    if b = slash then [] :: names r
    else
      match names r with
      | [] => [[b]]
      | n :: ns => (b :: n) :: ns

/-- Names with slashes between them. -/
def ofNames : List FileName → RawPath
  | [] => []
  | [n] => n
  | n :: r => n ++ slash :: ofNames r

end RawPath

end ImageRecipe
