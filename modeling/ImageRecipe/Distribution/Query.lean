import ImageRecipe.Pin
import ImageRecipe.Text.Split

/-! Asking a package manager for the current version of packages, and reading its answer. -/

namespace ImageRecipe

namespace PackageQuery

/-- The fields of an APT stanza that have been read. -/
structure Stanza where
  name : Option (List Char) := none
  version : Option (List Char) := none
  architecture : Option (List Char) := none

def blankFree (cs : List Char) : List Char := Text.trimEnd (Text.trimStart cs)

/-- Take in a line of a stanza; the last line of a field counts, and other lines are passed over. -/
def Stanza.read (s : Stanza) (line : List Char) : Stanza :=
  match Text.dropStart? "Package: ".toList line with
  | some v => { s with name := some (blankFree v) }
  | none =>
    match Text.dropStart? "Version: ".toList line with
    | some v => { s with version := some (blankFree v) }
    | none =>
      match Text.dropStart? "Architecture: ".toList line with
      | some v => { s with architecture := some (blankFree v) }
      | none => s

/-- The pin of a stanza that names package, version and architecture. The release follows the last
hyphen of the full version. -/
def Stanza.pin? (s : Stanza) : Option Pin := do
  let name ← s.name
  let full ← s.version
  let architecture ← s.architecture
  let (version, release) := (Text.cutLast '-' full).getD (full, [])
  pure ⟨String.ofList name, String.ofList version, String.ofList release, String.ofList architecture⟩

def stanzaPin? (stanza : List Char) : Option Pin :=
  ((Text.lines stanza).foldl Stanza.read {}).pin?

/-- The pin of a line that begins with name, version, release and architecture. -/
def columnsPin? (line : List Char) : Option Pin :=
  match Text.words line with
  | name :: version :: release :: architecture :: _ =>
    some ⟨String.ofList name, String.ofList version, String.ofList release, String.ofList architecture⟩
  | _ => none

/-- The pin of a line that begins with name, version and release joined by hyphens, then the
architecture. -/
def joinedPin? (line : List Char) : Option Pin :=
  match Text.words line with
  | full :: architecture :: _ => do
    let (rest, release) ← Text.cutLast '-' full
    let (name, version) ← Text.cutLast '-' rest
    pure ⟨String.ofList name, String.ofList version, String.ofList release, String.ofList architecture⟩
  | _ => none

end PackageQuery

namespace Distribution

/-- The command that asks for the candidate version of packages. -/
def queryCommand (d : Distribution) (packages : List String) : String :=
  let names := " ".intercalate packages
  match d.packageManager with
  | .apt => "apt-get update -qq >/dev/null && apt-cache show --no-all-versions " ++ names
  | .yum =>
    "yum install -q -y yum-utils >/dev/null 2>&1; repoquery --latest-limit=1 --qf '%\x7bname\x7d " ++
      "%\x7bversion\x7d %\x7brelease\x7d %\x7barch\x7d' " ++ names
  | .apk => "apk update -q >/dev/null && apk list " ++ names

/-- The pins in the answer to a query. What describes no package is passed over. -/
def parseQueryOutput (d : Distribution) (output : String) : List Pin :=
  let cs := output.toList
  match d.packageManager with
  | .apt => (Text.stanzas cs).filterMap PackageQuery.stanzaPin?
  | .yum => (Text.lines cs).filterMap PackageQuery.columnsPin?
  | .apk => (Text.lines cs).filterMap PackageQuery.joinedPin?

end Distribution

end ImageRecipe
