import ImageRecipe.Lockfile.Basic
import ImageRecipe.Document.Fields
import ImageRecipe.Toml.Printer
import ImageRecipe.Toml.Reader

/-! Lockfiles as TOML texts. -/

namespace ImageRecipe

namespace Lockfile

/-- The name of the list of pins in a lockfile's text. -/
def listName : String := "package"

/-- A pin beside its distribution as a table. -/
def entryToDocument (e : Distribution × Pin) : Document :=
  .table [
    ("distribution", .text e.1.name),
    ("architecture", .text e.2.architecture),
    ("name", .text e.2.name),
    ("version", .text e.2.version),
    ("release", .text e.2.release)]

/-- The fields of a lockfile's text. -/
def fields (l : Lockfile) : List (String × Document) :=
  [("lock_version", .ofNat formatVersion), (listName, .list (l.entries.map entryToDocument))]

def render (l : Lockfile) : String := (Toml.render? l.fields).getD ""

def entryOfDocument? (d : Document) : Option (Distribution × Pin) := do
  match ← d.fields? .toml false ["distribution", "architecture", "name", "version", "release"] with
  | [distribution, architecture, name, version, release] =>
    let text := Field.required Document.text?
    let distribution ← Field.required
      (fun d => (d.name? .toml).bind Distribution.ofName?) distribution
    pure (distribution, {
      architecture := ← text architecture
      name := ← text name
      version := ← text version
      release := ← Field.defaulted Document.text? "" release })
  | _ => none

/-- The version and the entries of a lockfile's document. -/
def contentsOfDocument? (d : Document) : Option (Nat × List (Distribution × Pin)) := do
  match ← d.fields? .toml false ["lock_version", listName] with
  | [version, entries] =>
    pure (← Field.required (Document.nat? Text.limit32) version,
      ← Field.defaulted (Document.list? entryOfDocument?) [] entries)
  | _ => none

/-- Add entries to a lockfile, up to the first that is refused. -/
def addEntries (l : Lockfile) : List (Distribution × Pin) → Except LockError Lockfile
  | [] => .ok l
  | (d, p) :: r =>
    match l.insert d p with
    | (l, .ok ()) => addEntries l r
    | (_, .error e) => .error e

/-- The lockfile of a text. -/
def parse (s : String) : Except LockError Lockfile :=
  match (Toml.parse s).bind contentsOfDocument? with
  | none => .error .malformed
  | some (version, entries) =>
    if version = formatVersion then addEntries empty entries else .error (.unsupportedVersion version)

end Lockfile

end ImageRecipe
