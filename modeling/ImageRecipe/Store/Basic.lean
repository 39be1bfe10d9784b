import ImageRecipe.Store.Layout
import ImageRecipe.Store.Error
import ImageRecipe.Host.Basic
import ImageRecipe.Json.Reader
import ImageRecipe.Json.Printer
import ImageRecipe.Json.Record
import ImageRecipe.Document.Fields

/-! Stores as a whole: their directories and the version of their format. -/

namespace ImageRecipe

abbrev StoreM := HostM StoreError

namespace Store

/-- An action on files in a store. -/
def onFiles {α : Type} (x : HostM Fault α) : StoreM α := x.failingAs .io

/-- The value of a file that holds a JSON document. If the value is a record of a given form, it is
told what is wrong with a document that is not. -/
def readDocument {α : Type} (form : Option Json.Form) (ofDocument? : Document → Option α)
    (path : String) : StoreM α := do
  let text ← onFiles (Host.readText path)
  match (Json.parse text).bind ofDocument? with
  | some a => pure a
  | none => throw (.unreadable (form.bind fun f => f.misfit? text))

/-- Write a document to a file, in the form that people can read. -/
def writeDocument (path : String) (d : Document) : StoreM Unit :=
  onFiles (Host.writeText path (Json.pretty d))

/-- The form of the document that names the store's format. -/
def versionForm : Json.Form := ⟨"StoreVersion", [("format_version", .number)]⟩

/-- The format version that a document names. -/
def versionOfDocument? (d : Document) : Option Nat := do
  match ← d.fields? .json false ["format_version"] with
  | [version] => Field.required (Document.nat? Text.limit32) version
  | _ => none

variable (s : Store)

def isInitialized {ε : Type} : HostM ε Bool := Host.pathExists s.versionFile

/-- Fail unless the store has the format that is supported. -/
def verifyVersion : StoreM Unit := do
  let found ← readDocument (some versionForm) versionOfDocument? s.versionFile
  if found ≠ storeFormatVersion then throw (.versionMismatch found)

/-- Make the directories of the store, and note its version if it is new. -/
def prepare : StoreM Unit := do
  onFiles (Host.makePath s.objects)
  onFiles (Host.makePath s.images)
  onFiles (Host.makePath s.tags)
  onFiles (Host.makePath s.cache)
  if ← s.isInitialized then s.verifyVersion
  else writeDocument s.versionFile (.table [("format_version", .ofNat storeFormatVersion)])

/-- Open the file by which users of the store exclude each other; it is made if it is not there. -/
def openLock : HostM Fault Unit := do
  match Path.parent? s.lockFile with
  | some directory => Host.makePath directory
  | none => pure ()
  Host.openFile s.lockFile

end Store

end ImageRecipe
