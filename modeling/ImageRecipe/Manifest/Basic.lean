import ImageRecipe.Instruction.Document
import ImageRecipe.Distribution.Basic
import ImageRecipe.Plan.Basic
import ImageRecipe.Files.Fault
import ImageRecipe.Toml.Reader
import ImageRecipe.Text.Blank

/-! Manifests: the files in which an image is described. -/

namespace ImageRecipe

/-- What a manifest asks to be built with. -/
inductive BackendKind where
  | daemon
  | direct
  /-- A stand-in for the daemon. -/
  | mock
  deriving DecidableEq, Repr

namespace BackendKind

def all : List BackendKind := [.daemon, .direct, .mock]

def name : BackendKind → String
  | daemon => "daemon"
  | direct => "direct"
  | mock => "mock"

def ofName? (s : String) : Option BackendKind := all.find? fun k => k.name == s

/-- The builder whose plans a backend takes. -/
def builder : BackendKind → Builder
  | daemon | mock => .daemon
  | direct => .direct

end BackendKind

/-- The part of a manifest about the image itself. -/
structure ImageSection where
  project : String
  tag : String
  distribution : Distribution
  architecture : Option Architecture
  isolate : Bool
  backend : BackendKind
  lockfile : Option String
  workDirectory : Option String
  deriving DecidableEq, Repr

structure Manifest where
  version : Nat
  image : ImageSection
  instructions : List Instruction
  deriving DecidableEq

inductive ManifestError where
  | io (fault : Fault)
  /-- A text that is not the document of a manifest. -/
  | malformed
  | unsupportedVersion (version : Nat)
  | emptyTag
  | instructions (error : InstructionError)
  deriving DecidableEq, Repr

namespace ImageSection

def fieldNames : List String :=
  ["project", "tag", "distribution", "architecture", "isolate", "backend", "lockfile", "workdir"]

def toDocument (s : ImageSection) : Document :=
  .table [
    ("project", .text s.project),
    ("tag", .text s.tag),
    ("distribution", .text s.distribution.name),
    ("architecture", .ofOption (fun a => .text a.name) s.architecture),
    ("isolate", .bool s.isolate),
    ("backend", .text s.backend.name),
    ("lockfile", .ofOption .text s.lockfile),
    ("workdir", .ofOption .text s.workDirectory)]

def ofDocument? (d : Document) : Option ImageSection := do
  match ← d.fields? .toml true fieldNames with
  | [project, tag, distribution, architecture, isolate, backend, lockfile, workDirectory] =>
    let name := fun {α : Type} (ofName? : String → Option α) (d : Document) =>
      (d.name? .toml).bind ofName?
    pure {
      project := ← Field.required Document.text? project
      tag := ← Field.required Document.text? tag
      distribution := ← Field.required (name Distribution.ofName?) distribution
      architecture := ← Field.omissible (name Architecture.ofName?) architecture
      isolate := ← Field.defaulted Document.bool? false isolate
      backend := ← Field.defaulted (name BackendKind.ofName?) .daemon backend
      lockfile := ← Field.omissible Document.text? lockfile
      workDirectory := ← Field.omissible Document.text? workDirectory }
  | _ => none

end ImageSection

namespace Manifest

def toDocument (m : Manifest) : Document :=
  .table [
    ("manifest_version", .ofNat m.version),
    ("image", m.image.toDocument),
    ("instruction", Instruction.listToDocument m.instructions)]

def ofDocument? (d : Document) : Option Manifest := do
  match ← d.fields? .toml true ["manifest_version", "image", "instruction"] with
  | [version, image, instructions] =>
    pure {
      version := ← Field.required (Document.nat? Text.limit32) version
      image := ← Field.required ImageSection.ofDocument? image
      instructions := ← Field.defaulted Instruction.listOfDocument? [] instructions }
  | _ => none

/-- The manifest of a text. The version is looked at before the tag, and the tag before the
instructions. -/
def parse (s : String) : Except ManifestError Manifest :=
  match (Toml.parse s).bind ofDocument? with
  | none => .error .malformed
  | some m =>
    if m.version ≠ 1 then .error (.unsupportedVersion m.version)
    else if Text.isBlankText m.image.tag then .error .emptyTag
    else
      match Instruction.validate m.instructions with
      | .error e => .error (.instructions e)
      | .ok () => .ok m

end Manifest

def ManifestError.message : ManifestError → String
  | io f => "failed to read manifest file: " ++ f.message
  | malformed => "failed to parse manifest"
  | unsupportedVersion v => "unsupported manifest_version: " ++ Text.decimal v ++ ", expected 1"
  | emptyTag => "image.tag must not be empty"
  | instructions e => "invalid instruction list: " ++ e.message

end ImageRecipe
