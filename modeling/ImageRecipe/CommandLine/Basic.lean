import ImageRecipe.Build.Basic
import ImageRecipe.CommandLine.Diagnosis
import ImageRecipe.CommandLine.Help

/-! The commands of the command line: what they print and the code that they end with. -/

namespace ImageRecipe.CommandLine

/-- What a command prints and the code that it ends with. -/
structure Report where
  code : Nat := 0
  output : String := ""
  errors : String := ""
  deriving DecidableEq, Repr

/-- The code of a failed build or check. -/
def failureCode : Nat := 1

/-- The code of a mistake in arguments, settings, manifests or lockfiles. -/
def mistakeCode : Nat := 2

/-- The code of a fault of the store. -/
def storeCode : Nat := 3

namespace Report

/-- A line of an error, with the code that goes with it. -/
def ofMessage (code : Nat) (message : String) : Report :=
  { code, errors := "error: " ++ message ++ "\n" }

def ofError (e : BuildError) : Report :=
  let code := if e.isConfiguration then mistakeCode else if e.isStoreFault then storeCode else failureCode
  ofMessage code e.message

def ofStop : Stop → Report
  | .help => { output := helpText }
  | .version => { output := versionLine }
  | .misuse => { code := mistakeCode, errors := misuseText }

/-- A document in the form that people can read. -/
def ofDocument (d : Document) : Report := { output := Json.pretty d ++ "\n" }

/-- Lines of output. -/
def ofLines (l : List String) : Report := { output := String.join (l.map fun s => s ++ "\n") }

end Report

open Workshop

def outcomeDocument (project : String) (o : Outcome) : Document :=
  .table [
    ("builder", .text o.result.builder.documentName),
    ("cached", .bool o.cached),
    ("created_at", .text o.result.createdAt.render),
    ("image_id", .text o.result.imageId),
    ("plan_hash", .text o.planHash),
    ("project", .text project),
    ("tag", .text o.result.tag)]

/-- Build the images of manifests. All manifests are read before anything is built. -/
def build (json : Bool) (manifests : List String) : BuildM Report := do
  let recipes ← manifests.mapM fun path => onHost .manifest (Recipe.load path)
  let outcomes ← Recipe.buildAll recipes
  let built := (recipes.map Recipe.project).zip outcomes
  pure (if json then .ofDocument (.list (built.map fun b => outcomeDocument b.1 b.2))
    else .ofLines (built.map fun b => b.1 ++ ": " ++ b.2.result.tag ++ " " ++ b.2.result.imageId))

def pinDocument (d : Distribution) (p : Pin) : Document :=
  .table [
    ("architecture", .text p.architecture),
    ("name", .text p.name),
    ("release", .text p.release),
    ("rendered", .text (p.render d)),
    ("version", .text p.version)]

/-- Lock the packages of a manifest for architectures, for its own if none are given. -/
def lock (json : Bool) (manifest : String) (architectures : List Architecture) : BuildM Report := do
  let r ← onHost .manifest (Recipe.load manifest)
  let architectures := if architectures.isEmpty then [r.architecture] else architectures
  let l ← r.generateLock architectures
  let pins := (l.pins r.distribution).toList
  pure (if json then .ofDocument (.table [
      ("architectures", .ofTexts (architectures.map Architecture.name)),
      ("distribution", .text r.distribution.name),
      ("lockfile", .text r.lockfile),
      ("pins", .list (pins.map (pinDocument r.distribution)))])
    else .ofLines (pins.map (Pin.render r.distribution) ++ ["wrote " ++ r.lockfile]))

/-- Print the plan of a manifest: the build file, or a document where there is none or one is asked for. -/
def render (json : Bool) (manifest : String) : BuildM Report := do
  let r ← onHost .manifest (Recipe.load manifest)
  let p ← r.plan
  pure (match json, p with
    | false, .daemon d => { output := d.buildFile }
    | _, _ => .ofDocument p.toDocument)

def pull (json : Bool) (k : BackendKind) (reference : String) : BuildM Report := do
  Workshop.pull k reference
  pure (if json then .ofDocument (.table [("reference", .text reference), ("status", .text "pulled")]) else {})

/-- Remove tags. What the backend has to say about one means that it was not there. -/
def clean (json : Bool) (k : BackendKind) (tags : List String) : BuildM Report := do
  let answers ← tags.mapM fun tag => do pure (tag, Text.trim (← Workshop.clean k tag))
  pure (if json then .ofDocument (.list (answers.map fun a => .table [
      ("output", .text a.2),
      ("removed", .bool a.2.isEmpty),
      ("tag", .text a.1)]))
    else
      let (removed, absent) := answers.partition fun a => a.2.isEmpty
      { Report.ofLines (removed.map fun a => "removed " ++ a.1) with
        errors := (Report.ofLines (absent.map Prod.snd)).output })

def images (json : Bool) (k : BackendKind) : BuildM Report := do
  let tags ← Workshop.images k
  pure (if json then .ofDocument (.ofTexts tags) else .ofLines (if tags.isEmpty then ["no images"] else tags))

def doctor (json : Bool) : BuildM Report := do
  let w ← get
  let d ← onHost id (Diagnosis.run w.settings w.store)
  let r : Report := if json then .ofDocument d.toDocument else { output := d.render }
  pure { r with code := if d.isHealthy then 0 else failureCode }

namespace Command

def run (json : Bool) : Command → BuildM Report
  | build manifests => CommandLine.build json manifests
  | lock manifest architectures => CommandLine.lock json manifest architectures
  | render manifest => CommandLine.render json manifest
  | pull reference k => CommandLine.pull json k reference
  | clean tags k => CommandLine.clean json k tags
  | images k => CommandLine.images json k
  | doctor => CommandLine.doctor json
  | completions shell => pure { output := shell.completions }

end Command

/-- A path in which a tilde at the beginning stands for the user's directory. -/
def expandTilde (path : String) : HostM Report String := do
  match Text.dropStart? ['~', '/'] path.toList, ← Host.readVariable "HOME" with
  | some rest, some home => pure (Path.join home (String.ofList rest))
  | _, _ => pure path

/-- The settings of a file, or of the usual file if none is named. -/
def loadSettings (path : Option String) : HostM SettingsError Settings := do
  let usual ← Settings.defaultPath?
  match path <|> usual with
  | some path => Settings.load path
  | none => pure {}

namespace Invocation

/-- The variable by which the user says that prerequisites need no check. -/
def skipVariable : String := "KILN_SKIP_PREREQS"

/-- Fail if the command names the daemon and its engine is not there. -/
def checkPrerequisites (i : Invocation) (s : Settings) : HostM Report Unit := do
  let skipped := (← Host.readVariable skipVariable) == some "1"
  if i.command.backend? = some .daemon && !skipped then
    match ← Prerequisite.missing ⟨s.engine⟩ with
    | [] => pure ()
    | l => throw (.ofMessage failureCode (Prerequisite.notice l))

/-- The workshop of an invocation. -/
def workshop (i : Invocation) : HostM Report Workshop := do
  let settings ← (loadSettings i.config).failingAs fun e => .ofMessage mistakeCode (BuildError.settings e).message
  let root ← match i.store with
    | some path => expandTilde path
    | none => settings.storeRoot
  i.checkPrerequisites settings
  pure { settings, store := ⟨root⟩, host := ← get }

end Invocation

/-- What a program called with arguments does on a host. -/
def run (arguments : List String) (h : Host) : Report × Host :=
  match Invocation.parse arguments with
  | .error s => (.ofStop s, h)
  | .ok i =>
    match i.workshop.run.run h with
    | (.error r, h) => (r, h)
    | (.ok w, _) =>
      match (i.command.run i.json).run.run w with
      | (.ok r, w) => (r, w.host)
      | (.error e, w) => (.ofError e, w.host)

end ImageRecipe.CommandLine
