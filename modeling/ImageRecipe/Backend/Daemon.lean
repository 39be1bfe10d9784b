import ImageRecipe.Backend.Error
import ImageRecipe.Backoff
import ImageRecipe.Distribution.Query
import ImageRecipe.Engine.Version
import ImageRecipe.Plan.BuildFile
import ImageRecipe.WorkDirectory

/-! The daemon backend: images are built, pulled and listed by a container engine. -/

namespace ImageRecipe

structure Daemon where
  engine : Engine
  /-- The least major version of the engine. -/
  minMajor : Nat
  pullRetry : Backoff
  /-- The major version of the engine, once it was found to be enough. -/
  checked : Option Nat := none
  deriving DecidableEq, Repr

namespace Daemon

variable (d : Daemon)

def call (directory : Option String) (arguments : List String) : BackendM EngineOutput :=
  (d.engine.call directory arguments).failingAs .ofCall

/-- Ask for the engine's version unless it was found to be enough before. -/
def checkVersion : BackendM (Nat × Daemon) := do
  if let some major := d.checked then return (major, d)
  let o ← d.call none ["version", "--format", "\x7b\x7b.Server.Version\x7d\x7d"]
  if !o.succeeded then throw (.engine (.noVersion (Text.trim o.errors)))
  let found := String.ofList ((Text.trim o.output).toList.filter fun c => c ≠ '\'')
  match majorVersion? found with
  | some major =>
    if major < d.minMajor then throw (.engineVersion found d.minMajor)
    pure (major, { d with checked := some major })
  | none => throw (.engineVersion found d.minMajor)

/-- The user that a base image runs as. -/
def defaultUser (base : String) : BackendM String := do
  let o ← d.call none ["run", "--rm", "--entrypoint", "/bin/sh", base, "-c", "whoami"]
  if !o.succeeded then throw (.engine (.noDefaultUser base (Text.trim o.errors)))
  pure (Text.trim o.output)

/-- Write the files that the engine's build reads, and remove the image id of an earlier build. -/
def writeInputs (p : DaemonPlan) (w : WorkDirectory) : BackendM Unit := do
  (w.writeBuildFile p.buildFile).failingAs .store
  (w.writeIgnoreFile p.ignoreManifest).failingAs .store
  if ← Host.pathExists w.imageIdFile then (Host.remove w.imageIdFile).failingAs .io

/-- The arguments of the call that builds an image. -/
def buildArguments (w : WorkDirectory) (tag : String) (a : Architecture) : List String :=
  ["image", "build", "--platform", a.platform, "--quiet=false", "--no-cache", "--progress=plain",
    Engine.imageIdOption ++ w.imageIdFile, ".", "-t", tag]

/-- Let the engine build an image. The image is the one whose id the engine leaves. -/
def materialize (p : Plan) (w : WorkDirectory) (tag : String) (a : Architecture) : BackendM BuildResult := do
  match p with
  | .direct _ => throw (.planMismatch .daemon p.builder)
  | .daemon p =>
    writeInputs p w
    let o ← d.call (some w.root) (buildArguments w tag a)
    if !o.succeeded then throw (.build o.log)
    let imageId ← w.readImageId.failingAs fun e =>
      .build (o.log ++ "\nengine did not write an image id: " ++ e.message)
    pure ⟨tag, imageId, .daemon, ← Host.now⟩

def imageExists (id : String) : BackendM Bool := do
  pure (← d.call none ["image", "inspect", id]).succeeded

/-- Remove a tag, and give what the engine wrote about it. -/
def remove (tag : String) : BackendM String := do
  pure (← d.call none ["image", "rm", tag]).errors

/-- The tags in the engine's list of images, without images that have none. -/
def tagsOfList (output : String) : List String :=
  let lines := (Text.lines output.toList).map fun l => Text.trimEnd (Text.trimStart l)
  let tagged := lines.filter fun l => !l.isEmpty && !Text.occursIn "<none>".toList l
  (SortedSet.ofList (tagged.map String.ofList)).toList

def images : BackendM (List String) := do
  let o ← d.call none ["image", "ls", "--format", "\x7b\x7b.Repository\x7d\x7d:\x7b\x7b.Tag\x7d\x7d"]
  if !o.succeeded then throw (.engine (.rejected (Text.trim o.errors)))
  pure (tagsOfList o.output)

/-- Pull an image once. -/
def pullOnce (reference : String) : BackendM Unit := do
  let o ← d.call none ["pull", reference]
  if !o.succeeded then throw (.engine (.rejected (Text.trim o.errors)))

/-- Pull an image, again and again if need be. -/
def pull (reference : String) : BackendM Unit := do
  match ← d.pullRetry.retry Host.sleep fun _ => (d.pullOnce reference).outcome with
  | .ok () => pure ()
  | .error .cancelled => throw .cancelled
  | .error e => throw (.pull reference d.pullRetry.limit e.message)

/-- The pins of packages as a base image knows them. -/
def resolvePackages (base : String) (x : Distribution) (a : Architecture) (packages : List String) :
    BackendM (List Pin) := do
  let o ← d.call none ["run", "--rm", "--user", "root", "--platform", a.platform, "--entrypoint", "/bin/sh",
    base, "-c", x.queryCommand packages]
  if !o.succeeded then throw (.engine (.noPackages base (Text.trim o.errors)))
  pure ((x.parseQueryOutput o.output).filter fun p => packages.contains p.name)

end Daemon

end ImageRecipe
