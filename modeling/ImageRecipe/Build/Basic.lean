import ImageRecipe.Build.Context
import ImageRecipe.Lockfile.File
import ImageRecipe.Store.Cache

/-! Building images from recipes. The same plan in the same context gives the image of the time before, as
long as its backend still has it. -/

namespace ImageRecipe

/-- What a build came to. -/
structure Outcome where
  result : BuildResult
  planHash : String
  /-- The image was there already. -/
  cached : Bool
  deriving DecidableEq, Repr

namespace Recipe

open Workshop

variable (r : Recipe)

/-- The recipe's instructions with the images of base projects filled in. -/
def resolvedInstructions : BuildM (List Instruction) := do
  ofExcept .session ((← get).session.resolveBases r.instructions)

/-- The reference of the image that instructions start from. -/
def baseOf (instructions : List Instruction) : BuildM String :=
  match Instruction.baseReference? instructions with
  | some reference => pure reference
  | none => throw (.compile .noBase)

/-- The recipe's lockfile; a recipe without one has no pins. -/
def loadLock : BuildM Lockfile := do
  if ← onHost .io (Host.pathExists r.lockfile) then onHost .ofLock (Lockfile.load r.lockfile)
  else pure Lockfile.empty

/-- The target of the recipe. The base image's user is asked for only if it is needed. -/
def target (instructions : List Instruction) : BuildM Target := do
  let user ← if Instruction.needsDefaultUser instructions then do
      let base ← baseOf instructions
      changing r.backend (Backend.defaultUser base)
    else pure "root"
  let settings := (← get).settings
  pure {
    distribution := r.distribution
    architecture := r.architecture
    builder := r.backend.builder
    isolate := r.isolate
    defaultUser := user
    ephemeralTarget := settings.ephemeralTarget
    repositoryName := settings.repositoryName }

/-- The plan of a recipe. -/
def plan : BuildM Plan := do
  let instructions ← r.resolvedInstructions
  let _ ← openBackend r.backend
  let lock ← r.loadLock
  let t ← r.target instructions
  ofExcept .compile (Plan.compile instructions lock t)

/-- Write the definition of the local mirror for builds that use no other. -/
def writeMirror (w : WorkDirectory) : BuildM Unit := do
  if r.isolate && r.backend.builder = .daemon then
    let name := (← get).settings.repositoryName
    let d ← ofExcept (fun e => .compile (.distribution e)) (r.distribution.localRepository name)
    let _ ← onHost .store (w.writeRepository d.fileName d.contents)

/-- The result under a key, if the backend still has its image. Otherwise the key is forgotten. -/
def cached? (key : String) : BuildM (Option BuildResult) := do
  let store := (← get).store
  match ← onHost .store (store.getResult key) with
  | none => pure none
  | some hit =>
    if ← withOpen r.backend (Backend.imageExists hit.imageId) then pure (some hit)
    else
      onHost .store (store.dropResult key)
      pure none

/-- What a build is about to make, once all that it reads has been read. -/
structure Job where
  directory : WorkDirectory
  instructions : List Instruction
  plan : Plan
  /-- The digest of the build's context. -/
  context : String

/-- The key under which the result of a job is remembered. -/
def key (j : Job) : String := cacheKey (j.plan.contentHash ++ ":" ++ j.context) j.plan.builder r.tag

/-- Get the work directory and the store ready, compile the recipe and take the digest of its context. -/
def job : BuildM Job := do
  let w : WorkDirectory := ⟨r.workDirectory⟩
  let store := (← get).store
  onHost .store w.prepare
  onHost .store store.prepare
  let instructions ← r.resolvedInstructions
  let _ ← openBackend r.backend
  let lock ← r.loadLock
  let t ← r.target instructions
  r.writeMirror w
  let p ← ofExcept .compile (Plan.compile instructions lock t)
  let context ← BuildContext.digest w instructions p
  pure ⟨w, instructions, p, context⟩

/-- Let the backend turn the plan of a job into an image. -/
def makeImage (j : Job) : BuildM BuildResult := do
  if (← get).host.cancelled then throw (.backend .cancelled)
  let store := (← get).store
  if j.plan.builder = .direct then onHost .io store.openLock
  changing r.backend (Backend.materialize j.plan j.directory r.tag r.architecture)

/-- Make an image, and note the result in the work directory and in the cache. That the cache cannot be
written is no failure. -/
def materialize (j : Job) : BuildM BuildResult := do
  let result ← r.makeImage j
  onHost .store (j.directory.writeResult result)
  let store := (← get).store
  let _ ← onHost .store (store.putResult (r.key j) result).outcome
  pure result

/-- Build the image of a recipe and record it in the session. -/
def build : BuildM Outcome := do
  let j ← r.job
  match ← r.cached? (r.key j) with
  | some hit =>
    onHost .store (j.directory.writeResult hit)
    register r.project hit
    pure ⟨hit, j.plan.contentHash, true⟩
  | none =>
    let result ← r.materialize j
    register r.project result
    pure ⟨result, j.plan.contentHash, false⟩

/-- Build recipes in order; later ones can start from the images of earlier ones. -/
def buildAll (l : List Recipe) : BuildM (List Outcome) := l.mapM build

/-- Put the pins of packages for an architecture into a lockfile, as the backend finds them in a base. -/
def lockFor (base : String) (packages : List String) (l : Lockfile) (a : Architecture) : BuildM Lockfile := do
  let pins ← withOpen r.backend (Backend.resolvePackages base r.distribution a packages)
  let missing := packages.filter fun n => !pins.any fun p => p.name == n
  if !missing.isEmpty then throw (.ofLock (.unresolved r.distribution a missing))
  match l.replacePartition r.distribution a pins with
  | (l, .ok ()) => pure l
  | (_, .error e) => throw (.ofLock e)

/-- Pin every package of a recipe for architectures and write the lockfile. The pins of other architectures
stay. -/
def generateLock (architectures : List Architecture) : BuildM Lockfile := do
  let instructions ← r.resolvedInstructions
  let base ← baseOf instructions
  let packages := r.requestedPackages
  let lock ← r.loadLock
  let lock ← if packages.isEmpty then pure lock
    else do
      let _ ← openBackend r.backend
      architectures.foldlM (r.lockFor base packages) lock
  onHost .ofLock (lock.save r.lockfile)
  pure lock

end Recipe

end ImageRecipe
