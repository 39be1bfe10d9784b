import ImageRecipe.Plan.Directive
import ImageRecipe.Session
import ImageRecipe.Lockfile.Basic
import ImageRecipe.Distribution.Install
import ImageRecipe.Text.Split

/-! From instructions to a plan. For the daemon every instruction becomes directives of a build file; the
direct builder can only copy layers and set an image's metadata. -/

namespace ImageRecipe

/-- What an image is built for and how. -/
structure Target where
  distribution : Distribution
  architecture : Architecture
  builder : Builder
  /-- Install from the local mirror alone. -/
  isolate : Bool := false
  /-- The user that the base image runs as. -/
  defaultUser : String := "root"
  /-- Where the engine's own files are mounted. -/
  ephemeralTarget : String := "/var/kiln-ephemeral"
  /-- The name of the local mirror. -/
  repositoryName : String := "kiln-local"
  deriving DecidableEq, Repr

inductive CompileError where
  | instruction (error : InstructionError)
  | unresolvedBase (project : String)
  | lock (error : LockError)
  | distribution (error : DistributionError)
  /-- An instruction runs commands, which the direct builder cannot do. -/
  | cannotExecute (index : Nat) (kind : String)
  | noBase
  deriving DecidableEq, Repr

/-- The directories under the work directory that are mounted while commands run. -/
def ephemeralSource : String := "ephemeral/docker"

def packagesSource : String := "ephemeral/packages"

def repositoriesSource : String := "ephemeral/repos"

namespace Instruction

/-- The reference of the image that a list of instructions starts from, if it is known. -/
def baseReference? : List Instruction → Option String
  | base image version digest :: _ => some (imageReference image version digest)
  | builtBase _ tag _ :: _ => tag
  | _ => none

/-- Whether packages are installed before a user is set, so that the base image's own user has to be
restored. -/
def needsDefaultUser : List Instruction → Bool
  | [] => false
  | setUser _ :: _ => false
  | install _ :: _ => true
  | _ :: r => needsDefaultUser r

/-- The packages of an install that are to be found in the lockfile; index files need no pin. -/
def wantedPackages (packages : SortedSet String) : List String :=
  packages.toList.filter fun p => !Text.occursIn metaMarker.toList p.toList

end Instruction

namespace Target

/-- The mounts that every command of a daemon build sees. -/
def mounts (t : Target) : Except DistributionError (List Mount) :=
  let ephemeral : Mount := ⟨"docker", ephemeralSource, t.ephemeralTarget, true⟩
  if t.isolate then do
    let repository ← t.distribution.localRepository t.repositoryName
    let source :=
      if repository.wholeDirectory then repositoriesSource
      else repositoriesSource ++ "/" ++ repository.fileName
    pure [
      ephemeral,
      ⟨"repos", source, repository.target, true⟩,
      ⟨"packages", packagesSource, packagesTarget, false⟩]
  else .ok [ephemeral]

/-- The commands of an install, unless only index files are asked for. -/
def installCommands (t : Target) (l : Lockfile) (packages : SortedSet String) :
    Except CompileError (Option (List String)) :=
  match Instruction.wantedPackages packages with
  | [] => .ok none
  | wanted => do
    let pins ← (l.pinsFor wanted t.distribution t.architecture).mapError .lock
    let install := t.distribution.installCommand (pins.map (Pin.render t.distribution))
    let commands ← (t.distribution.wrapInstall t.isolate install).mapError .distribution
    pure (some commands)

/-- The directives of an instruction under a user, and the user after it. -/
def directives (t : Target) (l : Lockfile) (mounts : List Mount) (user : String) :
    Instruction → Except CompileError (List Directive × String)
  | .base image version digest => .ok ([.base image version digest], user)
  | .builtBase project none _ => .error (.unresolvedBase project)
  | .builtBase project (some tag) _ => .ok ([.builtBase project tag], user)
  | .copy layer owner => .ok ([.copy layer owner], user)
  | .run commands => .ok ([.run commands mounts], user)
  | .install packages => do
    match ← t.installCommands l packages with
    | none => pure ([], user)
    | some commands => pure ([.user "root", .run commands mounts, .user user], user)
  | .createUser name uid group gid => .ok ([.createUser name uid group gid], user)
  | .setUser name => .ok ([.user name], name)
  | .env key value => .ok ([.env key value], user)
  | .healthCheck check => .ok ([.healthCheck check], user)
  | .configureRepositories commands =>
    .ok (if t.isolate then [] else [.run commands []], user)

/-- The directives of instructions, the first of them under a user. -/
def directivesFrom (t : Target) (l : Lockfile) (mounts : List Mount) :
    String → List Instruction → Except CompileError (List Directive)
  | _, [] => .ok []
  | user, i :: r => do
    let (here, user) ← t.directives l mounts user i
    let rest ← t.directivesFrom l mounts user r
    pure (here ++ rest)

/-- The plan of a daemon build. -/
def daemonPlan (t : Target) (l : Lockfile) (instructions : List Instruction) :
    Except CompileError DaemonPlan := do
  let mounts ← t.mounts.mapError .distribution
  let directives ← t.directivesFrom l mounts t.defaultUser instructions
  pure {
    directives := directives.map Directive.render
    mounts := SortedMap.ofList (mounts.map fun m => (m.name, m.source)) }

end Target

/-- A direct plan while its instructions are gone through. -/
structure DirectDraft where
  base : Option DirectBase := none
  layers : List Layer := []
  env : List (String × String) := []
  user : Option String := none
  healthCheck : Option HealthCheck := none

namespace DirectDraft

/-- Take in an instruction, given its index. -/
def add (isolate : Bool) (index : Nat) (d : DirectDraft) :
    Instruction → Except CompileError DirectDraft
  | .base image version digest =>
    .ok { d with base := some (.reference (imageReference image version digest)) }
  | .builtBase project (some tag) (some imageId) =>
    .ok { d with base := some (.builtImage project tag imageId) }
  | .builtBase project _ _ => .error (.unresolvedBase project)
  | .copy layer owner =>
    .ok { d with layers := d.layers ++ [⟨layer, layerSource layer, "/", owner, .preserve⟩] }
  | .setUser name => .ok { d with user := some name }
  | .env key value => .ok { d with env := d.env ++ [(key, value)] }
  | .healthCheck check => .ok { d with healthCheck := some check }
  | .configureRepositories commands =>
    if isolate then .ok d
    else .error (.cannotExecute index (Instruction.configureRepositories commands).kind)
  | i => .error (.cannotExecute index i.kind)

/-- Take in instructions, the first of them at an index. -/
def addFrom (isolate : Bool) : Nat → DirectDraft → List Instruction → Except CompileError DirectDraft
  | _, d, [] => .ok d
  | n, d, i :: r => do
    let d ← d.add isolate n i
    addFrom isolate (n + 1) d r

end DirectDraft

/-- The plan of a direct build. -/
def Target.directPlan (t : Target) (instructions : List Instruction) : Except CompileError DirectPlan := do
  let d ← DirectDraft.addFrom t.isolate 0 {} instructions
  match d.base with
  | none => .error .noBase
  | some base => pure ⟨base, d.layers, d.env, d.user, d.healthCheck⟩

namespace Plan

/-- The plan that instructions come to. The base projects must have been filled in, and packages are
installed at the versions of the lockfile alone. -/
def compile (instructions : List Instruction) (l : Lockfile) (t : Target) : Except CompileError Plan := do
  (Instruction.validate instructions).mapError CompileError.instruction
  match t.builder with
  | .daemon => (t.daemonPlan l instructions).map Plan.daemon
  | .direct => (t.directPlan instructions).map Plan.direct

end Plan

namespace CompileError

/-- What has no lockfile pin, and what to do about it. -/
def unresolvedText (d : Distribution) (a : Architecture) (packages : List String) : String :=
  "no lockfile pin for " ++ LockError.noun packages ++ " on " ++ d.name ++ "/" ++ a.name ++ ": " ++
    ", ".intercalate packages ++ ". Regenerate the lockfile with 'kiln lock'."

def message : CompileError → String
  | instruction e => "instruction error: " ++ e.message
  | unresolvedBase project => (SessionError.notBuilt project).message
  | lock (.unresolved d a packages) => unresolvedText d a packages
  | lock e => "lock error: " ++ e.message
  | distribution e => "configuration error: " ++ e.message
  | cannotExecute index kind =>
    "configuration error: instruction " ++ Text.decimal index ++ " (" ++ kind ++
      ") runs commands inside the image, which the direct backend cannot do; use the daemon backend"
  | noBase => "configuration error: instruction list has no base image reference"

end CompileError

end ImageRecipe
