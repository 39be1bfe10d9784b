import ImageRecipe.Sorted.Set
import ImageRecipe.Text.Blank
import ImageRecipe.Text.Number

/-! Build instructions: the steps by which a recipe describes an image. A list of instructions is valid
when its base comes first and nowhere else and no instruction lacks its main part. -/

namespace ImageRecipe

/-- A command that tells whether a container is well, with its timing as the engine spells it. -/
structure HealthCheck where
  command : String
  interval : Option String := none
  timeout : Option String := none
  startPeriod : Option String := none
  retries : Option Nat := none
  deriving DecidableEq, Repr

inductive Instruction where
  /-- Start from an image of a registry. -/
  | base (image version : String) (digest : Option String)
  /-- Start from the image built for another project; tag and id are known once it is built. -/
  | builtBase (project : String) (tag imageId : Option String)
  /-- Copy the files of a layer directory into the image. -/
  | copy (layer : Nat) (owner : Option String)
  | run (commands : List String)
  /-- Install packages at the versions that the lockfile pins. -/
  | install (packages : SortedSet String)
  | createUser (name : String) (uid : Nat) (group : String) (gid : Nat)
  | setUser (name : String)
  | env (key value : String)
  | healthCheck (check : HealthCheck)
  /-- Commands that set up package repositories, left out of isolated builds. -/
  | configureRepositories (commands : List String)
  deriving DecidableEq

inductive InstructionError where
  | empty
  | missingBase (kind : String)
  | multipleBases (index : Nat)
  | invalid (index : Nat) (kind reason : String)
  deriving DecidableEq, Repr

namespace Instruction

/-- The name of an instruction's kind. -/
def kind : Instruction → String
  | base .. => "from"
  | builtBase .. => "from_built_image"
  | copy .. => "copy"
  | run .. => "run"
  | install .. => "install"
  | createUser .. => "create_user"
  | setUser .. => "set_user"
  | env .. => "env"
  | healthCheck .. => "health_check"
  | configureRepositories .. => "repo_config_run"

def isBase : Instruction → Bool
  | base .. | builtBase .. => true
  | _ => false

/-- The project whose image an instruction starts from. -/
def baseProject? : Instruction → Option String
  | builtBase project .. => some project
  | _ => none

/-- What an instruction lacks. -/
def fault? : Instruction → Option String
  | base image _ _ => if Text.isBlankText image then some "base image name is empty" else none
  | run commands | configureRepositories commands =>
    if commands.isEmpty then some "no commands" else none
  | install packages => if packages.isEmpty then some "no packages" else none
  | setUser name => if name.isEmpty then some "username is empty" else none
  | env key _ => if key.isEmpty then some "key is empty" else none
  | healthCheck check => if check.command.isEmpty then some "cmd is empty" else none
  | builtBase .. | copy .. | createUser .. => none

/-- The packages that a list of instructions installs, each once. -/
def requestedPackages (l : List Instruction) : SortedSet String :=
  SortedSet.ofList (l.flatMap fun i => match i with
    | install packages => packages.toList
    | _ => [])

/-- The index of the first base in a list whose first element has a given index. -/
def baseFrom? : Nat → List Instruction → Option Nat
  | _, [] => none
  | n, i :: r => if i.isBase then some n else baseFrom? (n + 1) r

/-- The first instruction that lacks something. -/
def faultFrom? : Nat → List Instruction → Option InstructionError
  | _, [] => none
  | n, i :: r =>
    match i.fault? with
    | some reason => some (.invalid n i.kind reason)
    | none => faultFrom? (n + 1) r

/-- Check a list of instructions; misplaced bases are reported before anything else. -/
def validate : List Instruction → Except InstructionError Unit
  | [] => .error .empty
  | i :: r =>
    if !i.isBase then .error (.missingBase i.kind)
    else
      match baseFrom? 1 r with
      | some index => .error (.multipleBases index)
      | none =>
        match faultFrom? 0 (i :: r) with
        | some e => .error e
        | none => .ok ()

end Instruction

def InstructionError.message : InstructionError → String
  | empty => "instruction list is empty, expected a base image first"
  | missingBase kind => "first instruction must be a base image, found '" ++ kind ++ "'"
  | multipleBases index =>
    "instruction " ++ Text.decimal index ++ " declares a second base image, only one is allowed"
  | invalid index kind reason =>
    "instruction " ++ Text.decimal index ++ " (" ++ kind ++ ") is invalid: " ++ reason

end ImageRecipe
