import ImageRecipe.Instruction.Basic
import ImageRecipe.Sorted.Map

/-! Build plans: what a recipe comes to, either a build file for a container engine or a list of layers to
be packed. -/

namespace ImageRecipe

/-- Who turns a plan into an image: a container engine's daemon, or this program itself. -/
inductive Builder where
  | daemon
  | direct
  deriving DecidableEq, Repr

def Builder.name : Builder → String
  | daemon => "daemon"
  | direct => "direct"

/-- The directory of the layer directories in a work directory. -/
def contextDirectory : String := "context"

/-- The directory of a layer relative to the work directory. -/
def layerSource (layer : Nat) : String := contextDirectory ++ "/layer" ++ Text.decimal layer

/-- A directory or file that is bound into the image while a command runs. -/
structure Mount where
  name : String
  /-- Relative to the work directory. -/
  source : String
  target : String
  readOnly : Bool
  deriving DecidableEq, Repr

structure DaemonPlan where
  directives : List String
  /-- The source of each mount by the mount's name. -/
  mounts : SortedMap String String
  deriving DecidableEq

/-- The modes that files get when a layer is packed. -/
inductive Permissions where
  | preserve
  | fixed (file directory : Nat)
  deriving DecidableEq, Repr

structure Layer where
  ordinal : Nat
  /-- Relative to the work directory. -/
  source : String
  destination : String
  owner : Option String
  permissions : Permissions
  deriving DecidableEq, Repr

/-- What a directly built image starts from. -/
inductive DirectBase where
  | reference (reference : String)
  | builtImage (project tag imageId : String)
  deriving DecidableEq, Repr

structure DirectPlan where
  base : DirectBase
  layers : List Layer
  env : List (String × String)
  user : Option String
  healthCheck : Option HealthCheck
  deriving DecidableEq, Repr

inductive Plan where
  | daemon (plan : DaemonPlan)
  | direct (plan : DirectPlan)
  deriving DecidableEq

/-- The builder that a plan is for. -/
def Plan.builder : Plan → Builder
  | daemon _ => .daemon
  | direct _ => .direct

end ImageRecipe
