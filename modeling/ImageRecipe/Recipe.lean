import ImageRecipe.Manifest.Basic
import ImageRecipe.Host.Basic
import ImageRecipe.Plan.Compile

/-! Recipes: manifests with everything that they leave open settled. -/

namespace ImageRecipe

/-- All that is needed to build one image. -/
structure Recipe where
  project : String
  tag : String
  distribution : Distribution
  architecture : Architecture
  isolate : Bool
  backend : BackendKind
  instructions : List Instruction
  /-- The directory of the layer directories and the generated files. -/
  workDirectory : String
  lockfile : String
  deriving DecidableEq

namespace Recipe

/-- The recipe of a manifest at a path, from whose directory relative paths are taken. An architecture that
the manifest does not name is the `host`'s. -/
def ofManifest (host : Architecture) (m : Manifest) (path : String) : Recipe :=
  let directory := Path.directory path
  { project := m.image.project
    tag := m.image.tag
    distribution := m.image.distribution
    architecture := m.image.architecture.getD host
    isolate := m.image.isolate
    backend := m.image.backend
    instructions := m.instructions
    workDirectory := Path.join directory (m.image.workDirectory.getD ".")
    lockfile := Path.join directory (m.image.lockfile.getD "kiln.lock") }

/-- The recipe of the manifest in a file. -/
def load (path : String) : HostM ManifestError Recipe := do
  let m ← HostM.ofExcept (Manifest.parse (← (Host.readText path).failingAs .io))
  pure (ofManifest (← Host.ownArchitecture) m path)

/-- The packages that a recipe installs, without index files. -/
def requestedPackages (r : Recipe) : List String :=
  Instruction.wantedPackages (Instruction.requestedPackages r.instructions)

end Recipe

end ImageRecipe
