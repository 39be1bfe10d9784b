import ImageRecipe.Backend.Error
import ImageRecipe.Plan.BuildFile
import ImageRecipe.Plan.Document
import ImageRecipe.WorkDirectory

/-! The mock backend: it takes the plans of a container engine's daemon and writes the same files, but its
images are only names, made from what they would hold. It remembers what it was asked. -/

namespace ImageRecipe

structure Mock where
  /-- The user that every base image runs as. -/
  user : String := "root"
  /-- The id that each tag leads to. -/
  images : SortedMap String String := SortedMap.empty
  /-- The plans that were materialized, the last first. -/
  materialized : List Plan := []
  /-- The base images whose user was asked for, the last first. -/
  probes : List String := []

namespace Mock

variable (m : Mock)

/-- The text that an image id is the digest of. -/
def imageIdText (p : Plan) (a : Architecture) : String := p.contentHash ++ ":" ++ a.name

/-- The id of the image of a plan on an architecture. -/
def imageId (p : Plan) (a : Architecture) : String := "sha256:" ++ Blake3.hexOfText (imageIdText p a)

def defaultUser (base : String) : String × Mock := (m.user, { m with probes := base :: m.probes })

def materialize (p : Plan) (w : WorkDirectory) (tag : String) (a : Architecture) :
    BackendM (BuildResult × Mock) := do
  match p with
  | .direct _ => throw (.planMismatch .daemon p.builder)
  | .daemon plan =>
    (w.writeBuildFile plan.buildFile).failingAs .store
    (w.writeIgnoreFile plan.ignoreManifest).failingAs .store
    let id := imageId p a
    let m := { m with images := m.images.insert tag id, materialized := p :: m.materialized }
    pure (⟨tag, id, .daemon, ← Host.now⟩, m)

def imageExists (id : String) : Bool := m.images.values.contains id

/-- Remove a tag, and say so if there was none. -/
def remove (tag : String) : String × Mock :=
  match m.images.get? tag with
  | some _ => ("", { m with images := m.images.erase tag })
  | none => ("Error: No such image: " ++ tag ++ "\n", m)

/-- Every package has one version. -/
def resolvePackages (x : Distribution) (a : Architecture) (packages : List String) : List Pin :=
  packages.map fun name => ⟨name, "1.0.0", "mock", a.packageName x.packageManager⟩

end Mock

end ImageRecipe
