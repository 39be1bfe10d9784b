import ImageRecipe.Files.Path
import ImageRecipe.Plan.Compile

/-! Where things lie in a store and in a work directory. -/

namespace ImageRecipe

/-- A store of images and build results, known by the path of its root. -/
structure Store where
  root : String
  deriving DecidableEq, Repr

namespace Store

variable (s : Store)

/-- A path in the store. -/
def path (name : String) : String := Path.join (Path.join s.root "store") name

def objects : String := s.path "objects"

def images : String := s.path "images"

def tags : String := s.path "tags"

def cache : String := s.path "cache"

def versionFile : String := s.path "version"

def lockFile : String := s.path ".lock"

end Store

/-- A directory in which an image is built, known by its path. -/
structure WorkDirectory where
  root : String
  deriving DecidableEq, Repr

namespace WorkDirectory

variable (w : WorkDirectory)

/-- A path in the work directory. -/
def path (name : String) : String := Path.join w.root name

def context : String := w.path contextDirectory

/-- The directory whose files make up a layer. -/
def layer (ordinal : Nat) : String := w.path (layerSource ordinal)

def ephemeral : String := w.path ephemeralSource

def packages : String := w.path packagesSource

def repositories : String := w.path repositoriesSource

def buildFile : String := w.path "Dockerfile"

def ignoreFile : String := w.path ".dockerignore"

/-- Where the engine leaves the id of the image that it built. -/
def imageIdFile : String := w.path "image-id"

/-- Where the result of the last build is kept. -/
def resultFile : String := w.path "image-build.json"

end WorkDirectory

end ImageRecipe
