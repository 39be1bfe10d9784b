import ImageRecipe.Image.Result
import ImageRecipe.Instruction.Basic
import ImageRecipe.Sorted.Map

/-! Build sessions: the images that were built so far in one invocation, by project. Each project has one
image for the whole session, and later images can start from it. -/

namespace ImageRecipe

structure Session where
  results : SortedMap String BuildResult

inductive SessionError where
  | alreadyBuilt (project : String)
  | notBuilt (project : String)
  deriving DecidableEq, Repr

namespace Session

/-- The session in which nothing is built yet. -/
def empty : Session := ⟨SortedMap.empty⟩

/-- The image of a project. -/
def resolve? (s : Session) (project : String) : Option BuildResult := s.results.get? project

/-- The image of a project that must have been built. -/
def require (s : Session) (project : String) : Except SessionError BuildResult :=
  match s.resolve? project with
  | some r => .ok r
  | none => .error (.notBuilt project)

/-- Record the image of a project that has none yet. -/
def register (s : Session) (project : String) (r : BuildResult) : Except SessionError Session :=
  match s.resolve? project with
  | some _ => .error (.alreadyBuilt project)
  | none => .ok ⟨s.results.insert project r⟩

def size (s : Session) : Nat := s.results.size

/-- An instruction with the image of its base project filled in. -/
def resolveBase (s : Session) : Instruction → Except SessionError Instruction
  | .builtBase project _ _ =>
    (s.require project).map fun r => .builtBase project (some r.tag) (some r.imageId)
  | i => .ok i

/-- Instructions with the images of their base projects filled in. -/
def resolveBases (s : Session) (l : List Instruction) : Except SessionError (List Instruction) :=
  l.mapM s.resolveBase

end Session

def SessionError.message : SessionError → String
  | alreadyBuilt project =>
    "project '" ++ project ++ "' already registered a build result in this run"
  | notBuilt project =>
    "no image has been built for project '" ++ project ++
      "' in this run; build it before the images based on it"

end ImageRecipe
