import ImageRecipe.Backend.Daemon
import ImageRecipe.Backend.Direct
import ImageRecipe.Backend.Mock
import ImageRecipe.Manifest.Basic
import ImageRecipe.Settings

/-! Backends: the ways of turning a plan into an image. A backend takes plans as they are and never adds a
step or changes their order. -/

namespace ImageRecipe

inductive Backend where
  | daemon (daemon : Daemon)
  | direct (store : Store)
  | mock (mock : Mock)

namespace Backend

/-- The backend of a kind as it is at first. -/
def ofSettings (s : Settings) (store : Store) : BackendKind → Backend
  | .daemon => daemon { engine := ⟨s.engine⟩, minMajor := s.minEngineMajor, pullRetry := s.pullRetry }
  | .direct => direct store
  | .mock => mock {}

def kind : Backend → BackendKind
  | daemon _ => .daemon
  | direct _ => .direct
  | mock _ => .mock

/-- The builder whose plans the backend takes. -/
def builder (b : Backend) : Builder := b.kind.builder

def isAvailable {ε : Type} : Backend → HostM ε Bool
  | daemon d => d.engine.isAvailable
  | _ => pure true

/-- The backend of a kind, if this host has it. -/
def select (s : Settings) (store : Store) (k : BackendKind) : BackendM Backend := do
  let b := ofSettings s store k
  if !(← b.isAvailable) then throw (.unavailable k.name)
  pure b

/-- Check once what must hold before anything is built. -/
def preflight : Backend → BackendM Backend
  | daemon d => do
    let (_, d) ← d.checkVersion
    pure (daemon d)
  | b => pure b

/-- The user that a base image runs as. The direct backend never looks into an image. -/
def defaultUser (base : String) : Backend → BackendM (String × Backend)
  | daemon d => do pure (← d.defaultUser base, daemon d)
  | direct s => pure ("root", direct s)
  | mock m =>
    let (user, m) := m.defaultUser base
    pure (user, mock m)

/-- Turn a plan into an image with a tag. -/
def materialize (p : Plan) (w : WorkDirectory) (tag : String) (a : Architecture) :
    Backend → BackendM (BuildResult × Backend)
  | daemon d => do pure (← d.materialize p w tag a, daemon d)
  | direct s => do pure (← Direct.materialize s p w tag, direct s)
  | mock m => do
    let (r, m) ← m.materialize p w tag a
    pure (r, mock m)

def imageExists (id : String) : Backend → BackendM Bool
  | daemon d => d.imageExists id
  | direct s => s.imageExists id
  | mock m => pure (m.imageExists id)

/-- Remove a tag. That there is none is no failure; the answer tells of it. -/
def remove (tag : String) : Backend → BackendM (String × Backend)
  | daemon d => do pure (← d.remove tag, daemon d)
  | direct s => do pure (← Direct.remove s tag, direct s)
  | mock m =>
    let (answer, m) := m.remove tag
    pure (answer, mock m)

/-- All tags, sorted. -/
def images : Backend → BackendM (List String)
  | daemon d => d.images
  | direct s => Direct.images s
  | mock m => pure m.images.keys

def pull (reference : String) : Backend → BackendM Unit
  | daemon d => d.pull reference
  | direct _ => throw (.unsupported .direct ("pull '" ++ reference ++ "'"))
  | mock _ => pure ()

/-- The pins of packages as a base image knows them. -/
def resolvePackages (base : String) (x : Distribution) (a : Architecture) (packages : List String) :
    Backend → BackendM (List Pin)
  | daemon d => d.resolvePackages base x a packages
  | direct _ => throw (.unsupported .direct ("resolve packages in '" ++ base ++ "'"))
  | mock _ => pure (Mock.resolvePackages x a packages)

end Backend

end ImageRecipe
