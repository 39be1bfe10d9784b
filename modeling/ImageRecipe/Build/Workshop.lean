import ImageRecipe.Backend.Basic
import ImageRecipe.Build.Error
import ImageRecipe.Recipe

/-! Workshops: the host, the settings and the store that images are built with, the backends that are open,
and the session of this invocation. -/

namespace ImageRecipe

structure Workshop where
  settings : Settings
  store : Store
  host : Host
  /-- The backends that were opened so far, at most one of each kind. -/
  backends : List Backend := []
  session : Session := Session.empty

/-- Actions in a workshop that may fail; what they did before they failed stays done. -/
abbrev BuildM := ExceptT BuildError (StateM Workshop)

namespace Workshop

variable {ε α : Type}

/-- The open backend of a kind. -/
def backend? (w : Workshop) (k : BackendKind) : Option Backend := w.backends.find? fun b => b.kind = k

/-- Put a backend in the place of the one of its kind. -/
def withBackend (w : Workshop) (b : Backend) : Workshop :=
  { w with backends := b :: w.backends.filter fun c => c.kind ≠ b.kind }

/-- An action on the host. -/
def onHost (wrap : ε → BuildError) (x : HostM ε α) : BuildM α := do
  let w ← get
  let (r, host) := x.run.run w.host
  set { w with host }
  match r with
  | .ok a => pure a
  | .error e => throw (wrap e)

def ofExcept (wrap : ε → BuildError) (x : Except ε α) : BuildM α :=
  match x with
  | .ok a => pure a
  | .error e => throw (wrap e)

/-- The backend of a kind. It is selected and checked the first time that it is asked for. -/
def openBackend (k : BackendKind) : BuildM Backend := do
  let w ← get
  match w.backend? k with
  | some b => pure b
  | none =>
    let b ← onHost .backend do
      let b ← Backend.select w.settings w.store k
      b.preflight
    modify fun w => w.withBackend b
    pure b

/-- An action of the backend of a kind. -/
def withOpen (k : BackendKind) (x : Backend → BackendM α) : BuildM α := do
  let b ← openBackend k
  onHost .backend (x b)

/-- An action that may change the backend of a kind. -/
def changing (k : BackendKind) (x : Backend → BackendM (α × Backend)) : BuildM α := do
  let (a, b) ← withOpen k x
  modify fun w => w.withBackend b
  pure a

/-- Record the image of a project in the session. -/
def register (project : String) (r : BuildResult) : BuildM Unit := do
  let w ← get
  let session ← ofExcept .session (w.session.register project r)
  set { w with session }

def pull (k : BackendKind) (reference : String) : BuildM Unit := withOpen k (Backend.pull reference)

/-- Remove a tag, and give what the backend says about it. -/
def clean (k : BackendKind) (tag : String) : BuildM String := changing k (Backend.remove tag)

def images (k : BackendKind) : BuildM (List String) := withOpen k Backend.images

end Workshop

end ImageRecipe
