import ImageRecipe.Engine.Call
import ImageRecipe.Plan.Basic
import ImageRecipe.Store.Error

/-! What can go wrong with a backend. -/

namespace ImageRecipe

/-- Why a command of the engine failed. `errors` is what the engine wrote about it. -/
inductive EngineFailure where
  | notStarted (program : String) (fault : Fault)
  | noVersion (errors : String)
  | noDefaultUser (base errors : String)
  | noPackages (base errors : String)
  | rejected (errors : String)
  deriving DecidableEq, Repr

def EngineFailure.message : EngineFailure → String
  | notStarted program f => "failed to start '" ++ program ++ "': " ++ f.message
  | noVersion errors => "could not query engine version: " ++ errors
  | noDefaultUser base errors => "could not determine default user of " ++ base ++ ": " ++ errors
  | noPackages base errors => "package query in " ++ base ++ " failed: " ++ errors
  | rejected errors => errors

inductive BackendError where
  | io (fault : Fault)
  | store (error : StoreError)
  | unavailable (name : String)
  | engine (failure : EngineFailure)
  /-- The engine could not build an image; what it wrote tells why. -/
  | build (log : String)
  /-- A pull failed as often as it may be attempted. -/
  | pull (reference : String) (attempts : Nat) (message : String)
  | engineVersion (found : String) (least : Nat)
  | unsupported (builder : Builder) (operation : String)
  | planMismatch (builder plan : Builder)
  | cancelled
  deriving DecidableEq, Repr

namespace BackendError

def message : BackendError → String
  | io f => "runtime I/O error: " ++ f.message
  | store e => "store error: " ++ e.message
  | unavailable name => "backend '" ++ name ++ "' is not available on this system"
  | engine f => "engine command failed: " ++ f.message
  | build log => "image build failed, engine output follows:\n" ++ log
  | pull reference attempts message =>
    "pulling '" ++ reference ++ "' failed after " ++ Text.decimal attempts ++ " attempts: " ++ message
  | engineVersion found least =>
    "container engine server version " ++ found ++ " is too old, at least " ++ Text.decimal least ++
      " is required"
  | unsupported builder operation => builder.name ++ " backend cannot " ++ operation
  | planMismatch builder plan => builder.name ++ " backend received a " ++ plan.name ++ " build plan"
  | cancelled => "engine invocation cancelled"

def ofCall : CallError → BackendError
  | .notStarted program f => engine (.notStarted program f)
  | .cancelled => cancelled

end BackendError

/-- Actions of backends. -/
abbrev BackendM := HostM BackendError

end ImageRecipe
