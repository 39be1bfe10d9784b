import ImageRecipe.Backend.Error
import ImageRecipe.Manifest.Basic
import ImageRecipe.Plan.Compile
import ImageRecipe.Settings

/-! Why an image is not built. An error of configuration is one that the user can mend in a manifest, a
lockfile or the settings. -/

namespace ImageRecipe

inductive BuildError where
  | settings (error : SettingsError)
  | manifest (error : ManifestError)
  | compile (error : CompileError)
  | session (error : SessionError)
  | store (error : StoreError)
  | backend (error : BackendError)
  /-- The lock of the store cannot be opened. -/
  | io (fault : Fault)
  deriving DecidableEq, Repr

namespace StoreError

/-- Whether a fault of the store is one of the configuration: there is no work directory, or an owner of
copied files makes no sense. -/
def isConfiguration : StoreError → Bool
  | missingWorkDirectory _ | invalidOwnership _ => true
  | _ => false

/-- What is said when a build ends with the error. -/
def buildMessage : StoreError → String
  | missingWorkDirectory path => "configuration error: work directory '" ++ path ++ "' does not exist"
  | invalidOwnership spec => "configuration error: invalid copy ownership '" ++ spec ++ "'"
  | e => "store error: " ++ e.message

end StoreError

namespace BuildError

def isConfiguration : BuildError → Bool
  | settings (.io _) => false
  | settings _ => true
  | manifest _ => true
  | compile _ => true
  | session (.alreadyBuilt _) => false
  | session (.notBuilt _) => true
  | store e => e.isConfiguration
  | backend (.store e) => e.isConfiguration
  | backend _ => false
  | io _ => false

/-- Whether the store is at fault, and not the configuration. -/
def isStoreFault : BuildError → Bool
  | store e => !e.isConfiguration
  | backend (.store e) => !e.isConfiguration
  | _ => false

def message : BuildError → String
  | settings e => e.message
  | manifest e => "manifest error: " ++ e.message
  | compile e => e.message
  | session e => e.message
  | store e => e.buildMessage
  | backend (.store e) => e.buildMessage
  | backend (.build log) => (BackendError.build log).message
  | backend (.pull reference attempts text) => (BackendError.pull reference attempts text).message
  | backend e => "runtime error: " ++ e.message
  | io f => "I/O error: " ++ f.message

def ofLock (e : LockError) : BuildError := compile (.lock e)

end BuildError

end ImageRecipe
