import ImageRecipe.Backoff
import ImageRecipe.Files.Path
import ImageRecipe.Host.Basic
import ImageRecipe.Plan.Compile
import ImageRecipe.Toml.Printer
import ImageRecipe.Toml.Reader

/-! The settings of a user: which engine is used, where the store is, and how pulls are repeated. -/

namespace ImageRecipe

structure Settings where
  /-- The container engine's program. -/
  engine : String := "docker"
  ephemeralTarget : String := "/var/kiln-ephemeral"
  /-- The root of the store, if it is not the usual one. -/
  store : Option String := none
  /-- The least major version of the engine. -/
  minEngineMajor : Nat := 19
  repositoryName : String := "kiln-local"
  pullRetry : Backoff := {}
  deriving DecidableEq, Repr

inductive SettingsError where
  | io (fault : Fault)
  /-- A text that is not the document of settings. -/
  | malformed
  /-- A number that the file format cannot hold. -/
  | unwritable
  deriving DecidableEq, Repr

def SettingsError.message : SettingsError → String
  | io f => "I/O error: " ++ f.message
  | malformed => "config error"
  | unwritable =>
    "configuration error: cannot serialize config: out-of-range value for u64 type"

namespace Settings

def fieldNames : List String :=
  ["engine", "ephemeral_target", "store", "min_engine_major", "repo_name", "pull_retry"]

def toDocument (s : Settings) : Document :=
  .table [
    ("engine", .text s.engine),
    ("ephemeral_target", .text s.ephemeralTarget),
    ("store", .ofOption .text s.store),
    ("min_engine_major", .ofNat s.minEngineMajor),
    ("repo_name", .text s.repositoryName),
    ("pull_retry", s.pullRetry.toDocument)]

/-- The settings of a document, each missing field at its default. -/
def ofDocument? (format : Format) (d : Document) : Option Settings := do
  let standard : Settings := {}
  let text := fun (f : Field) (value : String) => Field.defaulted Document.text? value f
  match ← d.fields? format true fieldNames with
  | [engine, ephemeralTarget, store, minEngineMajor, repositoryName, pullRetry] =>
    pure {
      engine := ← text engine standard.engine
      ephemeralTarget := ← text ephemeralTarget standard.ephemeralTarget
      store := ← Field.omissible Document.text? store
      minEngineMajor :=
        ← Field.defaulted (Document.nat? Text.limit32) standard.minEngineMajor minEngineMajor
      repositoryName := ← text repositoryName standard.repositoryName
      pullRetry := ← Field.defaulted (Backoff.ofDocument? format) standard.pullRetry pullRetry }
  | _ => none

/-- The fields of the settings' text; a store that is not set is left out. -/
def fields (s : Settings) : List (String × Document) :=
  [("engine", .text s.engine), ("ephemeral_target", .text s.ephemeralTarget)] ++
    Document.optionalField "store" .text s.store ++
    [("min_engine_major", .ofNat s.minEngineMajor),
      ("repo_name", .text s.repositoryName),
      ("pull_retry", s.pullRetry.toDocument)]

/-- The settings as a TOML text. There is none for delays beyond the numbers of the format. -/
def render? (s : Settings) : Option String := Toml.render? s.fields

def parse (s : String) : Except SettingsError Settings :=
  match (Toml.parse s).bind (ofDocument? .toml) with
  | some s => .ok s
  | none => .error .malformed

/-- The settings of a file, or the usual ones if there is no file. -/
def load (path : String) : HostM SettingsError Settings := do
  if !(← Host.pathExists path) then return {}
  HostM.ofExcept (parse (← (Host.readText path).failingAs .io))

/-- Write the settings to a file, whose directory is made if it is not there. -/
def save (s : Settings) (path : String) : HostM SettingsError Unit := do
  match Path.parent? path with
  | some directory => (Host.makePath directory).failingAs .io
  | none => pure ()
  match s.render? with
  | some text => (Host.replaceFile path (Text.bytes text)).failingAs .io
  | none => throw .unwritable

/-- The root of the store: as set, or among the user's data. -/
def storeRoot {ε : Type} (s : Settings) : HostM ε String := do
  match s.store with
  | some root => pure root
  | none =>
    match ← Host.readVariable "XDG_DATA_HOME" with
    | some data => pure (Path.join data "kiln")
    | none =>
      match ← Host.readVariable "HOME" with
      | some home => pure (Path.join home ".local/share/kiln")
      | none => pure ".kiln"

/-- The file of the settings among the user's configuration. -/
def defaultPath? {ε : Type} : HostM ε (Option String) := do
  match ← Host.readVariable "XDG_CONFIG_HOME" with
  | some config => pure (some (Path.join config "kiln/config.toml"))
  | none => pure ((← Host.readVariable "HOME").map fun home => Path.join home ".config/kiln/config.toml")

end Settings

end ImageRecipe
