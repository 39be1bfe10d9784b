import ImageRecipe.Build.Workshop
import ImageRecipe.Engine.Prerequisite

/-! Checks of the container engine and of the store. A store that does not exist yet is no fault. -/

namespace ImageRecipe

inductive CheckStatus where
  | pass
  | fail
  | warn
  | info
  deriving DecidableEq, Repr

namespace CheckStatus

def name : CheckStatus → String
  | pass => "pass"
  | fail => "fail"
  | warn => "warn"
  | info => "info"

/-- The mark that stands before a check. -/
def mark : CheckStatus → String
  | pass => "✓"
  | fail => "✗"
  | warn => "⚠"
  | info => "ℹ"

end CheckStatus

/-- What a check of something found. -/
structure Check where
  name : String
  status : CheckStatus
  message : String
  deriving DecidableEq, Repr

namespace Check

def toDocument (c : Check) : Document :=
  .table [
    ("message", .text c.message),
    ("name", .text c.name),
    ("status", .text c.status.name)]

def line (c : Check) : String := "  " ++ c.status.mark ++ " " ++ c.message ++ "\n"

end Check

/-- All checks in the order in which they are made. -/
structure Diagnosis where
  checks : List Check
  deriving DecidableEq, Repr

namespace Diagnosis

def isHealthy (d : Diagnosis) : Bool := d.checks.all fun c => c.status ≠ .fail

def toDocument (d : Diagnosis) : Document :=
  .table [("checks", .list (d.checks.map Check.toDocument)), ("healthy", .bool d.isHealthy)]

def render (d : Diagnosis) : String :=
  "kiln doctor\n\n" ++ String.join (d.checks.map Check.line) ++ "\n" ++
    (if d.isHealthy then "All checks passed.\n" else "Some checks failed. See above for details.\n")

variable {ε : Type}

/-- Check that the engine is there, and then its version. -/
def ofEngine (s : Settings) : HostM ε (List Check) := do
  match ← Prerequisite.missing ⟨s.engine⟩ with
  | p :: r => pure [⟨"engine_prereqs", .fail, Prerequisite.notice (p :: r)⟩]
  | [] =>
    let found : Check := ⟨"engine_prereqs", .pass, "Container engine '" ++ s.engine ++ "' found"⟩
    let d : Daemon := { engine := ⟨s.engine⟩, minMajor := s.minEngineMajor, pullRetry := s.pullRetry }
    match ← d.checkVersion.outcome with
    | .ok (major, _) =>
      pure [found, ⟨"engine_version", .pass, "Engine server major version " ++ Text.decimal major ++
        " (minimum " ++ Text.decimal s.minEngineMajor ++ ")"⟩]
    | .error e => pure [found, ⟨"engine_version", .fail, e.message⟩]

/-- How many things of a kind are listed, which is no reason to fail. -/
def counted {α : Type} (name what failure : String) (l : StoreM (List α)) : HostM ε Check := do
  match ← l.outcome with
  | .ok l => pure ⟨name, .info, Text.decimal l.length ++ " " ++ what⟩
  | .error e => pure ⟨name, .warn, failure ++ e.message⟩

/-- Check that a store has the right format and that its lock can be taken. -/
def ofStore (s : Store) : HostM ε (List Check) := do
  if !(← s.isInitialized) then
    return [⟨"store_exists", .info, "Store not initialized (will be created on first build)"⟩]
  let version ← match ← s.verifyVersion.outcome with
    | .ok () => pure ⟨"store_version", .pass, "Store format version valid"⟩
    | .error e => pure ⟨"store_version", .fail, "Store version check failed: " ++ e.message⟩
  let objects ← counted "objects" "layer objects stored" "Cannot list objects: " s.listObjects
  let images ← counted "images" "direct images tagged" "Cannot list images: " s.listTags
  let lock ← match ← s.openLock.outcome with
    | .ok () => pure ⟨"store_lock", .pass, "Store lock is free"⟩
    | .error f => pure ⟨"store_lock", .fail, "Cannot check store lock: " ++ (BuildError.io f).message⟩
  pure [⟨"store_exists", .pass, "Store directory exists"⟩, version, objects, images, lock]

def run (settings : Settings) (s : Store) : HostM ε Diagnosis := do
  let engine ← ofEngine settings
  let store ← ofStore s
  pure ⟨engine ++ store⟩

end Diagnosis

end ImageRecipe
