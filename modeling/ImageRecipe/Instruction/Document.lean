import ImageRecipe.Instruction.Basic
import ImageRecipe.Document.Fields

/-! Instructions as documents: a table whose field `kind` names the kind. Optional fields are left out when
they have no value. -/

namespace ImageRecipe

namespace HealthCheck

/-- The fields of a health check in a document, in their order. -/
def fieldNames : List String := ["cmd", "interval", "timeout", "start_period", "retries"]

end HealthCheck

namespace Instruction

/-- The names of all kinds, in the order in which they are numbered. -/
def kinds : List String :=
  ["from", "from_built_image", "copy", "run", "install", "create_user", "set_user", "env",
    "health_check", "repo_config_run"]

/-- The fields that the document of an instruction has beside its kind. -/
def fields : Instruction → List (String × Document)
  | base image version digest =>
    ("image", .text image) :: ("version", .text version) :: Document.optionalField "digest" .text digest
  | builtBase project tag imageId =>
    ("project", .text project) ::
      (Document.optionalField "tag" .text tag ++ Document.optionalField "image_id" .text imageId)
  | copy layer owner =>
    ("layer", .ofNat layer) :: Document.optionalField "owner" .text owner
  | run commands | configureRepositories commands => [("commands", .ofTexts commands)]
  | install packages => [("packages", .ofTexts packages.toList)]
  | createUser name uid group gid =>
    [("username", .text name), ("uid", .ofNat uid), ("group", .text group), ("gid", .ofNat gid)]
  | setUser name => [("username", .text name)]
  | env key value => [("key", .text key), ("value", .text value)]
  | healthCheck check =>
    ("cmd", .text check.command) ::
      (Document.optionalField "interval" .text check.interval ++
        Document.optionalField "timeout" .text check.timeout ++
        Document.optionalField "start_period" .text check.startPeriod ++
        Document.optionalField "retries" .ofNat check.retries)

def toDocument (i : Instruction) : Document := .table (("kind", .text i.kind) :: i.fields)

/-- The instruction of a kind and the document of its fields. -/
def ofKind? (kind : String) (d : Document) : Option Instruction :=
  let read := fun (names : List String) (build : List Field → Option Instruction) =>
    (d.variantFields? names).bind build
  let text := Field.required Document.text?
  let texts := Field.required Document.texts?
  let number := Field.required (Document.nat? Text.limit32)
  let optionalText := Field.omissible Document.text?
  match kind with
  | "from" => read ["image", "version", "digest"] fun
    | [image, version, digest] => do pure (base (← text image) (← text version) (← optionalText digest))
    | _ => none
  | "from_built_image" => read ["project", "tag", "image_id"] fun
    | [project, tag, id] => do pure (builtBase (← text project) (← optionalText tag) (← optionalText id))
    | _ => none
  | "copy" => read ["layer", "owner"] fun
    | [layer, owner] => do pure (copy (← number layer) (← optionalText owner))
    | _ => none
  | "run" => read ["commands"] fun
    | [commands] => (texts commands).map run
    | _ => none
  | "install" => read ["packages"] fun
    | [packages] => (texts packages).map fun l => install (SortedSet.ofList l)
    | _ => none
  | "create_user" => read ["username", "uid", "group", "gid"] fun
    | [name, uid, group, gid] => do
      pure (createUser (← text name) (← number uid) (← text group) (← number gid))
    | _ => none
  | "set_user" => read ["username"] fun
    | [name] => (text name).map setUser
    | _ => none
  | "env" => read ["key", "value"] fun
    | [key, value] => do pure (env (← text key) (← text value))
    | _ => none
  | "health_check" => read HealthCheck.fieldNames fun
    | [command, interval, timeout, startPeriod, retries] => do
      pure (healthCheck {
        command := ← text command
        interval := ← optionalText interval
        timeout := ← optionalText timeout
        startPeriod := ← optionalText startPeriod
        retries := ← Field.omissible (Document.nat? Text.limit32) retries })
    | _ => none
  | "repo_config_run" => read ["commands"] fun
    | [commands] => (texts commands).map configureRepositories
    | _ => none
  | _ => none

def ofDocument? (d : Document) : Option Instruction := do
  let (kind, rest) ← d.tagged? false "kind" kinds
  ofKind? kind rest

def listOfDocument? (d : Document) : Option (List Instruction) := d.list? ofDocument?

def listToDocument (l : List Instruction) : Document := .list (l.map toDocument)

end Instruction

end ImageRecipe
