import ImageRecipe.Plan.Basic

/-! Directives of a build file and their text. -/

namespace ImageRecipe

/-- The reference of a registry image, with its digest when there is one. -/
def imageReference (image version : String) (digest : Option String) : String :=
  match digest with
  | some d => if d.isEmpty then image ++ ":" ++ version else image ++ ":" ++ version ++ "@" ++ d
  | none => image ++ ":" ++ version

inductive Directive where
  | base (image version : String) (digest : Option String)
  | builtBase (project tag : String)
  | copy (layer : Nat) (owner : Option String)
  | run (commands : List String) (mounts : List Mount)
  | user (name : String)
  | env (key value : String)
  | healthCheck (check : HealthCheck)
  | createUser (name : String) (uid : Nat) (group : String) (gid : Nat)
  deriving DecidableEq, Repr

/-- The flag that binds a mount while a command runs. -/
def Mount.flag (m : Mount) : String :=
  "--mount=type=bind," ++ (if m.readOnly then "readonly" else "readwrite") ++ ",target=" ++ m.target ++
    ",source=" ++ m.source

/-- A flag of a health check, or nothing. -/
def flagText (name : String) : Option String → String
  | some v => "--" ++ name ++ "=" ++ v ++ " "
  | none => ""

/-- A character of a quoted value. -/
def escapeEnv (c : Char) : List Char := if c = '\\' || c = '\x22' then ['\\', c] else [c]

/-- Whether a value has to be quoted. -/
def needsQuotes (value : String) : Bool :=
  value.isEmpty || value.toList.any fun c => Text.isBlank c || c = '\x22' || c = '\\'

namespace Directive

/-- Commands that run one after the other, each on a line of its own. -/
def chain (commands : List String) : String := " && \\\n\t".intercalate commands

/-- The text of a directive, which may go over several lines. -/
def render : Directive → String
  | base image version digest => "FROM " ++ imageReference image version digest
  | builtBase project tag => "# " ++ project ++ "\nFROM " ++ tag
  | copy layer owner =>
    match owner with
    | some o =>
      if o.isEmpty then "COPY " ++ layerSource layer ++ " /"
      else "COPY --chown=" ++ o ++ " " ++ layerSource layer ++ " /"
    | none => "COPY " ++ layerSource layer ++ " /"
  | run commands mounts =>
    if mounts.isEmpty then "RUN " ++ chain commands
    else "RUN " ++ " ".intercalate (mounts.map Mount.flag) ++ " \\\n " ++ chain commands
  | user name => "USER " ++ name
  | env key value =>
    if needsQuotes value then
      "ENV " ++ key ++ "=\x22" ++ String.ofList (value.toList.flatMap escapeEnv) ++ "\x22"
    else "ENV " ++ key ++ "=" ++ value
  | healthCheck h =>
    "HEALTHCHECK " ++ flagText "interval" h.interval ++ flagText "timeout" h.timeout ++
      flagText "start-period" h.startPeriod ++ flagText "retries" (h.retries.map Text.decimal) ++ "CMD " ++
      h.command
  | createUser name uid group gid =>
    let uid := Text.decimal uid
    let gid := Text.decimal gid
    "RUN if ! command -v busybox > /dev/null 2>&1; then \\\n" ++
      "\tgroupadd -g " ++ gid ++ " " ++ group ++ " ; \\\n" ++
      "\tuseradd -r -s /bin/false -g " ++ gid ++ " --uid " ++ uid ++ " " ++ name ++ " ; \\\n" ++
      "else \\\n" ++
      "\taddgroup -g " ++ gid ++ " " ++ group ++ " ; \\\n" ++
      "\tadduser -S -s /bin/false -G " ++ group ++ " -H -D -u " ++ uid ++ " " ++ name ++ " ; \\\n" ++
      "fi"

end Directive

end ImageRecipe
