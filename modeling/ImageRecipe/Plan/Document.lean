import ImageRecipe.Plan.Basic
import ImageRecipe.Document.Fields
import ImageRecipe.Json.Printer
import ImageRecipe.Digest.Blake3
import ImageRecipe.Instruction.Document

/-! Plans as documents, and the digest by which plans are told apart. -/

namespace ImageRecipe

namespace Permissions

def toDocument : Permissions → Document
  | preserve => .table [("policy", .text "preserve")]
  | fixed file directory =>
    .table [("policy", .text "fixed"), ("file_mode", .ofNat file), ("dir_mode", .ofNat directory)]

def ofDocument? (nested : Bool) (d : Document) : Option Permissions := do
  let (policy, rest) ← d.tagged? nested "policy" ["preserve", "fixed"]
  if policy = "preserve" then if rest.isBare then some preserve else none
  else
    match ← rest.variantFields? ["file_mode", "dir_mode"] with
    | [file, directory] =>
      let mode := Field.required (Document.nat? Text.limit32)
      pure (fixed (← mode file) (← mode directory))
    | _ => none

end Permissions

namespace Layer

def toDocument (l : Layer) : Document :=
  .table [
    ("ordinal", .ofNat l.ordinal),
    ("source", .text l.source),
    ("destination", .text l.destination),
    ("ownership", .ofOption .text l.owner),
    ("permissions", l.permissions.toDocument)]

def ofDocument? (d : Document) : Option Layer := do
  match ← d.variantFields? ["ordinal", "source", "destination", "ownership", "permissions"] with
  | [ordinal, source, destination, owner, permissions] =>
    let text := Field.required Document.text?
    pure {
      ordinal := ← Field.required (Document.nat? Text.limit32) ordinal
      source := ← text source
      destination := ← text destination
      owner := ← Field.optional Document.text? owner
      permissions := ← Field.required (Permissions.ofDocument? true) permissions }
  | _ => none

end Layer

namespace HealthCheck

def toDocument (h : HealthCheck) : Document :=
  .table [
    ("cmd", .text h.command),
    ("interval", .ofOption .text h.interval),
    ("timeout", .ofOption .text h.timeout),
    ("start_period", .ofOption .text h.startPeriod),
    ("retries", .ofOption .ofNat h.retries)]

def ofDocument? (d : Document) : Option HealthCheck := do
  match ← d.variantFields? fieldNames with
  | [command, interval, timeout, startPeriod, retries] =>
    let text := Field.optional Document.text?
    pure {
      command := ← Field.required Document.text? command
      interval := ← text interval
      timeout := ← text timeout
      startPeriod := ← text startPeriod
      retries := ← Field.optional (Document.nat? Text.limit32) retries }
  | _ => none

end HealthCheck

namespace DirectBase

def toDocument : DirectBase → Document
  | reference r => .table [("type", .text "reference"), ("reference", .text r)]
  | builtImage project tag imageId =>
    .table [
      ("type", .text "built_image"),
      ("project", .text project),
      ("tag", .text tag),
      ("image_id", .text imageId)]

def ofDocument? (nested : Bool) (d : Document) : Option DirectBase := do
  let (type, rest) ← d.tagged? nested "type" ["reference", "built_image"]
  let text := Field.required Document.text?
  if type = "reference" then
    match ← rest.variantFields? ["reference"] with
    | [r] => (text r).map reference
    | _ => none
  else
    match ← rest.variantFields? ["project", "tag", "image_id"] with
    | [project, tag, imageId] => pure (builtImage (← text project) (← text tag) (← text imageId))
    | _ => none

end DirectBase

/-- Pairs of a name and a value as a document. -/
def pairsToDocument (l : List (String × String)) : Document :=
  .list (l.map fun p => .list [.text p.1, .text p.2])

namespace Plan

/-- The fields of a plan beside the one that names its builder. -/
def fields : Plan → List (String × Document)
  | daemon p => [
      ("directives", .ofTexts p.directives),
      ("mounts", .table (p.mounts.entries.map fun e => (e.1, .text e.2)))]
  | direct p => [
      ("base", p.base.toDocument),
      ("layers", .list (p.layers.map Layer.toDocument)),
      ("env", pairsToDocument p.env),
      ("user", .ofOption .text p.user),
      ("healthcheck", .ofOption HealthCheck.toDocument p.healthCheck)]

def toDocument (p : Plan) : Document := .table (("backend", .text p.builder.name) :: p.fields)

def ofDocument? (d : Document) : Option Plan := do
  let (builder, rest) ← d.tagged? false "backend" ["daemon", "direct"]
  if builder = "daemon" then
    match ← rest.variantFields? ["directives", "mounts"] with
    | [directives, mounts] =>
      pure (daemon {
        directives := ← Field.required Document.texts? directives
        mounts := ← Field.required Document.textMap? mounts })
    | _ => none
  else
    match ← rest.variantFields? ["base", "layers", "env", "user", "healthcheck"] with
    | [base, layers, env, user, healthCheck] =>
      pure (direct {
        base := ← Field.required (DirectBase.ofDocument? true) base
        layers := ← Field.required (Document.list? Layer.ofDocument?) layers
        env := ← Field.required (Document.list? Document.textPair?) env
        user := ← Field.optional Document.text? user
        healthCheck := ← Field.optional HealthCheck.ofDocument? healthCheck })
    | _ => none

/-- The compact text by which plans are told apart. -/
def contentText (p : Plan) : String := Json.compact p.toDocument

/-- The digest of a plan's content. -/
def contentHash (p : Plan) : String := Blake3.hexOfText p.contentText

end Plan

end ImageRecipe
