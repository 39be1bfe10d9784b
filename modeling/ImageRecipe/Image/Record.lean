import ImageRecipe.Plan.Document

/-! Records of directly built images. The id of an image is the digest of its record, so that equal
contents have equal ids. -/

namespace ImageRecipe

structure LayerRecord where
  ordinal : Nat
  /-- The digest of the layer's archive. -/
  digest : String
  size : Nat
  destination : String
  deriving DecidableEq, Repr

structure ImageRecord where
  base : DirectBase
  layers : List LayerRecord
  env : List (String × String)
  user : Option String
  healthCheck : Option HealthCheck
  deriving DecidableEq, Repr

namespace LayerRecord

def toDocument (l : LayerRecord) : Document :=
  .table [
    ("ordinal", .ofNat l.ordinal),
    ("digest", .text l.digest),
    ("size", .ofNat l.size),
    ("destination", .text l.destination)]

def ofDocument? (d : Document) : Option LayerRecord := do
  match ← d.fields? .json false ["ordinal", "digest", "size", "destination"] with
  | [ordinal, digest, size, destination] =>
    pure {
      ordinal := ← Field.required (Document.nat? Text.limit32) ordinal
      digest := ← Field.required Document.text? digest
      size := ← Field.required (Document.nat? Text.limit64) size
      destination := ← Field.required Document.text? destination }
  | _ => none

end LayerRecord

namespace ImageRecord

def toDocument (r : ImageRecord) : Document :=
  .table [
    ("base", r.base.toDocument),
    ("layers", .list (r.layers.map LayerRecord.toDocument)),
    ("env", pairsToDocument r.env),
    ("user", .ofOption .text r.user),
    ("healthcheck", .ofOption HealthCheck.toDocument r.healthCheck)]

def ofDocument? (d : Document) : Option ImageRecord := do
  match ← d.fields? .json false ["base", "layers", "env", "user", "healthcheck"] with
  | [base, layers, env, user, healthCheck] =>
    pure {
      base := ← Field.required (DirectBase.ofDocument? false) base
      layers := ← Field.required (Document.list? LayerRecord.ofDocument?) layers
      env := ← Field.required (Document.list? Document.textPair?) env
      user := ← Field.optional Document.text? user
      healthCheck := ← Field.optional HealthCheck.ofDocument? healthCheck }
  | _ => none

/-- What image ids begin with. -/
def idAlgorithm : String := "blake3:"

/-- The compact text by which records are told apart. -/
def contentText (r : ImageRecord) : String := Json.compact r.toDocument

/-- The id of the image that a record describes. -/
def id (r : ImageRecord) : String := idAlgorithm ++ Blake3.hexOfText r.contentText

end ImageRecord

end ImageRecipe
