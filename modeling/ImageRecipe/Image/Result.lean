import ImageRecipe.Plan.Basic
import ImageRecipe.Document.Fields
import ImageRecipe.Time.Reader
import ImageRecipe.Text.Split

/-! The result of a build: the image, its tag, who built it and when. -/

namespace ImageRecipe

/-- The part of an image id that people are shown: the first twelve digits behind the name of the
algorithm, or all of it where it cannot be cut there. -/
def shortImageId (id : String) : String :=
  let cs := id.toList
  let hex := ((Text.cutFirst ':' cs).map Prod.snd).getD cs
  let cut := fun (n : Nat) => String.ofList (hex.take n)
  match (List.range 13).find? fun n => n ≤ hex.length && (cut n).utf8ByteSize = 12 with
  | some n => cut n
  | none => String.ofList hex

structure BuildResult where
  tag : String
  imageId : String
  builder : Builder
  createdAt : Instant
  deriving DecidableEq, Repr

namespace Builder

/-- The builder's name in documents. -/
def documentName : Builder → String
  | daemon => "DAEMON"
  | direct => "DIRECT"

def ofDocument? (d : Document) : Option Builder := do
  match ← d.name? .json with
  | "DAEMON" => some daemon
  | "DIRECT" => some direct
  | _ => none

end Builder

namespace BuildResult

def toDocument (r : BuildResult) : Document :=
  .table [
    ("tag", .text r.tag),
    ("image_id", .text r.imageId),
    ("builder", .text r.builder.documentName),
    ("created_at", .text r.createdAt.render)]

def ofDocument? (d : Document) : Option BuildResult := do
  match ← d.fields? .json false ["tag", "image_id", "builder", "created_at"] with
  | [tag, imageId, builder, createdAt] =>
    pure {
      tag := ← Field.required Document.text? tag
      imageId := ← Field.required Document.text? imageId
      builder := ← Field.required Builder.ofDocument? builder
      createdAt := ← Field.required (fun d => d.text?.bind Instant.parse) createdAt }
  | _ => none

end BuildResult

end ImageRecipe
