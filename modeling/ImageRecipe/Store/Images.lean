import ImageRecipe.Store.Basic
import ImageRecipe.Store.Objects
import ImageRecipe.Image.Record

/-! Images: records that are kept by their ids, and tags that lead to ids. -/

namespace ImageRecipe

/-- A tag and the image that it leads to. -/
structure TagEntry where
  tag : String
  imageId : String
  deriving DecidableEq, Repr

namespace TagEntry

def toDocument (e : TagEntry) : Document := .table [("tag", .text e.tag), ("image_id", .text e.imageId)]

/-- The form of the documents of tags. -/
def form : Json.Form := ⟨"TagEntry", [("tag", .text), ("image_id", .text)]⟩

def ofDocument? (d : Document) : Option TagEntry := do
  match ← d.fields? .json false ["tag", "image_id"] with
  | [tag, imageId] =>
    pure ⟨← Field.required Document.text? tag, ← Field.required Document.text? imageId⟩
  | _ => none

end TagEntry

namespace Store

variable (s : Store)

/-- Where the record of an id lies. -/
def recordPath (id : String) : String :=
  let hex := ((Text.dropStart? ImageRecord.idAlgorithm.toList id.toList).map String.ofList).getD id
  Path.join s.images (hex ++ ".json")

/-- Where a tag lies: under the digest of its name, so that any name will do. -/
def tagPath (tag : String) : String := Path.join s.tags (Blake3.hexOfText tag)

/-- Keep a record and let a tag lead to it, wherever the tag led before. -/
def putImage (r : ImageRecord) (tag : String) : StoreM String := do
  let path := s.recordPath r.id
  if !(← Host.pathExists path) then writeDocument path r.toDocument
  writeDocument (s.tagPath tag) (TagEntry.toDocument ⟨tag, r.id⟩)
  pure r.id

/-- The record of an id. -/
def getImage (id : String) : StoreM ImageRecord := do
  let path := s.recordPath id
  if !(← Host.pathExists path) then throw (.imageNotFound id)
  let r ← readDocument none ImageRecord.ofDocument? path
  if r.id ≠ id then throw (.integrity id r.id)
  pure r

def imageExists {ε : Type} (id : String) : HostM ε Bool := Host.pathExists (s.recordPath id)

/-- The id that a tag leads to. -/
def resolveTag (tag : String) : StoreM (Option String) := do
  let path := s.tagPath tag
  if !(← Host.pathExists path) then return none
  let e ← readDocument (some TagEntry.form) TagEntry.ofDocument? path
  pure (some e.imageId)

/-- Drop a tag, and say whether it was there. Its record stays. -/
def untag (tag : String) : StoreM Bool := do
  let path := s.tagPath tag
  if ← Host.pathExists path then
    onFiles (Host.remove path)
    pure true
  else pure false

/-- All tags, sorted. -/
def listTags : StoreM (List TagEntry) := do
  if !(← Host.pathExists s.tags) then return []
  let names ← onFiles (Host.list s.tags)
  let entries ← (names.filter fun n => !isHidden n).mapM fun n =>
    readDocument (some TagEntry.form) TagEntry.ofDocument? (Path.join s.tags n)
  pure (entries.mergeSort fun a b => decide (a.tag ≤ b.tag))

end Store

end ImageRecipe
