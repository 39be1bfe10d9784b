import ImageRecipe.Store.Cache
import ImageRecipe.Store.Images
import ImageRecipe.Proofs.Bytes
import ImageRecipe.Proofs.DocumentFields
import ImageRecipe.Proofs.Instants

/-! Documents in files: a build result and a tag come back from the bytes that they are written as. -/

namespace ImageRecipe

/-- The value of a file that holds a JSON document. -/
def readBack? {α : Type} (ofDocument? : Document → Option α) (data : ByteArray) : Option α := do
  let text ← Text.ofBytes? data
  (Json.parse text).bind ofDocument?

/-- The bytes that a document is written as. -/
def written (d : Document) : ByteArray := Text.bytes (Json.pretty d)

theorem readBack?_written {α : Type} (ofDocument? : Document → Option α) {d : Document}
    (h : d.Exact 127) : readBack? ofDocument? (written d) = ofDocument? d := by
  unfold readBack? written
  rw [Text.ofBytes?_bytes]
  change (Json.parse (Json.pretty d)).bind ofDocument? = ofDocument? d
  rw [Json.parse_pretty h]
  rfl

/-- A tag comes back from its file. -/
theorem TagEntry.readBack?_written (e : TagEntry) :
    readBack? TagEntry.ofDocument? (written e.toDocument) = some e := by
  rw [ImageRecipe.readBack?_written _ (by simp [TagEntry.toDocument, Document.Exact, Document.ExactFields])]
  rfl

/-- A result comes back from its file with the time that its text spells. -/
theorem BuildResult.ofDocument?_toDocument (r : BuildResult) :
    ofDocument? r.toDocument = (Instant.parse r.createdAt.render).map fun t => { r with createdAt := t } := by
  have hread : ∀ b : Builder, Builder.ofDocument? (.text b.documentName) = some b := by
    intro b
    cases b <;> rfl
  have hfields := @Document.fields?_table .json false [
    ("tag", .text r.tag),
    ("image_id", .text r.imageId),
    ("builder", .text r.builder.documentName),
    ("created_at", .text r.createdAt.render)] (by simp)
  unfold ofDocument? toDocument
  simp only [List.map_cons, List.map_nil] at hfields
  rw [hfields]
  simp only [Option.bind_eq_bind, Option.bind_some, Field.required, Document.text?, hread]
  cases Instant.parse r.createdAt.render <;> rfl

/-- What comes back of a result from its file has its tag, its image and its builder. The time is not
compared: a clock may show a date that no text spells. -/
theorem BuildResult.readBack?_written {r r' : BuildResult}
    (h : readBack? BuildResult.ofDocument? (written r.toDocument) = some r') :
    r'.tag = r.tag ∧ r'.imageId = r.imageId ∧ r'.builder = r.builder := by
  rw [ImageRecipe.readBack?_written _
    (by simp [BuildResult.toDocument, Document.Exact, Document.ExactFields]),
    BuildResult.ofDocument?_toDocument] at h
  obtain ⟨t, -, rfl⟩ := Option.map_eq_some_iff.1 h
  exact ⟨rfl, rfl, rfl⟩

/-- A result with a time that a clock can show comes back from its file. -/
theorem BuildResult.readBack?_written_of_real {r : BuildResult} (h : r.createdAt.Real) :
    readBack? BuildResult.ofDocument? (written r.toDocument) = some r := by
  rw [ImageRecipe.readBack?_written _
    (by simp [BuildResult.toDocument, Document.Exact, Document.ExactFields]),
    BuildResult.ofDocument?_toDocument, h.parse_render]
  rfl

/-- A result that is read has a time that a clock could show. -/
theorem BuildResult.real_of_ofDocument? {d : Document} {r : BuildResult} (h : ofDocument? d = some r) :
    r.createdAt.Real := by
  unfold ofDocument? at h
  obtain ⟨fields, -, h⟩ := Option.bind_eq_some_iff.1 h
  split at h
  · next tag imageId builder createdAt =>
    obtain ⟨_, -, h⟩ := Option.bind_eq_some_iff.1 h
    obtain ⟨_, -, h⟩ := Option.bind_eq_some_iff.1 h
    obtain ⟨_, -, h⟩ := Option.bind_eq_some_iff.1 h
    obtain ⟨time, htime, h⟩ := Option.bind_eq_some_iff.1 h
    obtain rfl := Option.some.inj h
    unfold Field.required at htime
    split at htime
    · obtain ⟨text, -, hparse⟩ := Option.bind_eq_some_iff.1 htime
      exact .of_parse hparse
    · cases htime
  · cases h

end ImageRecipe
