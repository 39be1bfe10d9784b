import Mathlib.Data.Set.Function
import ImageRecipe.Proofs.SortedMap
import ImageRecipe.Proofs.StoredDocuments

/-! Plans and image records come back from their texts. So the digest of the text, by which a plan is looked up and an
image is named, stands for one plan and for one record as long as no two of the texts have the same digest. -/

namespace ImageRecipe

/-! What the numbers in plans and in records are: no greater than their fields hold. -/

namespace Permissions

def Fits : Permissions → Prop
  | preserve => True
  | fixed file directory => file < Text.limit32 ∧ directory < Text.limit32

end Permissions

def HealthCheck.Fits (c : HealthCheck) : Prop := ∀ n ∈ c.retries, n < Text.limit32

def Layer.Fits (l : Layer) : Prop := l.ordinal < Text.limit32 ∧ l.permissions.Fits

def Plan.Fits : Plan → Prop
  | daemon _ => True
  | direct p => (∀ l ∈ p.layers, l.Fits) ∧ ∀ c ∈ p.healthCheck, c.Fits

def LayerRecord.Fits (l : LayerRecord) : Prop := l.ordinal < Text.limit32 ∧ l.size < Text.limit64

structure ImageRecord.Fits (r : ImageRecord) : Prop where
  layers : ∀ l ∈ r.layers, l.Fits
  healthCheck : ∀ c ∈ r.healthCheck, c.Fits

open Document

variable {room : Nat}

namespace Permissions

theorem exact_toDocument {x : Permissions} (h : x.Fits) : x.toDocument.Exact (room + 1) := by
  cases x with
  | preserve => simp [toDocument, Exact, ExactFields]
  | fixed file directory =>
    simp [toDocument, Exact, ExactFields, exact_ofNat (Text.lt_limit64 h.1), exact_ofNat (Text.lt_limit64 h.2)]

theorem ofDocument?_toDocument (nested : Bool) {x : Permissions} (h : x.Fits) :
    ofDocument? nested x.toDocument = some x := by
  cases x with
  | preserve =>
    have htag : tagged? nested "policy" ["preserve", "fixed"] preserve.toDocument = some ("preserve", .table []) :=
      tagged?_table 0 nested (by decide) (by decide) trivial
    simp [ofDocument?, htag, isBare]
  | fixed file directory =>
    have htag : tagged? nested "policy" ["preserve", "fixed"] (fixed file directory).toDocument =
        some ("fixed", .table [("file_mode", ofNat file), ("dir_mode", ofNat directory)]) :=
      tagged?_table 0 nested (by decide) (by simp)
        ⟨exact_ofNat (Text.lt_limit64 h.1), exact_ofNat (Text.lt_limit64 h.2), trivial⟩
    simp [ofDocument?, htag, variantFields?, fields?_named, Field.required, nat?_ofNat h.1, nat?_ofNat h.2]

end Permissions

namespace HealthCheck

theorem exact_toDocument {c : HealthCheck} (h : c.Fits) : c.toDocument.Exact (room + 1) := by
  have htext : ∀ o : Option String, (ofOption .text o).Exact room := fun o =>
    exact_ofOption fun s _ => by simp [Exact]
  have hretries : (ofOption ofNat c.retries).Exact room :=
    exact_ofOption fun n hn => exact_ofNat (Text.lt_limit64 (h n hn))
  simp [toDocument, Exact, ExactFields, htext, hretries]

theorem ofDocument?_toDocument {c : HealthCheck} (h : c.Fits) : ofDocument? c.toDocument = some c := by
  have hretries : Field.optional (nat? Text.limit32) (.given (ofOption ofNat c.retries)) = some c.retries :=
    optional_ofOption (fun _ => by simp [ofNat]) fun n hn => nat?_ofNat (h n hn)
  simp [toDocument, ofDocument?, fieldNames, variantFields?, fields?_named, Field.required, text?, optional_text,
    hretries]

end HealthCheck

namespace Layer

theorem exact_toDocument {l : Layer} (h : l.Fits) : l.toDocument.Exact (room + 2) := by
  have howner : (ofOption .text l.owner).Exact (room + 1) := exact_ofOption fun s _ => by simp [Exact]
  simp [toDocument, Exact, ExactFields, exact_ofNat (Text.lt_limit64 h.1), howner, Permissions.exact_toDocument h.2]

theorem ofDocument?_toDocument {l : Layer} (h : l.Fits) : ofDocument? l.toDocument = some l := by
  simp [toDocument, ofDocument?, variantFields?, fields?_named, Field.required, text?, optional_text, nat?_ofNat h.1,
    Permissions.ofDocument?_toDocument true h.2]

end Layer

namespace DirectBase

theorem exact_toDocument (b : DirectBase) : b.toDocument.Exact (room + 1) := by
  cases b <;> simp [toDocument, Exact, ExactFields]

theorem ofDocument?_toDocument (nested : Bool) (b : DirectBase) : ofDocument? nested b.toDocument = some b := by
  cases b with
  | reference r =>
    have htag : tagged? nested "type" ["reference", "built_image"] (reference r).toDocument =
        some ("reference", .table [("reference", .text r)]) :=
      tagged?_table 0 nested (by decide) (by simp) ⟨trivial, trivial⟩
    simp [ofDocument?, htag, variantFields?, fields?_named, Field.required, text?]
  | builtImage project tag id =>
    have htag : tagged? nested "type" ["reference", "built_image"] (builtImage project tag id).toDocument =
        some ("built_image", .table [("project", .text project), ("tag", .text tag), ("image_id", .text id)]) :=
      tagged?_table 0 nested (by decide) (by simp) ⟨trivial, trivial, trivial, trivial⟩
    simp [ofDocument?, htag, variantFields?, fields?_named, Field.required, text?]

end DirectBase

theorem exact_pairsToDocument (l : List (String × String)) : (pairsToDocument l).Exact (room + 2) := by
  unfold pairsToDocument
  rw [Exact]
  exact exactItems_map fun p _ => by simp [Exact, ExactItems]

theorem list?_pairsToDocument (l : List (String × String)) : list? textPair? (pairsToDocument l) = some l :=
  list?_map fun _ _ => rfl

/-- The mounts of a plan come back from their table. -/
theorem textMap?_entries (m : SortedMap String String) :
    textMap? (.table (m.entries.map fun e => (e.1, .text e.2))) = some m := by
  have hentries : ∀ l : List (String × String), (l.map fun e => (e.1, Document.text e.2)).mapM
      (fun f => (text? f.2).map fun s => (f.1, s)) = some l := by
    intro l
    induction l with
    | nil => rfl
    | cons e l ih =>
      rw [List.map_cons, List.mapM_cons, ih]
      rfl
  unfold textMap?
  dsimp only
  rw [hentries, Option.map_some, SortedMap.ofList_entries]

namespace Plan

theorem exactFields_fields {p : Plan} (h : p.Fits) : ExactFields (room + 3) p.fields := by
  cases p with
  | daemon p =>
    have hmounts : ∀ l : List (String × String),
        ExactFields (room + 2) (l.map fun e => (e.1, .text e.2)) := by
      intro l
      induction l with
      | nil => trivial
      | cons e l ih => exact ⟨trivial, ih⟩
    exact ⟨exact_ofTexts _, hmounts _, trivial⟩
  | direct p =>
    have hlayers : ExactItems (room + 2) (p.layers.map Layer.toDocument) :=
      exactItems_map fun l hl => Layer.exact_toDocument (h.1 l hl)
    have huser : (ofOption .text p.user).Exact (room + 3) := exact_ofOption fun s _ => by simp [Exact]
    have hcheck : (ofOption HealthCheck.toDocument p.healthCheck).Exact (room + 3) :=
      exact_ofOption fun c hc => HealthCheck.exact_toDocument (h.2 c hc)
    exact ⟨p.base.exact_toDocument, hlayers, exact_pairsToDocument _, huser, hcheck, trivial⟩

theorem exact_toDocument {p : Plan} (h : p.Fits) : p.toDocument.Exact (room + 4) := by
  rw [toDocument, Exact, ExactFields]
  exact ⟨trivial, exactFields_fields h⟩

theorem ofDocument?_toDocument {p : Plan} (h : p.Fits) : ofDocument? p.toDocument = some p := by
  have htag : tagged? false "backend" ["daemon", "direct"] p.toDocument = some (p.builder.name, .table p.fields) := by
    refine tagged?_table 3 false ?_ ?_ (exactFields_fields h) <;> cases p <;>
      simp [builder, Builder.name, fields]
  cases p with
  | daemon p =>
    simp [ofDocument?, htag, builder, Builder.name, fields, variantFields?, fields?_named, Field.required,
      texts?_ofTexts, textMap?_entries]
  | direct p =>
    have hlayers : list? Layer.ofDocument? (.list (p.layers.map Layer.toDocument)) = some p.layers :=
      list?_map fun l hl => Layer.ofDocument?_toDocument (h.1 l hl)
    have hcheck : Field.optional HealthCheck.ofDocument? (.given (ofOption HealthCheck.toDocument p.healthCheck)) =
        some p.healthCheck :=
      optional_ofOption (fun _ => by simp [HealthCheck.toDocument]) fun c hc =>
        HealthCheck.ofDocument?_toDocument (h.2 c hc)
    simp [ofDocument?, htag, builder, Builder.name, fields, variantFields?, fields?_named, Field.required,
      DirectBase.ofDocument?_toDocument, hlayers, list?_pairsToDocument, optional_text, hcheck]

end Plan

namespace LayerRecord

theorem exact_toDocument {l : LayerRecord} (h : l.Fits) : l.toDocument.Exact (room + 1) := by
  simp [toDocument, Exact, ExactFields, exact_ofNat (Text.lt_limit64 h.1), exact_ofNat h.2]

theorem ofDocument?_toDocument {l : LayerRecord} (h : l.Fits) : ofDocument? l.toDocument = some l := by
  simp [toDocument, ofDocument?, fields?_named, Field.required, text?, nat?_ofNat h.1, nat?_ofNat h.2]

end LayerRecord

namespace ImageRecord

theorem exact_toDocument {r : ImageRecord} (h : r.Fits) : r.toDocument.Exact (room + 3) := by
  have hlayers : ExactItems (room + 1) (r.layers.map LayerRecord.toDocument) :=
    exactItems_map fun l hl => LayerRecord.exact_toDocument (h.layers l hl)
  have huser : (ofOption .text r.user).Exact (room + 2) := exact_ofOption fun s _ => by simp [Exact]
  have hcheck : (ofOption HealthCheck.toDocument r.healthCheck).Exact (room + 2) :=
    exact_ofOption fun c hc => HealthCheck.exact_toDocument (h.healthCheck c hc)
  simp [toDocument, ExactFields, Exact, DirectBase.exact_toDocument, hlayers, exact_pairsToDocument, huser, hcheck]

theorem ofDocument?_toDocument {r : ImageRecord} (h : r.Fits) : ofDocument? r.toDocument = some r := by
  have hlayers : list? LayerRecord.ofDocument? (.list (r.layers.map LayerRecord.toDocument)) = some r.layers :=
    list?_map fun l hl => LayerRecord.ofDocument?_toDocument (h.layers l hl)
  have hcheck : Field.optional HealthCheck.ofDocument? (.given (ofOption HealthCheck.toDocument r.healthCheck)) =
      some r.healthCheck :=
    optional_ofOption (fun _ => by simp [HealthCheck.toDocument]) fun c hc =>
      HealthCheck.ofDocument?_toDocument (h.healthCheck c hc)
  simp [toDocument, ofDocument?, fields?_named, Field.required, DirectBase.ofDocument?_toDocument, hlayers,
    list?_pairsToDocument, optional_text, hcheck]

end ImageRecord

/-- A plan comes back from its text. -/
theorem Plan.parse_contentText {p : Plan} (h : p.Fits) :
    (Json.parse p.contentText).bind Plan.ofDocument? = some p := by
  have hexact : p.toDocument.Exact 127 := exact_toDocument h
  rw [contentText, Json.parse_compact hexact]
  exact ofDocument?_toDocument h

/-- An image record comes back from its text, compact or as it is kept in its file. -/
theorem ImageRecord.parse_contentText {r : ImageRecord} (h : r.Fits) :
    (Json.parse r.contentText).bind ofDocument? = some r ∧
      (Json.parse (Json.pretty r.toDocument)).bind ofDocument? = some r := by
  have hexact : r.toDocument.Exact 127 := exact_toDocument h
  rw [contentText, Json.parse_compact hexact, Json.parse_pretty hexact]
  exact ⟨ofDocument?_toDocument h, ofDocument?_toDocument h⟩

/-- Records are told apart by their texts. -/
theorem ImageRecord.eq_of_contentText {r r' : ImageRecord} (h : r.Fits) (h' : r'.Fits)
    (heq : r.contentText = r'.contentText) : r = r' := by
  have hback := (parse_contentText h).1
  rw [heq, (parse_contentText h').1] at hback
  exact (Option.some.inj hback).symm

/-- A record comes back from its file. -/
theorem ImageRecord.readBack?_written {r : ImageRecord} (h : r.Fits) :
    readBack? ofDocument? (written r.toDocument) = some r := by
  have hexact : r.toDocument.Exact 127 := exact_toDocument h
  rw [ImageRecipe.readBack?_written _ hexact, ofDocument?_toDocument h]

/-- Plans and image records, with any texts in them and with numbers that their fields hold, come back from their texts.
So two plans with one content hash are one plan, and two records with one id are one record, unless their texts are two
texts with one digest. -/
theorem content_identified :
    (∀ p : Plan, p.Fits → (Json.parse p.contentText).bind Plan.ofDocument? = some p) ∧
      (∀ r : ImageRecord, r.Fits → (Json.parse r.contentText).bind ImageRecord.ofDocument? = some r ∧
        (Json.parse (Json.pretty r.toDocument)).bind ImageRecord.ofDocument? = some r) ∧
      (∀ p p' : Plan, p.Fits → p'.Fits → Set.InjOn Blake3.hexOfText {p.contentText, p'.contentText} →
        p.contentHash = p'.contentHash → p = p') ∧
      ∀ r r' : ImageRecord, r.Fits → r'.Fits → Set.InjOn Blake3.hexOfText {r.contentText, r'.contentText} →
        r.id = r'.id → r = r' := by
  refine ⟨fun p => Plan.parse_contentText, fun r => ImageRecord.parse_contentText, ?_, ?_⟩
  · intro p p' hp hp' hinj h
    have htext : p.contentText = p'.contentText := hinj (.inl rfl) (.inr rfl) h
    have hback := Plan.parse_contentText hp
    rw [htext, Plan.parse_contentText hp'] at hback
    exact (Option.some.inj hback).symm
  · intro r r' hr hr' hinj h
    have hdigest : Blake3.hexOfText r.contentText = Blake3.hexOfText r'.contentText := String.append_right_inj _ |>.1 h
    exact ImageRecord.eq_of_contentText hr hr' (hinj (.inl rfl) (.inr rfl) hdigest)

namespace Sample

/-- A plan with a layer whose modes are forced and with a health check. -/
def forcedPlan : Plan :=
  .direct {
    base := .builtImage "p" "p:1" "blake3:0"
    layers := [⟨7, "context/layer7", "/", some "1:2", .fixed 0o644 0o755⟩]
    env := [("A", "\"\n")]
    user := none
    healthCheck := some { command := "true", retries := some 3 } }

/-- A record of an image with a layer. -/
def layeredRecord : ImageRecord :=
  ⟨.reference "i:v", [⟨0, "0", 1024, "/"⟩], [("A", "\\")], some "u", none⟩

theorem fits_layeredRecord : layeredRecord.Fits :=
  ⟨by simp [layeredRecord, LayerRecord.Fits, Text.limit32, Text.limit64], by simp [layeredRecord]⟩

/-- A plan with a single directive. -/
def singlePlan (directive : String) : Plan := .daemon ⟨[directive], .empty⟩

end Sample

theorem content_identified_sample :
    (Json.parse Sample.forcedPlan.contentText).bind Plan.ofDocument? = some Sample.forcedPlan ∧
      (Json.parse (Json.pretty Sample.layeredRecord.toDocument)).bind ImageRecord.ofDocument? =
        some Sample.layeredRecord ∧
      (Sample.singlePlan "A").contentHash ≠ (Sample.singlePlan "B").contentHash := by
  obtain ⟨hplan, hrecord, hhash, -⟩ := content_identified
  have hforced : Sample.forcedPlan.Fits := by
    simp [Sample.forcedPlan, Plan.Fits, Layer.Fits, Permissions.Fits, HealthCheck.Fits, Text.limit32]
  have hdigests : Blake3.hexOfText (Sample.singlePlan "A").contentText ≠
      Blake3.hexOfText (Sample.singlePlan "B").contentText := by decide +kernel
  refine ⟨hplan _ hforced, (hrecord _ Sample.fits_layeredRecord).2, fun h => ?_⟩
  have heq := hhash (Sample.singlePlan "A") (Sample.singlePlan "B") trivial trivial
    (Set.injOn_pair.2 fun heq => absurd heq hdigests) h
  exact absurd heq (by decide)

end ImageRecipe
