import ImageRecipe.Instruction.Document
import ImageRecipe.Proofs.ContentIdentity

/-! Lists of instructions come back from their texts, and what was read from any text at all, however it was spelled,
comes back from the text that it is written as. -/

namespace ImageRecipe

open Document

namespace Instruction

/-- The numbers of an instruction have 32 bits. -/
def Fits : Instruction → Prop
  | copy layer _ => layer < Text.limit32
  | createUser _ uid _ gid => uid < Text.limit32 ∧ gid < Text.limit32
  | healthCheck check => check.Fits
  | _ => True

/-- The fields of an instruction's kind, with those that it has no value for. -/
def entries : Instruction → List (String × Option Document)
  | base image version digest =>
    [("image", some (.text image)), ("version", some (.text version)), ("digest", digest.map .text)]
  | builtBase project tag imageId =>
    [("project", some (.text project)), ("tag", tag.map .text), ("image_id", imageId.map .text)]
  | copy layer owner => [("layer", some (.ofNat layer)), ("owner", owner.map .text)]
  | run commands | configureRepositories commands => [("commands", some (.ofTexts commands))]
  | install packages => [("packages", some (.ofTexts packages.toList))]
  | createUser name uid group gid =>
    [("username", some (.text name)), ("uid", some (.ofNat uid)), ("group", some (.text group)),
      ("gid", some (.ofNat gid))]
  | setUser name => [("username", some (.text name))]
  | env key value => [("key", some (.text key)), ("value", some (.text value))]
  | healthCheck check =>
    [("cmd", some (.text check.command)), ("interval", check.interval.map .text), ("timeout", check.timeout.map .text),
      ("start_period", check.startPeriod.map .text), ("retries", check.retries.map .ofNat)]

variable {i : Instruction} {room : Nat}

theorem fields_eq (i : Instruction) : i.fields = present i.entries := by
  cases i <;> simp [fields, entries]

theorem kind_mem (i : Instruction) : i.kind ∈ kinds := by
  cases i <;> simp [kind, kinds]

theorem nodup_entries (i : Instruction) : (i.entries.map Prod.fst).Nodup := by
  cases i <;> simp [entries]

theorem kind_notMem_fields (i : Instruction) : "kind" ∉ i.fields.map Prod.fst := by
  have h : "kind" ∉ i.entries.map Prod.fst := by
    cases i <;> simp [entries]
  rw [fields_eq]
  exact fun hmem => h (map_fst_present.subset hmem)

/-- The values of an instruction are texts, lists of texts and numbers. -/
theorem Fits.exact_entries (h : i.Fits) : ∀ e ∈ i.entries, ∀ d ∈ e.2, d.Exact (room + 1) := by
  have hnat : ∀ {n : Nat}, n < Text.limit32 → (ofNat n).Exact (room + 1) := fun hn => exact_ofNat (Text.lt_limit64 hn)
  cases i
  case copy => simpa [entries, Exact] using hnat h
  case createUser => simpa [entries, Exact] using And.intro (hnat h.1) (hnat h.2)
  case healthCheck => simpa [entries, Exact] using fun n hn => hnat (h n hn)
  all_goals simp [entries, Exact, exact_ofTexts]

theorem Fits.exactFields (h : i.Fits) : ExactFields (room + 1) i.fields := by
  rw [fields_eq]
  exact exactFields_present h.exact_entries

/-- The kind of an instruction tells how its fields are read. -/
theorem Fits.ofKind?_fields (h : i.Fits) : ofKind? i.kind (.table i.fields) = some i := by
  have hfields : (Document.table i.fields).variantFields? (i.entries.map Prod.fst) =
      some (i.entries.map fun e => found e.2) := by
    rw [variantFields?, fields_eq]
    exact fields?_present .json false rfl i.nodup_entries
  cases i
  all_goals simp only [entries, List.map_cons, List.map_nil] at hfields
  case copy => simp [ofKind?, kind, hfields, Field.required, omissible_text, nat?_ofNat h]
  case install => simp [ofKind?, kind, hfields, Field.required, texts?_ofTexts, SortedSet.ofList_toList]
  case createUser => simp [ofKind?, kind, hfields, Field.required, text?, nat?_ofNat h.1, nat?_ofNat h.2]
  case healthCheck check =>
    have hretries : Field.omissible (nat? Text.limit32) (found (check.retries.map ofNat)) = some check.retries :=
      omissible_found (fun _ => by simp [ofNat]) fun n hn => nat?_ofNat (h n hn)
    simp [ofKind?, kind, HealthCheck.fieldNames, hfields, Field.required, text?, omissible_text, hretries]
  all_goals simp [ofKind?, kind, hfields, Field.required, text?, omissible_text, texts?_ofTexts]

theorem Fits.ofDocument?_toDocument (h : i.Fits) : ofDocument? i.toDocument = some i := by
  have htag : tagged? false "kind" kinds i.toDocument = some (i.kind, .table i.fields) :=
    tagged?_table 1 false i.kind_mem i.kind_notMem_fields h.exactFields
  rw [ofDocument?, htag]
  exact h.ofKind?_fields

theorem Fits.exact_toDocument (h : i.Fits) : i.toDocument.Exact (room + 2) := by
  rw [toDocument, Exact]
  exact ⟨trivial, h.exactFields⟩

/-! What is read fits. -/

theorem fits_of_ofKind? {kind : String} {d : Document} (h : ofKind? kind d = some i) : i.Fits := by
  unfold ofKind? at h
  dsimp only at h
  split at h
  case h_11 => cases h
  -- one case for each kind, in the order of the kinds
  all_goals
    obtain ⟨fs, -, h⟩ := Option.bind_eq_some_iff.1 h
    split at h
    case h_2 => cases h
    simp only [Option.bind_eq_bind, Option.bind_eq_some_iff, Option.map_eq_some_iff, Option.pure_def,
      Option.some.injEq] at h
  · obtain ⟨_, -, _, -, _, -, rfl⟩ := h
    trivial
  · obtain ⟨_, -, _, -, _, -, rfl⟩ := h
    trivial
  · obtain ⟨_, hlayer, _, -, rfl⟩ := h
    exact lt_of_required hlayer
  · obtain ⟨_, -, rfl⟩ := h
    trivial
  · obtain ⟨_, -, rfl⟩ := h
    trivial
  · obtain ⟨_, -, _, huid, _, -, _, hgid, rfl⟩ := h
    exact ⟨lt_of_required huid, lt_of_required hgid⟩
  · obtain ⟨_, -, rfl⟩ := h
    trivial
  · obtain ⟨_, -, _, -, rfl⟩ := h
    trivial
  · obtain ⟨_, -, _, -, _, -, _, -, _, hretries, rfl⟩ := h
    exact lt_of_omissible hretries
  · obtain ⟨_, -, rfl⟩ := h
    trivial

theorem fits_of_ofDocument? {d : Document} (h : ofDocument? d = some i) : i.Fits := by
  obtain ⟨_, -, hkind⟩ := Option.bind_eq_some_iff.1 h
  exact fits_of_ofKind? hkind

variable {l : List Instruction}

theorem fits_of_listOfDocument? {d : Document} (h : listOfDocument? d = some l) : ∀ i ∈ l, i.Fits := by
  intro i hi
  obtain ⟨_, hitem⟩ := exists_of_list? h i hi
  exact fits_of_ofDocument? hitem

/-! Lists of instructions as texts. -/

/-- The text of a list of instructions. -/
def textOf (l : List Instruction) : String := Json.compact (listToDocument l)

/-- The list of instructions of a text. -/
def listOfText? (s : String) : Option (List Instruction) := (Json.parse s).bind listOfDocument?

theorem listOfText?_textOf (h : ∀ i ∈ l, i.Fits) : listOfText? (textOf l) = some l := by
  have hexact : (listToDocument l).Exact 127 := by
    rw [listToDocument, Exact]
    exact exactItems_map fun i hi => (h i hi).exact_toDocument
  rw [listOfText?, textOf, Json.parse_compact hexact, Option.bind_some]
  exact list?_map fun i hi => (h i hi).ofDocument?_toDocument

/-- Every list of instructions comes back from its text. Whatever text a list was read from, the text that it is
written as gives the same list, and so the same text again. -/
theorem texts_round_trip :
    (∀ l : List Instruction, (∀ i ∈ l, i.Fits) → listOfText? (textOf l) = some l) ∧
      ∀ (s : String) (l : List Instruction), listOfText? s = some l →
        listOfText? (textOf l) = some l ∧ (listOfText? (textOf l)).map textOf = some (textOf l) := by
  refine ⟨fun l => listOfText?_textOf, fun s l h => ?_⟩
  obtain ⟨d, -, hd⟩ := Option.bind_eq_some_iff.1 h
  have hl := listOfText?_textOf (fits_of_listOfDocument? hd)
  exact ⟨hl, by rw [hl, Option.map_some]⟩

end Instruction

namespace Sample

/-- Instructions with and without what may be left out. -/
def everyInstruction : List Instruction := [
  .base "debian" "" (some "sha256:\x22\x00"),
  .builtBase "p" none (some ""),
  .copy (4294967295) none,
  .run [],
  .install (SortedSet.ofList ["vim", "\n", "curl"]),
  .createUser "kiln" 0 "" (4294967295),
  .setUser "\\",
  .env "LANG" "ü",
  .healthCheck { command := "true", timeout := some "1s", retries := some 0 },
  .configureRepositories ["a", "b"]]

/-- A list in place of a table, a value that is null, a field that there is not, and packages in no order. -/
def looseText : String :=
  "[[\x22copy\x22, 1], \x7b\x22layer\x22: 2, \x22owner\x22: null, \x22kind\x22: \x22copy\x22\x7d," ++
    "\x7b\x22packages\x22: [\x22vim\x22, \x22curl\x22, \x22vim\x22], \x22x\x22: 0.5, \x22kind\x22: \x22install\x22\x7d]"

theorem listOfText?_looseText : Instruction.listOfText? looseText =
    some [.copy 1 none, .copy 2 none, .install (SortedSet.ofList ["curl", "vim"])] := by
  decide +kernel

end Sample

open Sample in
theorem Instruction.texts_round_trip_sample :
    listOfText? (textOf everyInstruction) = some everyInstruction ∧
      (listOfText? (textOf [.copy 1 none, .copy 2 none, .install (SortedSet.ofList ["curl", "vim"])])).map textOf =
        some (textOf [.copy 1 none, .copy 2 none, .install (SortedSet.ofList ["curl", "vim"])]) := by
  have hfits : ∀ i ∈ everyInstruction, i.Fits := by
    simp [everyInstruction, Fits, HealthCheck.Fits, Text.limit32]
  exact ⟨texts_round_trip.1 _ hfits, (texts_round_trip.2 looseText _ listOfText?_looseText).2⟩

end ImageRecipe
