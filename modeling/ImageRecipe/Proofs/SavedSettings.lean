import ImageRecipe.Settings
import ImageRecipe.Proofs.DocumentFields
import ImageRecipe.Proofs.RepeatedOperations
import ImageRecipe.Proofs.TomlTables

/-! Settings that were saved are loaded as they were. There is no text for delays that the format has no numbers for,
and then no file is touched. -/

namespace ImageRecipe

/-! Files and directories. -/

/-- What a path leads to is there in every tree that came out by making directories. -/
theorem FileTree.GainsDirectories.status {t t' : FileTree} {d : Location} {path : String} {e : Entry}
    (hg : t.GainsDirectories t') (h : t.status d path = .ok e) : t'.status d path = .ok e := by
  obtain ⟨l, hl, he⟩ := status_ok h
  exact status_eq (resolve_of_subset (fun _ _ => hg.entry?_eq) (by simp [he]) hl) (hg.entry?_eq he)

/-- A file can be put in place at a path. -/
def FileTree.Accepts (t : FileTree) (d : Location) (path : String) : Prop := ∃ data t', t.write d path data = .ok t'

/-- Whether a file can be put in place does not depend on what it holds. -/
theorem FileTree.Accepts.exists_write {t : FileTree} {d : Location} {path : String} (h : t.Accepts d path)
    (data : ByteArray) : ∃ t', t.write d path data = .ok t' := by
  obtain ⟨_, _, hwrite⟩ := h
  obtain ⟨hd, l, hl, hr, hno, -⟩ := write_eq_ok.1 hwrite
  exact ⟨_, write_eq_ok.2 ⟨hd, l, hl, hr, hno, rfl⟩⟩

/-- A host is another one with some directories made where nothing was. -/
structure Host.GainsDirectories (h h' : Host) : Prop where
  files : h.files.GainsDirectories h'.files
  rest : h' = { h with files := h'.files }

namespace Host.GainsDirectories

variable {h h' : Host} {path : String} {e : Entry}

theorem refl (h : Host) : GainsDirectories h h := ⟨.refl _, rfl⟩

theorem status (hg : GainsDirectories h h') (he : h.files.status h.directory path = .ok e) :
    h'.files.status h'.directory path = .ok e := by
  rw [hg.rest]
  exact hg.files.status he

end Host.GainsDirectories

/-! The documents of settings. -/

namespace Toml

/-- A natural number has a text if it is one of 64 bits with a sign. -/
theorem isSome_scalarText?_ofNat {n : Nat} :
    (scalarText? (.ofNat n)).isSome = true ↔ n ≤ 9223372036854775807 := by
  have hle : Int.ofNat n ≤ integerLimit ↔ n ≤ 9223372036854775807 := by
    rw [integerLimit, Int.ofNat_eq_natCast]
    omega
  rw [Document.ofNat, scalarText?, Option.isSome_ite, hle]

/-- A number of 32 bits has a text. -/
theorem isSome_scalarText?_of_lt {n : Nat} (h : n < Text.limit32) : (scalarText? (.ofNat n)).isSome = true := by
  unfold Text.limit32 at h
  exact isSome_scalarText?_ofNat.2 (by omega)

end Toml

namespace Backoff

/-- The numbers of a backoff have 32 and 64 bits. -/
structure Fits (b : Backoff) : Prop where
  attempts : b.attempts < Text.limit32
  initialDelay : b.initialDelay < Text.limit64
  multiplier : b.multiplier < Text.limit32
  maxDelay : b.maxDelay < Text.limit64

/-- The delays are numbers of 64 bits with a sign: at most `2 ^ 63 - 1`. -/
def Writable (b : Backoff) : Prop := b.initialDelay ≤ 9223372036854775807 ∧ b.maxDelay ≤ 9223372036854775807

instance (b : Backoff) : Decidable b.Writable := inferInstanceAs (Decidable (_ ∧ _))

variable {b : Backoff}

/-- The fields of the document of a backoff. -/
def fields (b : Backoff) : List (String × Document) := [
  ("max_attempts", .ofNat b.attempts),
  ("initial_delay_ms", .ofNat b.initialDelay),
  ("multiplier", .ofNat b.multiplier),
  ("max_delay_ms", .ofNat b.maxDelay)]

theorem toDocument_eq (b : Backoff) : b.toDocument = .table b.fields := rfl

theorem nodup_fields (b : Backoff) : (b.fields.map Prod.fst).Nodup := by
  simp [fields]

theorem Fits.ofDocument?_toDocument (h : b.Fits) (format : Format) : ofDocument? format b.toDocument = some b := by
  have hfields := Document.fields?_table format false b.nodup_fields
  rw [toDocument_eq]
  unfold ofDocument?
  simp only [fields, List.map_cons, List.map_nil] at hfields ⊢
  simp only [hfields, Option.bind_eq_bind, Option.bind_some, Field.defaulted, Document.nat?_ofNat h.attempts,
    Document.nat?_ofNat h.initialDelay, Document.nat?_ofNat h.multiplier, Document.nat?_ofNat h.maxDelay,
    Option.pure_def]

/-- The delays decide whether the fields can be written. -/
theorem Fits.scalars_fields_iff (h : b.Fits) : Toml.Scalars b.fields ↔ b.Writable := by
  simp only [Toml.Scalars, fields, List.forall_mem_cons, Toml.isSome_scalarText?_of_lt h.attempts,
    Toml.isSome_scalarText?_of_lt h.multiplier, Toml.isSome_scalarText?_ofNat, Writable]
  simp

end Backoff

namespace Settings

/-- The numbers of settings have as many bits as their fields. -/
structure Fits (s : Settings) : Prop where
  minEngineMajor : s.minEngineMajor < Text.limit32
  pullRetry : s.pullRetry.Fits

variable {s : Settings}

/-- The fields of settings, with the store that may not be set. -/
def entries (s : Settings) : List (String × Option Document) := [
  ("engine", some (.text s.engine)),
  ("ephemeral_target", some (.text s.ephemeralTarget)),
  ("store", s.store.map .text),
  ("min_engine_major", some (.ofNat s.minEngineMajor)),
  ("repo_name", some (.text s.repositoryName)),
  ("pull_retry", some s.pullRetry.toDocument)]

theorem fields_eq (s : Settings) : s.fields = Document.present s.entries := by
  simp [fields, entries]

theorem map_fst_entries (s : Settings) : s.entries.map Prod.fst = fieldNames := rfl

theorem nodup_fieldNames : fieldNames.Nodup := by
  decide

theorem Fits.ofDocument?_fields (h : s.Fits) : ofDocument? .toml (.table s.fields) = some s := by
  have hfields := Document.fields?_present .toml true s.map_fst_entries nodup_fieldNames
  unfold ofDocument?
  rw [fields_eq, hfields]
  simp only [entries, List.map_cons, List.map_nil, Document.found_some, Option.bind_eq_bind, Option.bind_some,
    Field.defaulted, Document.text?, Document.omissible_text, Document.nat?_ofNat h.minEngineMajor,
    h.pullRetry.ofDocument?_toDocument, Option.pure_def]

/-- A property of fields, field by field. -/
theorem forall_mem_fields {P : String × Document → Prop} : (∀ f ∈ s.fields, P f) ↔
    P ("engine", .text s.engine) ∧ P ("ephemeral_target", .text s.ephemeralTarget) ∧
      (∀ root ∈ s.store, P ("store", .text root)) ∧ P ("min_engine_major", .ofNat s.minEngineMajor) ∧
        P ("repo_name", .text s.repositoryName) ∧ P ("pull_retry", s.pullRetry.toDocument) := by
  cases hs : s.store <;> simp [fields, hs, Document.optionalField]

/-- The delays decide whether there is a text. -/
theorem Fits.isSome_render?_iff (hs : s.Fits) : s.render?.isSome = true ↔ s.pullRetry.Writable := by
  rw [← hs.pullRetry.scalars_fields_iff]
  constructor
  · intro h
    obtain ⟨text, htext⟩ := Option.isSome_iff_exists.1 h
    exact Toml.scalars_of_render? htext (k := "pull_retry") (by simp [fields, Backoff.toDocument_eq])
  · intro h
    exact Toml.isSome_render? (forall_mem_fields.2
      ⟨rfl, rfl, fun _ _ => rfl, Toml.isSome_scalarText?_of_lt hs.minEngineMajor, rfl, h⟩)

/-- Settings come back from their text. -/
theorem Fits.parse_of_render? (h : s.Fits) {text : String} (htext : s.render? = some text) : parse text = .ok s := by
  have hnames : Toml.PlainNames s.fields := by
    constructor
    · rw [fields_eq]
      exact (s.map_fst_entries ▸ nodup_fieldNames).sublist Document.map_fst_present
    · refine forall_mem_fields.2 ⟨?_, ?_, fun _ _ => ?_, ?_, ?_, ?_⟩ <;> dsimp only <;> decide
  have hretry : Toml.PlainSection s.pullRetry.toDocument := by
    constructor
    · exact s.pullRetry.nodup_fields
    · intro f hf
      simp only [Backoff.toDocument, Toml.tableFields, List.mem_cons, List.not_mem_nil, or_false] at hf
      obtain rfl | rfl | rfl | rfl := hf <;> dsimp only <;> decide
  have hsections : ∀ f ∈ s.fields, Toml.isSection f.2 = true → Toml.PlainSection f.2 := by
    refine forall_mem_fields.2 ⟨?_, ?_, fun _ _ => ?_, ?_, ?_, fun _ => hretry⟩ <;>
    · intro hsection
      cases hsection
  have hparse := Toml.parse_render? htext hnames hsections
  have horder : s.fields.filter (fun f => !Toml.isSection f.2) ++ s.fields.filter (fun f => Toml.isSection f.2) =
      s.fields := by
    cases hs : s.store <;> simp [fields, hs, Document.optionalField, Toml.isSection, Document.ofNat, Backoff.toDocument]
  rw [horder] at hparse
  rw [parse, hparse, Option.bind_some, h.ofDocument?_fields]

/-! Saving and loading. -/

/-- To make the directory that a file is to lie in. -/
def makeOuter (path : String) : HostM SettingsError Unit :=
  match Path.parent? path with
  | some directory => (Host.makePath directory).failingAs .io
  | none => pure ()

variable {path text : String} {h h' h₁ : Host}

theorem gainsDirectories_makeOuter (path : String) (h : Host) : Host.GainsDirectories h (ran (makeOuter path) h).2 := by
  unfold makeOuter Host.makePath
  cases Path.parent? path with
  | none => exact .refl _
  | some directory =>
    rw [ran_failingAs, ran_change]
    cases hmake : h.files.makePath h.directory directory with
    | error f => exact .refl _
    | ok files => exact ⟨FileTree.gainsDirectories_makePath hmake, rfl⟩

/-- The directory is made first, even if there is no text. -/
theorem save_eq (s : Settings) (path : String) : s.save path = makeOuter path >>= fun _ =>
    match s.render? with
    | some text => (Host.replaceFile path (Text.bytes text)).failingAs .io
    | none => throw .unwritable := by
  unfold save makeOuter
  cases Path.parent? path <;> rfl

theorem yields_save (houter : Yields (makeOuter path) h () h₁) (htext : s.render? = some text)
    (hreplace : Yields (Host.replaceFile path (Text.bytes text)) h₁ () h') : Yields (s.save path) h () h' := by
  rw [save_eq, yields_bind, htext]
  exact ⟨(), h₁, houter, (yields_failingAs ..).2 hreplace⟩

/-- Settings without a text leave directories at most. -/
theorem gainsDirectories_of_none (hnone : s.render? = none) (path : String) (h : Host) :
    Host.GainsDirectories h (ran (s.save path) h).2 := by
  have hgains := gainsDirectories_makeOuter path h
  rw [save_eq, hnone, ran_bind]
  rcases houter : ran (makeOuter path) h with ⟨_ | _, h₁⟩ <;>
  · rw [houter] at hgains
    exact hgains

/-- What was put in place is loaded. -/
theorem Fits.yields_load (hs : s.Fits) (htext : s.render? = some text)
    (hy : Yields (Host.replaceFile path (Text.bytes text)) h () h')
    (hpath : h'.files.pathExists h'.directory path = true) : Yields (load path) h' s h' := by
  have hread := yields_readText_replaced hy hpath
  unfold load Host.pathExists
  refine (yields_bind ..).2 ⟨true, h', (yields_look ..).2 ⟨hpath, rfl⟩, ?_⟩
  refine (yields_bind ..).2 ⟨text, h', (yields_failingAs ..).2 hread, ?_⟩
  exact (yields_ofExcept ..).2 ⟨hs.parse_of_render? htext, rfl⟩

end Settings

namespace Sample

/-- Settings with every kind of quoted text and the greatest numbers. -/
def quotedSettings : Settings where
  engine := "it's \x22it\x22"
  ephemeralTarget := "\x27\x27\x27\n\x22\x22\x22\x22"
  store := some "\r\n\\\t\x00"
  minEngineMajor := 4294967295
  repositoryName := ""
  pullRetry := { attempts := 0, initialDelay := 9223372036854775807, multiplier := 4294967295, maxDelay := 0 }

/-- Settings with a delay that the format has no number for. -/
def endlessSettings : Settings := { pullRetry := { maxDelay := 9223372036854775808 } }

/-- A host with a file of settings. -/
def configured : Host where
  files := FileTree.empty.put [FileName.ofText "c"] (.file 0o644 (Text.bytes "engine = 'podman'\n"))

theorem fits_quotedSettings : quotedSettings.Fits := ⟨by decide, by decide, by decide, by decide, by decide⟩

theorem fits_endlessSettings : endlessSettings.Fits := ⟨by decide, by decide, by decide, by decide, by decide⟩

theorem status_configured : configured.files.status configured.directory "/c" =
    .ok (.file 0o644 (Text.bytes "engine = 'podman'\n")) := by
  decide +kernel

/-- The host with a directory for another file of settings. -/
def prepared : Host := (ran (Settings.makeOuter "/d/c") configured).2

theorem yields_prepared : Yields (Settings.makeOuter "/d/c") configured () prepared :=
  Prod.ext (by decide +kernel) rfl

theorem accepts_prepared : prepared.files.Accepts prepared.directory "/d/c" := by
  obtain ⟨t, ht⟩ := exists_of_isOk
    (by decide +kernel : (prepared.files.write prepared.directory "/d/c" ByteArray.empty).isOk = true)
  exact ⟨_, t, ht⟩

theorem linkStatus_prepared : prepared.files.linkStatus prepared.directory "/d/c" = .error .notFound := by
  decide +kernel

end Sample

end ImageRecipe
