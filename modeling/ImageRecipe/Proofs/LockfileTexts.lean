import ImageRecipe.Proofs.Lockfiles
import ImageRecipe.Proofs.StoredDocuments
import ImageRecipe.Proofs.TomlTables

/-! Lockfiles come back from their texts. Every pin is written, whatever characters its fields hold, and since no
two pins overlap none is refused when they are put back. -/

namespace ImageRecipe

theorem Distribution.ofName?_name (d : Distribution) : ofName? d.name = some d := by
  cases d <;> decide

namespace Lockfile

variable {l l' : Lockfile} {d e : Distribution} {p q : Pin}

/-! The entries of a lockfile. -/

theorem mem_entries : (d, p) ∈ l.entries ↔ p ∈ l.pins d := by
  unfold entries pins
  simp only [List.mem_flatMap, List.mem_map, Prod.mk.injEq]
  constructor
  · rintro ⟨⟨k, s⟩, hs, q, hq, rfl, rfl⟩
    rw [SortedMap.mem_entries_iff.1 hs]
    exact hq
  · intro hp
    cases hs : l.sections.get? d with
    | none =>
      rw [hs] at hp
      exact absurd hp SortedSet.not_mem_empty
    | some s =>
      rw [hs] at hp
      exact ⟨(d, s), SortedMap.mem_entries_iff.2 hs, p, hp, rfl, rfl⟩

/-- Entries are ordered by their distributions, and those of one distribution by their pins. -/
def EntryBefore (e f : Distribution × Pin) : Prop := e.1 < f.1 ∨ e.1 = f.1 ∧ e.2 < f.2

theorem EntryBefore.asymm {e f : Distribution × Pin} (h : EntryBefore e f) : ¬ EntryBefore f e := by
  rintro (h' | ⟨h', hlt'⟩)
  · rcases h with h | ⟨h, -⟩
    · exact StrictOrder.irrefl _ (StrictOrder.trans h h')
    · exact StrictOrder.irrefl _ (h ▸ h')
  · rcases h with h | ⟨-, hlt⟩
    · exact StrictOrder.irrefl _ (h' ▸ h)
    · exact StrictOrder.irrefl _ (StrictOrder.trans hlt hlt')

theorem pairwise_entries (l : Lockfile) : l.entries.Pairwise EntryBefore := by
  unfold entries
  rw [List.pairwise_flatMap]
  constructor
  · rintro ⟨k, s⟩ -
    rw [List.pairwise_map]
    exact s.ascending.imp fun h => .inr ⟨rfl, h⟩
  · refine l.sections.ascending.imp fun {a b} hab x hx y hy => ?_
    obtain ⟨_, -, rfl⟩ := List.mem_map.1 hx
    obtain ⟨_, -, rfl⟩ := List.mem_map.1 hy
    exact .inl hab

/-- The entries, and with them the text that identifies a lockfile, depend on nothing but the pins. -/
theorem entries_congr (h : ∀ d, l.pins d = l'.pins d) : l.entries = l'.entries := by
  refine eq_of_pairwise_of_mem_iff EntryBefore.asymm l.pairwise_entries l'.pairwise_entries ?_
  rintro ⟨d, p⟩
  rw [mem_entries, mem_entries, h]

theorem contentHash_congr (h : ∀ d, l.pins d = l'.pins d) : l.contentHash = l'.contentHash := by
  unfold contentHash contentText
  rw [entries_congr h]

theorem lookup_congr (h : ∀ d, l.pins d = l'.pins d) (name : String) (d : Distribution) (a : Architecture) :
    l.lookup name d a = l'.lookup name d a := by
  unfold lookup
  rw [h d]

/-! Putting entries back. -/

/-- Entries that belong to one unambiguous lockfile are all taken. -/
theorem exists_addEntries {whole : Lockfile} (hwhole : whole.Unambiguous) :
    ∀ {es : List (Distribution × Pin)} {l : Lockfile}, (∀ d, ∀ p ∈ l.pins d, p ∈ whole.pins d) →
      (∀ e ∈ es, e.2 ∈ whole.pins e.1) →
        ∃ l', l.addEntries es = .ok l' ∧ ∀ d p, p ∈ l'.pins d ↔ p ∈ l.pins d ∨ (d, p) ∈ es
  | [], l, _, _ => ⟨l, rfl, by simp⟩
  | (d, p) :: es, l, hl, hes => by
    rw [List.forall_mem_cons] at hes
    have hfree : ∀ q ∈ l.pins d, q.overlaps p = true → q = p := fun q hq hover =>
      hwhole d q (hl d q hq) p hes.1 hover
    obtain ⟨l₁, hl₁⟩ : ∃ l₁, l.insert d p = (l₁, .ok ()) :=
      ⟨_, Prod.ext rfl ((hwhole.mono hl).insert_isOk_iff.2 hfree)⟩
    have hmem : ∀ e q, q ∈ l₁.pins e ↔ q ∈ l.pins e ∨ e = d ∧ q = p := fun e q => mem_pins_of_insert hl₁
    have hsub : ∀ e, ∀ q ∈ l₁.pins e, q ∈ whole.pins e := by
      intro e q hq
      rcases (hmem e q).1 hq with hq | ⟨rfl, rfl⟩
      · exact hl e q hq
      · exact hes.1
    obtain ⟨l₂, hl₂, hpins⟩ := exists_addEntries hwhole hsub hes.2
    refine ⟨l₂, ?_, fun e q => ?_⟩
    · rw [addEntries, hl₁]
      exact hl₂
    · rw [hpins, hmem, List.mem_cons, Prod.mk.injEq, or_assoc]

/-- The entries of an unambiguous lockfile come to its pins. -/
theorem Unambiguous.addEntries_entries (hl : l.Unambiguous) :
    ∃ l', empty.addEntries l.entries = .ok l' ∧ ∀ d, l'.pins d = l.pins d := by
  obtain ⟨l', hl', hpins⟩ := @exists_addEntries l hl l.entries empty
    (fun d p hp => absurd hp SortedSet.not_mem_empty) (fun e he => mem_entries.1 he)
  refine ⟨l', hl', fun d => SortedSet.eq_of_mem_iff fun p => ?_⟩
  rw [hpins, mem_entries]
  exact or_iff_right SortedSet.not_mem_empty

/-! The document of a lockfile. -/

theorem entryOfDocument?_entryToDocument (e : Distribution × Pin) :
    entryOfDocument? (entryToDocument e) = some e := by
  have hfields := @Document.fields?_table .toml false [
    ("distribution", .text e.1.name),
    ("architecture", .text e.2.architecture),
    ("name", .text e.2.name),
    ("version", .text e.2.version),
    ("release", .text e.2.release)] (by simp)
  unfold entryOfDocument? entryToDocument
  simp only [List.map_cons, List.map_nil] at hfields
  simp only [hfields, Option.bind_eq_bind, Option.bind_some, Field.required, Field.defaulted, Document.text?,
    Document.name?, Distribution.ofName?_name, Option.pure_def]

theorem mapM_entryToDocument (es : List (Distribution × Pin)) :
    (es.map entryToDocument).mapM entryOfDocument? = some es := by
  induction es with
  | nil => rfl
  | cons e es ih => simp [entryOfDocument?_entryToDocument, ih]

/-- The fields of the text of a lockfile with some entries, in their order. -/
def fieldsOf (es : List (Distribution × Pin)) : List (String × Document) :=
  [("lock_version", .ofNat formatVersion), (listName, .list (es.map entryToDocument))]

theorem fields_eq (l : Lockfile) : l.fields = fieldsOf l.entries := rfl

theorem contentsOfDocument?_fieldsOf (es : List (Distribution × Pin)) :
    contentsOfDocument? (.table (fieldsOf es)) = some (formatVersion, es) := by
  have hfields := @Document.fields?_table .toml false (fieldsOf es) (by simp [fieldsOf, listName])
  have hversion : Document.nat? Text.limit32 (.ofNat formatVersion) = some formatVersion := by decide
  unfold contentsOfDocument?
  simp only [fieldsOf, List.map_cons, List.map_nil] at hfields ⊢
  simp only [hfields, Option.bind_eq_bind, Option.bind_some, Field.required, Field.defaulted, Document.list?,
    hversion, mapM_entryToDocument, Option.pure_def]

/-- The fields are a number and a list of tables of texts. -/
theorem isSome_render?_fieldsOf (es : List (Distribution × Pin)) : (Toml.render? (fieldsOf es)).isSome = true := by
  apply Toml.isSome_render?
  intro f hf
  obtain rfl | rfl : f = ("lock_version", .ofNat formatVersion) ∨
      f = (listName, .list (es.map entryToDocument)) := by simpa [fieldsOf] using hf
  · exact (by decide : (Toml.scalarText? (.ofNat formatVersion)).isSome = true)
  · intro d hd
    obtain ⟨e, -, rfl⟩ := List.mem_map.1 hd
    refine ⟨_, rfl, fun f hf => ?_⟩
    simp only [List.mem_cons, List.not_mem_nil, or_false] at hf
    obtain rfl | rfl | rfl | rfl | rfl := hf <;> rfl

theorem render?_fields (l : Lockfile) : Toml.render? l.fields = some l.render := by
  obtain ⟨s, hs⟩ := Option.isSome_iff_exists.1 (isSome_render?_fieldsOf l.entries)
  rw [← fields_eq] at hs
  rw [render, hs]
  rfl

/-- The fields of a pin are five plain words. -/
private theorem plainNames_entryToDocument (e : Distribution × Pin) :
    Toml.PlainNames (Toml.tableFields (entryToDocument e)) := by
  constructor
  · simp [entryToDocument, Toml.tableFields]
  · intro f hf
    simp only [entryToDocument, Toml.tableFields, List.mem_cons, List.not_mem_nil, or_false] at hf
    obtain rfl | rfl | rfl | rfl | rfl := hf <;> dsimp only <;> decide

/-- The document with some entries comes back from its text. -/
theorem parse_of_render?_fieldsOf {es : List (Distribution × Pin)} {s : String}
    (h : Toml.render? (fieldsOf es) = some s) : Toml.parse s = some (.table (fieldsOf es)) := by
  have hnames : Toml.PlainNames (fieldsOf es) := by
    constructor
    · simp [fieldsOf, listName]
    · intro f hf
      simp only [fieldsOf, List.mem_cons, List.not_mem_nil, or_false] at hf
      obtain rfl | rfl := hf <;> simp only [listName] <;> decide
  have hplain : ∀ f ∈ fieldsOf es, Toml.isSection f.2 = true → Toml.PlainSection f.2 := by
    intro f hf hs
    simp only [fieldsOf, List.mem_cons, List.not_mem_nil, or_false] at hf
    obtain rfl | rfl := hf
    · cases hs
    · intro d hd
      obtain ⟨e, -, rfl⟩ := List.mem_map.1 hd
      exact plainNames_entryToDocument e
  rw [Toml.parse_render? h hnames hplain]
  unfold fieldsOf
  cases es <;> rfl

/-- An unambiguous lockfile comes back from its text, but for distributions without pins. -/
theorem Unambiguous.exists_parse_render (hl : l.Unambiguous) :
    ∃ l', Lockfile.parse l.render = .ok l' ∧ ∀ d, l'.pins d = l.pins d := by
  obtain ⟨l', hl', hpins⟩ := hl.addEntries_entries
  refine ⟨l', ?_, hpins⟩
  rw [Lockfile.parse, parse_of_render?_fieldsOf (l.fields_eq ▸ l.render?_fields), Option.bind_some,
    contentsOfDocument?_fieldsOf]
  dsimp only
  rw [if_pos rfl]
  exact hl'

/-- Every lockfile can be written, and its text is read as a lockfile with the same pins for every distribution. So
the look-ups are the same, and so is the digest of the content. -/
theorem Reachable.parse_rendered (hl : l.Reachable) :
    Toml.render? l.fields = some l.render ∧
      ∃ l', Lockfile.parse l.render = .ok l' ∧ (∀ d, l'.pins d = l.pins d) ∧
        (∀ name d a, l'.lookup name d a = l.lookup name d a) ∧ l'.contentHash = l.contentHash := by
  obtain ⟨l', hl', hpins⟩ := hl.unambiguous.exists_parse_render
  exact ⟨l.render?_fields, l', hl', hpins, lookup_congr hpins, contentHash_congr hpins⟩

end Lockfile

namespace Sample

/-- A lockfile whose pins hold quotes, ends of lines and control characters. -/
def quotedLockfile : Lockfile :=
  (((Lockfile.empty.replacePartition .alpine .arm [⟨"", "", "", "''"⟩]).1.insert .alpine
    ⟨"it's \"it\"", "1\\2", "\x00\x7f", "noarch"⟩).1.insert .alpine ⟨"'''\n\"\"\"\"", "\r\n", "\t", "x86_64"⟩).1

theorem reachable_quotedLockfile : quotedLockfile.Reachable :=
  ((Lockfile.Reachable.empty.replacePartition ..).insert ..).insert ..

end Sample

/-- The pins of a lockfile with every kind of quoted text come back. -/
theorem Lockfile.Reachable.parse_rendered_sample :
    (Sample.quotedLockfile.pins .alpine).size = 3 ∧
      ∃ l, Lockfile.parse Sample.quotedLockfile.render = .ok l ∧
        l.pins .alpine = Sample.quotedLockfile.pins .alpine ∧
        l.contentHash = Sample.quotedLockfile.contentHash := by
  obtain ⟨-, l, hl, hpins, -, hhash⟩ := Lockfile.Reachable.parse_rendered Sample.reachable_quotedLockfile
  exact ⟨by decide, l, hl, hpins .alpine, hhash⟩

end ImageRecipe
