import ImageRecipe.Proofs.TomlLines

/-! A table comes back from its text: its values first, then its tables and lists of tables, each behind a
header. -/

namespace ImageRecipe.Toml

/-! The lines of sections. -/

/-- The fields of a table. -/
def tableFields : Document → List (String × Document)
  | .table fields => fields
  | _ => []

/-- A header and the pairs below it. -/
def tableLines (header : Line) (d : Document) : List Line := header :: (tableFields d).map pairLine

/-- The lines of a table or a list of tables. -/
def sectionLines : String × Document → List Line
  | (k, .list l) => l.flatMap (tableLines (.tables [] k))
  | (k, d) => tableLines (.table [] k) d

/-- Fields whose names are plain words, each of them once. -/
structure PlainNames (fields : List (String × Document)) : Prop where
  nodup : (fields.map Prod.fst).Nodup
  bare : ∀ f ∈ fields, IsBareKey f.1

/-- A table, or a list of tables, in which all names are plain. -/
def PlainSection : Document → Prop
  | .list l => ∀ d ∈ l, PlainNames (tableFields d)
  | d => PlainNames (tableFields d)

theorem spells_tableText {header cs : List Char} {l : Line} {d : Document}
    (hheader : Spells ('\n' :: (header ++ ['\n'])) [l]) (hd : PlainNames (tableFields d))
    (hcs : tableText? header d = some cs) : Spells cs (tableLines l d) := by
  unfold tableText? at hcs
  split at hcs
  · next fields =>
    obtain ⟨body, hbody, rfl⟩ := Option.map_eq_some_iff.1 hcs
    simpa [tableLines, tableFields] using hheader.append (spells_pairLines hbody hd.bare)
  · cases hcs

theorem spells_tableTexts {header cs : List Char} {l : Line} {ds : List Document}
    (hheader : Spells ('\n' :: (header ++ ['\n'])) [l]) (hd : ∀ d ∈ ds, PlainNames (tableFields d))
    (hcs : tableTexts? header ds = some cs) : Spells cs (ds.flatMap (tableLines l)) := by
  induction ds generalizing cs with
  | nil =>
    cases hcs
    exact .nil
  | cons d ds ih =>
    rw [List.forall_mem_cons] at hd
    simp only [tableTexts?, Option.bind_eq_bind, Option.bind_eq_some_iff, Option.pure_def] at hcs
    obtain ⟨first, hfirst, rest, hrest, hcs⟩ := hcs
    cases hcs
    exact (spells_tableText hheader hd.1 hfirst).append (ih hd.2 hrest)

theorem spells_sectionTexts {fields : List (String × Document)} {cs : List Char}
    (hk : ∀ f ∈ fields, IsBareKey f.1) (hd : ∀ f ∈ fields, PlainSection f.2)
    (hcs : sectionTexts? fields = some cs) : Spells cs (fields.flatMap sectionLines) := by
  induction fields generalizing cs with
  | nil =>
    cases hcs
    exact .nil
  | cons f fields ih =>
    obtain ⟨k, d⟩ := f
    rw [List.forall_mem_cons] at hk hd
    obtain ⟨hkey, hk⟩ := hk
    obtain ⟨hplain, hd⟩ := hd
    cases d with
    | list l =>
      simp only [sectionTexts?, Option.bind_eq_bind, Option.bind_eq_some_iff, Option.pure_def] at hcs
      obtain ⟨first, hfirst, rest, hrest, hcs⟩ := hcs
      cases hcs
      exact (spells_tableTexts (spells_tablesHeader hkey) hplain hfirst).append (ih hk hd hrest)
    | table inner =>
      simp only [sectionTexts?, Option.bind_eq_bind, Option.bind_eq_some_iff, Option.pure_def] at hcs
      obtain ⟨first, hfirst, rest, hrest, hcs⟩ := hcs
      cases hcs
      exact (spells_tableText (spells_tableHeader hkey) hplain hfirst).append (ih hk hd hrest)
    | _ => cases hcs

/-! Tables as they are put together. -/

/-- A table of values alone. -/
def entriesOf (fields : List (String × Document)) : Entries := fields.map fun f => (f.1, .value f.2)

/-- What the lines of a section come to. -/
def nodeOf : Document → Node
  | .list l => .tables (l.map fun d => entriesOf (tableFields d)).reverse
  | d => .table .defined (entriesOf (tableFields d))

@[simp] theorem entriesToDocument_append (e e' : Entries) :
    Node.entriesToDocument (e ++ e') = Node.entriesToDocument e ++ Node.entriesToDocument e' := by
  induction e with
  | nil => rfl
  | cons a e ih =>
    obtain ⟨k, n⟩ := a
    simp only [List.cons_append, Node.entriesToDocument, ih]

@[simp] theorem entriesToDocument_entriesOf (fields : List (String × Document)) :
    Node.entriesToDocument (entriesOf fields) = fields := by
  induction fields with
  | nil => rfl
  | cons f fields ih =>
    simp only [entriesOf, List.map_cons, Node.entriesToDocument, Node.toDocument] at ih ⊢
    rw [ih]

theorem tablesToDocuments_eq (l : List Entries) :
    Node.tablesToDocuments l = l.map fun t => .table (Node.entriesToDocument t) := by
  induction l with
  | nil => rfl
  | cons t l ih => rw [Node.tablesToDocuments, List.map_cons, ih]

namespace Entries

variable {name : String} {entries : Entries}

/-- A name that is not there yet comes last. -/
theorem change_of_notMem {f : Option Node → Option Node} (h : name ∉ entries.map Prod.fst) :
    entries.change name f = (f none).map fun n => entries ++ [(name, n)] := by
  induction entries with
  | nil => rfl
  | cons e entries ih =>
    obtain ⟨k, n⟩ := e
    rw [List.map_cons, List.mem_cons, not_or] at h
    rw [change, if_neg (Ne.symm h.1), ih h.2, Option.map_map]
    rfl

/-- The last name is changed in its place. -/
theorem change_append {f : Option Node → Option Node} (h : name ∉ entries.map Prod.fst) (n : Node) :
    (entries ++ [(name, n)]).change name f = (f (some n)).map fun n => entries ++ [(name, n)] := by
  induction entries with
  | nil => simp [change]
  | cons e entries ih =>
    obtain ⟨k, m⟩ := e
    rw [List.map_cons, List.mem_cons, not_or] at h
    rw [List.cons_append, change, if_neg (Ne.symm h.1), ih h.2, Option.map_map]
    rfl

@[simp] theorem map_fst_entriesOf (fields : List (String × Document)) :
    (entriesOf fields).map Prod.fst = fields.map Prod.fst := by
  simp [entriesOf]

/-- New names are added with their values in their order. -/
theorem addPairs_entriesOf {fields : List (String × Document)}
    (h : (entries.map Prod.fst ++ fields.map Prod.fst).Nodup) :
    addPairs (fields.map fun f => ([], f.1, f.2)) entries = some (entries ++ entriesOf fields) := by
  induction fields generalizing entries with
  | nil => simp [addPairs, entriesOf]
  | cons f fields ih =>
    obtain ⟨k, d⟩ := f
    have hnew : k ∉ entries.map Prod.fst := by
      intro hk
      exact (List.nodup_append.1 h).2.2 k hk k (by simp) rfl
    have hadd : entries.addPair [] k d = some (entries ++ [(k, .value d)]) := by
      simp only [addPair, changeAt, List.isEmpty_nil, Bool.not_true, Bool.false_and, Bool.false_eq_true,
        if_false, addNew]
      rw [change_of_notMem hnew]
      rfl
    rw [List.map_cons, addPairs, hadd, Option.bind_eq_bind, Option.bind_some, ih]
    · simp [entriesOf]
    · simpa using h

theorem addPairs_nil {fields : List (String × Document)} (h : PlainNames fields) :
    addPairs (fields.map fun f => ([], f.1, f.2)) [] = some (entriesOf fields) :=
  addPairs_entriesOf (by simpa using h.nodup)

/-- A new table comes last. -/
theorem defineTable_new {fields : List (String × Document)} (hf : PlainNames fields)
    (h : name ∉ entries.map Prod.fst) :
    entries.defineTable [] name (fields.map fun f => ([], f.1, f.2)) =
      some (entries ++ [(name, .table .defined (entriesOf fields))]) := by
  simp only [defineTable, changeAt]
  rw [change_of_notMem h, addPairs_nil hf]
  rfl

/-- The first table of a new list makes the list. -/
theorem appendTable_new {fields : List (String × Document)} (hf : PlainNames fields)
    (h : name ∉ entries.map Prod.fst) :
    entries.appendTable [] name (fields.map fun f => ([], f.1, f.2)) =
      some (entries ++ [(name, .tables [entriesOf fields])]) := by
  simp only [appendTable, changeAt]
  rw [change_of_notMem h, addPairs_nil hf]
  rfl

/-- A further table goes to the list that stands last. -/
theorem appendTable_append {fields : List (String × Document)} (hf : PlainNames fields)
    (h : name ∉ entries.map Prod.fst) (l : List Entries) :
    appendTable [] name (fields.map fun f => ([], f.1, f.2)) (entries ++ [(name, .tables l)]) =
      some (entries ++ [(name, .tables (entriesOf fields :: l))]) := by
  simp only [appendTable, changeAt]
  rw [change_append h, addPairs_nil hf]
  rfl

end Entries

/-! Sections. -/

/-- Lines that begin with a header, if there are any. -/
def BeginsSection (ls : List Line) : Prop := leadingPairs ls = ([], ls)

theorem leadingPairs_append {ls : List Line} (h : BeginsSection ls) (fields : List (String × Document)) :
    leadingPairs (fields.map pairLine ++ ls) = (fields.map fun f => ([], f.1, f.2), ls) := by
  induction fields with
  | nil => exact h
  | cons f fields ih =>
    rw [List.map_cons, List.cons_append, pairLine, leadingPairs, ih]
    rfl

theorem beginsSection_tables {k : String} (ds : List Document) {ls : List Line} (h : BeginsSection ls) :
    BeginsSection (ds.flatMap (tableLines (.tables [] k)) ++ ls) := by
  cases ds with
  | nil => exact h
  | cons d ds => rfl

theorem beginsSection_sections (fields : List (String × Document)) :
    BeginsSection (fields.flatMap sectionLines) := by
  induction fields with
  | nil => rfl
  | cons f fields ih =>
    obtain ⟨k, d⟩ := f
    rw [List.flatMap_cons]
    cases d with
    | list l => exact beginsSection_tables l ih
    | _ => rfl

/-- The tables of a list are added to it one after the other. -/
theorem sections?_tables {k : String} {entries : Entries} (hk : k ∉ entries.map Prod.fst)
    {ds : List Document} (hd : ∀ d ∈ ds, PlainNames (tableFields d)) {ls : List Line} (hls : BeginsSection ls)
    (l : List Entries) :
    sections? (entries ++ [(k, .tables l)]) (ds.flatMap (tableLines (.tables [] k)) ++ ls) =
      sections? (entries ++ [(k, .tables ((ds.map fun d => entriesOf (tableFields d)).reverse ++ l))]) ls := by
  induction ds generalizing l with
  | nil => rfl
  | cons d ds ih =>
    rw [List.forall_mem_cons] at hd
    rw [List.flatMap_cons, List.append_assoc, tableLines, List.cons_append, sections?,
      leadingPairs_append (beginsSection_tables ds hls)]
    dsimp only
    rw [Entries.appendTable_append hd.1 hk]
    dsimp only
    rw [ih hd.2]
    simp

/-- Sections with new names are added in their order. -/
theorem sections?_sectionLines {entries : Entries} {fields : List (String × Document)}
    (hk : (entries.map Prod.fst ++ fields.map Prod.fst).Nodup) (hd : ∀ f ∈ fields, PlainSection f.2)
    (hs : ∀ f ∈ fields, isSection f.2 = true) :
    sections? entries (fields.flatMap sectionLines) =
      some (entries ++ fields.map fun f => (f.1, nodeOf f.2)) := by
  induction fields generalizing entries with
  | nil => simp [sections?]
  | cons f fields ih =>
    obtain ⟨k, d⟩ := f
    rw [List.forall_mem_cons] at hd hs
    have hnew : k ∉ entries.map Prod.fst := by
      intro hmem
      exact (List.nodup_append.1 hk).2.2 k hmem k (by simp) rfl
    have hrest : sections? (entries ++ [(k, nodeOf d)]) (fields.flatMap sectionLines) =
        some (entries ++ ((k, nodeOf d) :: fields.map fun f => (f.1, nodeOf f.2))) := by
      rw [ih (by simpa using hk) hd.2 hs.2]
      simp
    have hbegin := beginsSection_sections fields
    rw [List.flatMap_cons, List.map_cons, ← hrest]
    obtain ⟨hplain, -⟩ := hd
    obtain ⟨hsection, -⟩ := hs
    cases d with
    | table inner =>
      have hinner : PlainNames inner := hplain
      simp only [sectionLines, tableLines, tableFields, List.cons_append]
      rw [sections?, leadingPairs_append hbegin]
      dsimp only
      rw [Entries.defineTable_new hinner hnew]
      rfl
    | list l =>
      cases l with
      | nil => cases hsection
      | cons d ds =>
        rw [PlainSection, List.forall_mem_cons] at hplain
        simp only [sectionLines]
        rw [List.flatMap_cons, List.append_assoc, tableLines, List.cons_append, sections?,
          leadingPairs_append (beginsSection_tables ds hbegin)]
        dsimp only
        rw [Entries.appendTable_new hplain.1 hnew]
        dsimp only
        rw [sections?_tables hnew hplain.2 hbegin]
        simp [nodeOf]
    | _ => cases hsection

/-! Whole texts. -/

private theorem table_tableFields {header cs : List Char} {d : Document} (h : tableText? header d = some cs) :
    .table (tableFields d) = d := by
  unfold tableText? at h
  split at h
  · rfl
  · cases h

private theorem tables_tableFields {header cs : List Char} {ds : List Document}
    (h : tableTexts? header ds = some cs) : (ds.map fun d => .table (tableFields d)) = ds := by
  induction ds generalizing cs with
  | nil => rfl
  | cons d ds ih =>
    simp only [tableTexts?, Option.bind_eq_bind, Option.bind_eq_some_iff] at h
    obtain ⟨_, hfirst, _, hrest, -⟩ := h
    rw [List.map_cons, table_tableFields hfirst, ih hrest]

private theorem toDocument_nodeOf_list (l : List Document) :
    (nodeOf (.list l)).toDocument = .list (l.map fun d => .table (tableFields d)) := by
  simp only [nodeOf, Node.toDocument, tablesToDocuments_eq, List.map_reverse, List.reverse_reverse,
    List.map_map, Function.comp_def, entriesToDocument_entriesOf]

/-- Sections that are written come to what they were written from. -/
theorem entriesToDocument_sections {fields : List (String × Document)} {cs : List Char}
    (h : sectionTexts? fields = some cs) :
    Node.entriesToDocument (fields.map fun f => (f.1, nodeOf f.2)) = fields := by
  induction fields generalizing cs with
  | nil => rfl
  | cons f fields ih =>
    obtain ⟨k, d⟩ := f
    rw [List.map_cons, Node.entriesToDocument]
    cases d with
    | list l =>
      simp only [sectionTexts?, Option.bind_eq_bind, Option.bind_eq_some_iff, Option.pure_def] at h
      obtain ⟨_, hfirst, _, hrest, -⟩ := h
      rw [ih hrest, toDocument_nodeOf_list, tables_tableFields hfirst]
    | table inner =>
      simp only [sectionTexts?, Option.bind_eq_bind, Option.bind_eq_some_iff, Option.pure_def] at h
      obtain ⟨_, -, _, hrest, -⟩ := h
      rw [ih hrest]
      simp [nodeOf, Node.toDocument, tableFields]
    | _ => cases h

private theorem tableText?_cons {header cs : List Char} {d : Document} (h : tableText? header d = some cs) :
    ∃ r, cs = '\n' :: r := by
  unfold tableText? at h
  split at h
  · obtain ⟨_, -, rfl⟩ := Option.map_eq_some_iff.1 h
    exact ⟨_, rfl⟩
  · cases h

private theorem sectionTexts?_cons {f : String × Document} {fields : List (String × Document)} {cs : List Char}
    (h : sectionTexts? (f :: fields) = some cs) (hs : isSection f.2 = true) : ∃ r, cs = '\n' :: r := by
  obtain ⟨k, d⟩ := f
  cases d with
  | table inner =>
    simp only [sectionTexts?, Option.bind_eq_bind, Option.bind_eq_some_iff, Option.pure_def] at h
    obtain ⟨_, hfirst, _, -, h⟩ := h
    obtain ⟨_, rfl⟩ := tableText?_cons hfirst
    cases h
    exact ⟨_, rfl⟩
  | list l =>
    cases l with
    | nil => cases hs
    | cons d ds =>
      simp only [sectionTexts?, tableTexts?, Option.bind_eq_bind, Option.bind_eq_some_iff, Option.pure_def] at h
      obtain ⟨_, ⟨_, hfirst, _, -, heq⟩, _, -, h⟩ := h
      obtain ⟨_, rfl⟩ := tableText?_cons hfirst
      cases heq
      cases h
      exact ⟨_, rfl⟩
  | _ => cases hs

/-- No text begins with a byte-order mark. -/
private theorem head?_ne_mark {fields tables : List (String × Document)} {cs cs' : List Char}
    (h : pairLines? fields = some cs) (hk : ∀ f ∈ fields, IsBareKey f.1)
    (h' : sectionTexts? tables = some cs') (hs : ∀ f ∈ tables, isSection f.2 = true) :
    (cs ++ cs').head? ≠ some '\uFEFF' := by
  cases fields with
  | nil =>
    cases h
    cases tables with
    | nil =>
      cases h'
      simp
    | cons f tables =>
      obtain ⟨r, rfl⟩ := sectionTexts?_cons h' (hs f List.mem_cons_self)
      simp
  | cons f fields =>
    obtain ⟨k, d⟩ := f
    simp only [pairLines?, Option.bind_eq_bind, Option.bind_eq_some_iff, Option.pure_def] at h
    obtain ⟨_, -, _, -, h⟩ := h
    cases h
    obtain ⟨x, xs, hx, hbare⟩ := (hk (k, d) List.mem_cons_self).cons
    rw [hx, List.cons_append, List.cons_append, List.head?_cons, ne_eq, Option.some.injEq]
    rintro rfl
    exact absurd hbare (by decide)

/-- Fields that can all be written in a line. -/
def Scalars (fields : List (String × Document)) : Prop := ∀ f ∈ fields, (scalarText? f.2).isSome = true

/-- What can be written beside its name: a value, a table of values or a list of such tables. -/
def Writable : Document → Prop
  | .table fields => Scalars fields
  | .list l => ∀ d ∈ l, ∃ fields, d = .table fields ∧ Scalars fields
  | d => (scalarText? d).isSome = true

theorem isSome_pairLines? {fields : List (String × Document)} (h : Scalars fields) :
    (pairLines? fields).isSome = true := by
  induction fields with
  | nil => rfl
  | cons f fields ih =>
    obtain ⟨hf, hfields⟩ := List.forall_mem_cons.1 h
    obtain ⟨v, hv⟩ := Option.isSome_iff_exists.1 hf
    obtain ⟨rest, hrest⟩ := Option.isSome_iff_exists.1 (ih hfields)
    simp [pairLines?, hv, hrest]

theorem isSome_tableText? (header : List Char) {fields : List (String × Document)} (h : Scalars fields) :
    (tableText? header (.table fields)).isSome = true := by
  rw [tableText?, Option.isSome_map, isSome_pairLines? h]

theorem isSome_tableTexts? (header : List Char) {ds : List Document}
    (h : ∀ d ∈ ds, ∃ fields, d = .table fields ∧ Scalars fields) :
    (tableTexts? header ds).isSome = true := by
  induction ds with
  | nil => rfl
  | cons d ds ih =>
    obtain ⟨⟨fields, rfl, hfields⟩, hds⟩ := List.forall_mem_cons.1 h
    obtain ⟨first, hfirst⟩ := Option.isSome_iff_exists.1 (isSome_tableText? header hfields)
    obtain ⟨rest, hrest⟩ := Option.isSome_iff_exists.1 (ih hds)
    simp [tableTexts?, hfirst, hrest]

theorem isSome_sectionTexts? {fields : List (String × Document)} (h : ∀ f ∈ fields, Writable f.2)
    (hs : ∀ f ∈ fields, isSection f.2 = true) : (sectionTexts? fields).isSome = true := by
  induction fields with
  | nil => rfl
  | cons f fields ih =>
    obtain ⟨k, d⟩ := f
    obtain ⟨hd, hfields⟩ := List.forall_mem_cons.1 h
    obtain ⟨hsd, hsfields⟩ := List.forall_mem_cons.1 hs
    obtain ⟨rest, hrest⟩ := Option.isSome_iff_exists.1 (ih hfields hsfields)
    cases d with
    | table inner =>
      obtain ⟨first, hfirst⟩ :=
        Option.isSome_iff_exists.1 (isSome_tableText? ('[' :: (k.toList ++ [']'])) hd)
      simp only [sectionTexts?, hfirst, hrest]
      rfl
    | list l =>
      obtain ⟨first, hfirst⟩ :=
        Option.isSome_iff_exists.1 (isSome_tableTexts? ('[' :: '[' :: (k.toList ++ [']', ']'])) hd)
      simp only [sectionTexts?, hfirst, hrest]
      rfl
    | _ => cases hsd

/-- A table has a text if everything in it can be written. -/
theorem isSome_render? {fields : List (String × Document)} (h : ∀ f ∈ fields, Writable f.2) :
    (render? fields).isSome = true := by
  have hscalars : Scalars (fields.filter fun f => !isSection f.2) := by
    rintro ⟨k, d⟩ hf
    rw [List.mem_filter, Bool.not_eq_true'] at hf
    have hd := h _ hf.1
    obtain ⟨-, hs⟩ := hf
    match d with
    | .table _ | .list (_ :: _) => cases hs
    | .list [] => rfl
    | .null | .bool _ | .int _ | .real | .text _ | .moment | .skipped => exact hd
  obtain ⟨pairs, hpairs⟩ := Option.isSome_iff_exists.1 (isSome_pairLines? hscalars)
  have htexts : (sectionTexts? (fields.filter fun f => isSection f.2)).isSome = true :=
    isSome_sectionTexts? (fun f hf => h f (List.mem_filter.1 hf).1) (fun f hf => (List.mem_filter.1 hf).2)
  obtain ⟨sections, hsections⟩ := Option.isSome_iff_exists.1 htexts
  simp [render?, hpairs, hsections]

/-- Of pairs that are written each value can be written. -/
theorem scalars_of_pairLines? {fields : List (String × Document)} {cs : List Char} (h : pairLines? fields = some cs) :
    Scalars fields := by
  induction fields generalizing cs with
  | nil => exact fun f hf => absurd hf List.not_mem_nil
  | cons f fields ih =>
    simp only [pairLines?, Option.bind_eq_bind, Option.bind_eq_some_iff] at h
    obtain ⟨v, hv, rest, hrest, -⟩ := h
    exact List.forall_mem_cons.2 ⟨Option.isSome_of_eq_some hv, ih hrest⟩

/-- Of sections that are written each table has values that can be written. -/
theorem scalars_of_sectionTexts? {fields inner : List (String × Document)} {cs : List Char} {k : String}
    (h : sectionTexts? fields = some cs) (hk : (k, .table inner) ∈ fields) : Scalars inner := by
  induction fields generalizing cs with
  | nil => cases hk
  | cons f fields ih =>
    rcases List.mem_cons.1 hk with rfl | hmem
    · simp only [sectionTexts?, tableText?, Option.bind_eq_bind, Option.bind_eq_some_iff,
        Option.map_eq_some_iff] at h
      obtain ⟨_, ⟨body, hbody, -⟩, -⟩ := h
      exact scalars_of_pairLines? hbody
    · obtain ⟨k', d⟩ := f
      cases d with
      | list l =>
        simp only [sectionTexts?, Option.bind_eq_bind, Option.bind_eq_some_iff] at h
        obtain ⟨_, -, _, hrest, -⟩ := h
        exact ih hrest hmem
      | _ =>
        simp only [sectionTexts?, Option.bind_eq_bind, Option.bind_eq_some_iff] at h
        obtain ⟨_, -, _, hrest, -⟩ := h
        exact ih hrest hmem

/-- A table is not written if a value in a table in it cannot be. -/
theorem scalars_of_render? {fields inner : List (String × Document)} {s k : String} (h : render? fields = some s)
    (hk : (k, .table inner) ∈ fields) : Scalars inner := by
  simp only [render?, Option.bind_eq_bind, Option.bind_eq_some_iff] at h
  obtain ⟨_, -, sections, hsections, -⟩ := h
  exact scalars_of_sectionTexts? hsections (List.mem_filter.2 ⟨hk, rfl⟩)

/-- A table of plain names comes back from its text, its values before its tables. -/
theorem parse_render? {fields : List (String × Document)} {s : String} (hs : render? fields = some s)
    (hk : PlainNames fields) (hd : ∀ f ∈ fields, isSection f.2 = true → PlainSection f.2) :
    parse s = some (.table
      (fields.filter (fun f => !isSection f.2) ++ fields.filter fun f => isSection f.2)) := by
  unfold render? at hs
  simp only [Option.bind_eq_bind, Option.bind_eq_some_iff, Option.pure_def] at hs
  obtain ⟨pairs, hpairs, sections, hsections, hs⟩ := hs
  cases hs
  generalize hvalues : fields.filter (fun f => !isSection f.2) = values at *
  generalize htables : fields.filter (fun f => isSection f.2) = tables at *
  have hbare : ∀ f ∈ values, IsBareKey f.1 := fun f hf => hk.bare f (List.mem_filter.1 (hvalues ▸ hf)).1
  have htable : ∀ f ∈ tables, f ∈ fields ∧ isSection f.2 = true := fun f hf => by
    rw [← htables, List.mem_filter] at hf
    exact hf
  have hnodup : (values.map Prod.fst ++ tables.map Prod.fst).Nodup := by
    have hperm := List.filter_append_perm (fun f : String × Document => isSection f.2) fields
    rw [hvalues, htables] at hperm
    rw [← List.map_append]
    exact ((List.perm_append_comm.trans hperm).map Prod.fst).nodup_iff.2 hk.nodup
  have hspell : Spells (pairs ++ sections) (values.map pairLine ++ tables.flatMap sectionLines) :=
    (spells_pairLines hpairs hbare).append
      (spells_sectionTexts (fun f hf => hk.bare f (htable f hf).1)
        (fun f hf => hd f (htable f hf).1 (htable f hf).2) hsections)
  have hmark := head?_ne_mark hpairs hbare hsections fun f hf => (htable f hf).2
  have hsplit := leadingPairs_append (beginsSection_sections tables) values
  have hvalue : Entries.addPairs (values.map fun f => ([], f.1, f.2)) [] = some (entriesOf values) :=
    Entries.addPairs_nil ⟨(List.nodup_append.1 hnodup).1, hbare⟩
  have hsection : sections? (entriesOf values) (tables.flatMap sectionLines) =
      some (entriesOf values ++ tables.map fun f => (f.1, nodeOf f.2)) :=
    sections?_sectionLines (by rwa [Entries.map_fst_entriesOf])
    (fun f hf => hd f (htable f hf).1 (htable f hf).2) (fun f hf => (htable f hf).2)
  unfold parse
  rw [String.toList_ofList]
  split
  · next r heq => exact absurd (congrArg List.head? heq) hmark
  · dsimp only
    rw [hspell.lines?_eq]
    simp only [Option.bind_eq_bind, Option.bind_some, hsplit, hvalue, hsection, Option.pure_def,
      Entries.toDocument, entriesToDocument_append, entriesToDocument_entriesOf,
      entriesToDocument_sections hsections]

end ImageRecipe.Toml
