import ImageRecipe.Distribution.Query
import ImageRecipe.Proofs.TextPieces

/-! What package managers answer to a query for versions is read as the pins it was written from. An answer is a list
of lines. Lines that tell of no package stand among the others, and an answer of APT is in stanzas. -/

namespace ImageRecipe

open Text (IsWord isBlank)

namespace Pin

/-- The version with the release behind it, as APT writes it. -/
def fullVersion (p : Pin) : String := if p.release = "" then p.version else p.version ++ "-" ++ p.release

theorem render_apt {d : Distribution} (hd : d.packageManager = .apt) (p : Pin) :
    p.render d = p.name ++ "=" ++ p.fullVersion := by
  unfold render fullVersion
  rw [hd]
  by_cases hp : p.release = "" <;> simp [hp, String.append_assoc]

/-- The name, the version and the architecture are words. -/
structure Worded (p : Pin) : Prop where
  name : IsWord p.name.toList
  version : IsWord p.version.toList
  architecture : IsWord p.architecture.toList

end Pin

namespace PackageQuery

/-! ### What is answered -/

/-- The lines of an answer that has a line for each pin, among lines of fewer than `width` words. -/
inductive Rows (row : Pin → String → Prop) (width : Nat) : List String → List Pin → Prop
  | nil : Rows row width [] []
  | row {p line lines ps} : row p line → Rows row width lines ps → Rows row width (line :: lines) (p :: ps)
  | other {line lines ps} : '\n' ∉ line.toList → (Text.words line.toList).length < width →
      Rows row width lines ps → Rows row width (line :: lines) ps

/-- The line of a pin in an answer of YUM. -/
structure ColumnsLine (p : Pin) (line : String) : Prop where
  worded : p.Worded
  release : IsWord p.release.toList
  eq : line = p.name ++ " " ++ p.version ++ " " ++ p.release ++ " " ++ p.architecture

/-- The line of a pin in an answer of APK, which goes on behind the architecture. Version and release have no
hyphen. -/
structure JoinedLine (p : Pin) (line : String) : Prop where
  worded : p.Worded
  release : IsWord p.release.toList
  hyphenFree : '-' ∉ p.version.toList ∧ '-' ∉ p.release.toList
  eq : ∃ rest, line = p.name ++ "-" ++ p.version ++ "-" ++ p.release ++ " " ++ p.architecture ++ rest ∧
    '\n' ∉ rest.toList ∧ ∀ c ∈ rest.toList.head?, isBlank c = true

/-- A line of a stanza that gives no field of a pin. -/
structure OtherLine (line : String) : Prop where
  ne_empty : line ≠ ""
  feed_notMem : '\n' ∉ line.toList
  unlabelled : ∀ label ∈ ["Package: ", "Version: ", "Architecture: "], ¬ label.toList <+: line.toList

/-- The lines of a stanza of an answer of APT, in any order. A release has no hyphen, and where there is none the
version has none. -/
structure StanzaLines (p : Pin) (lines : List String) : Prop where
  worded : p.Worded
  release : p.release = "" ∧ '-' ∉ p.version.toList ∨ IsWord p.release.toList ∧ '-' ∉ p.release.toList
  perm : ∃ others, (∀ line ∈ others, OtherLine line) ∧
    lines.Perm (("Package: " ++ p.name) :: ("Version: " ++ p.fullVersion) ::
      ("Architecture: " ++ p.architecture) :: others)

/-- The lines of an answer of APT: a stanza for each pin, with an empty line between them at least. -/
inductive Stanzas : List String → List Pin → Prop
  | nil : Stanzas [] []
  | blank {lines ps} : Stanzas lines ps → Stanzas ("" :: lines) ps
  | last {p stanza} : StanzaLines p stanza → Stanzas stanza [p]
  | cons {p stanza lines ps} : StanzaLines p stanza → Stanzas lines ps →
      Stanzas (stanza ++ "" :: lines) (p :: ps)

/-- The lines of an answer that tells of some pins, one after the other. -/
def Output : PackageManager → List String → List Pin → Prop
  | .apt => Stanzas
  | .yum => Rows ColumnsLine 4
  | .apk => Rows JoinedLine 2

variable {p : Pin} {ps : List Pin} {l w : List Char} {label line : String} {lines stanza : List String} {s : Stanza}

theorem toList_intercalate_feed (lines : List String) :
    ("\n".intercalate lines).toList = ['\n'].intercalate (lines.map String.toList) := by
  rw [String.toList_intercalate, show "\n".toList = ['\n'] by decide]

/-! ### Lines for pins -/

/-- What reads the words of a line and needs `width` of them finds the pins, line by line. -/
theorem Rows.filterMap_lines {row : Pin → String → Prop} {width : Nat} {read : List Char → Option Pin}
    (h : Rows row width lines ps) (hwidth : 0 < width) (hreturn : ∀ l, read (l ++ ['\r']) = read l)
    (hnarrow : ∀ l, (Text.words l).length < width → read l = none)
    (hrow : ∀ p line, row p line → '\n' ∉ line.toList ∧ read line.toList = some p) :
    (Text.lines ("\n".intercalate lines).toList).filterMap read = ps := by
  have hfound : (∀ l ∈ lines.map String.toList, '\n' ∉ l) ∧ (lines.map String.toList).filterMap read = ps := by
    induction h with
    | nil => exact ⟨nofun, rfl⟩
    | row hp _ ih =>
      obtain ⟨hfeed, hread⟩ := hrow _ _ hp
      exact ⟨List.forall_mem_cons.2 ⟨hfeed, ih.1⟩, by rw [List.map_cons, List.filterMap_cons_some hread, ih.2]⟩
    | other hfeed hl _ ih =>
      exact ⟨List.forall_mem_cons.2 ⟨hfeed, ih.1⟩, by
        rw [List.map_cons, List.filterMap_cons_none (hnarrow _ hl), ih.2]⟩
  rw [toList_intercalate_feed, Text.filterMap_lines (hnarrow [] hwidth) hreturn hfound.1, hfound.2]

theorem columnsPin?_narrow (h : (Text.words l).length < 4) : columnsPin? l = none := by
  unfold columnsPin?
  split
  · next heq =>
    rw [heq] at h
    simp only [List.length_cons] at h
    omega
  · rfl

theorem joinedPin?_narrow (h : (Text.words l).length < 2) : joinedPin? l = none := by
  unfold joinedPin?
  split
  · next heq =>
    rw [heq] at h
    simp only [List.length_cons] at h
    omega
  · rfl

theorem columnsPin?_concat_return (l : List Char) : columnsPin? (l ++ ['\r']) = columnsPin? l := by
  unfold columnsPin?
  rw [Text.words_concat_blank (by decide)]

theorem joinedPin?_concat_return (l : List Char) : joinedPin? (l ++ ['\r']) = joinedPin? l := by
  unfold joinedPin?
  rw [Text.words_concat_blank (by decide)]

theorem ColumnsLine.read (h : ColumnsLine p line) : '\n' ∉ line.toList ∧ columnsPin? line.toList = some p := by
  have hline : line.toList = p.name.toList ++ ' ' :: (p.version.toList ++ ' ' ::
      (p.release.toList ++ ' ' :: p.architecture.toList)) := by
    simp [h.eq, String.toList_append]
  have hwords : Text.words line.toList =
      [p.name.toList, p.version.toList, p.release.toList, p.architecture.toList] := by
    rw [hline, Text.words_append_blank h.worded.name (by decide), Text.words_append_blank h.worded.version (by decide),
      Text.words_append_blank h.release (by decide), Text.words_word h.worded.architecture]
  refine ⟨?_, by simp [columnsPin?, hwords]⟩
  simp [hline, h.worded.name.notMem, h.worded.version.notMem, h.release.notMem, h.worded.architecture.notMem,
    show isBlank '\n' = true by decide]

theorem JoinedLine.read (h : JoinedLine p line) : '\n' ∉ line.toList ∧ joinedPin? line.toList = some p := by
  obtain ⟨rest, heq, hfeed, hrest⟩ := h.eq
  let full := (p.name.toList ++ '-' :: p.version.toList) ++ '-' :: p.release.toList
  have hline : line.toList = full ++ ' ' :: (p.architecture.toList ++ rest.toList) := by
    simp [heq, full, String.toList_append]
  have hfull : IsWord full := by
    have hhyphen : isBlank '-' = false := by decide
    refine IsWord.append (h.worded.name.append ?_) ?_ <;> rw [List.forall_mem_cons]
    · exact ⟨hhyphen, h.worded.version.2⟩
    · exact ⟨hhyphen, h.release.2⟩
  have hwords : ∃ more, Text.words line.toList = full :: p.architecture.toList :: more := by
    rw [hline, Text.words_append_blank hfull (by decide)]
    cases hr : rest.toList with
    | nil => exact ⟨[], by rw [List.append_nil, Text.words_word h.worded.architecture]⟩
    | cons c r =>
      have hc : isBlank c = true := hrest c (by simp [hr])
      exact ⟨Text.words r, by rw [Text.words_append_blank h.worded.architecture hc]⟩
  obtain ⟨more, hwords⟩ := hwords
  refine ⟨?_, ?_⟩
  · simp [hline, hfull.notMem, h.worded.architecture.notMem, hfeed, show isBlank '\n' = true by decide]
  · have hrelease : Text.cutLast '-' full = some (p.name.toList ++ '-' :: p.version.toList, p.release.toList) :=
      Text.cutLast_append h.hyphenFree.2 _
    simp [joinedPin?, hwords, hrelease, Text.cutLast_append h.hyphenFree.1]

/-! ### Fields of a stanza -/

/-- What a line gives for the field of a label. -/
def valueOf (label : String) (line : List Char) : Option (List Char) :=
  (Text.dropStart? label.toList line).map blankFree

theorem blankFree_concat_return (v : List Char) : blankFree (v ++ ['\r']) = blankFree v := by
  have hreturn : isBlank '\r' = true := by decide
  have hend : ∀ x : List Char, Text.trimEnd (x ++ ['\r']) = Text.trimEnd x := fun x => by
    simp [Text.trimEnd, hreturn]
  unfold blankFree Text.trimStart
  rw [List.dropWhile_append]
  split
  · next hall =>
    rw [List.isEmpty_iff.1 hall]
    simp [Text.trimEnd, hreturn]
  · exact hend _

theorem valueOf_concat_return (h : '\r' ∉ label.toList) (l : List Char) :
    valueOf label (l ++ ['\r']) = valueOf label l := by
  unfold valueOf
  rw [Text.dropStart?_concat h, Option.map_map]
  exact congrArg (Option.map · _) (funext blankFree_concat_return)

theorem valueOf_append (h : ∀ c ∈ w, isBlank c = false) (label : String) :
    valueOf label (label.toList ++ w) = some w := by
  rw [valueOf, Text.dropStart?_append, Option.map_some, blankFree, Text.trim_eq_self h]

/-- The last line for a field counts. -/
theorem value_foldl_read {value : Stanza → Option (List Char)}
    (hstep : ∀ s l, value (s.read l) = (valueOf label l).or (value s)) (ls : List (List Char)) (s : Stanza) :
    value (ls.foldl Stanza.read s) = (ls.filterMap (valueOf label)).getLast?.or (value s) := by
  induction ls generalizing s with
  | nil => rfl
  | cons l ls ih =>
    rw [List.foldl_cons, ih, hstep, List.filterMap_cons]
    cases valueOf label l with
    | none => rfl
    | some v =>
      rw [List.getLast?_cons]
      cases (ls.filterMap (valueOf label)).getLast? <;> rfl

theorem name_read (s : Stanza) (l : List Char) : (s.read l).name = (valueOf "Package: " l).or s.name := by
  unfold Stanza.read valueOf
  split
  · next h => rw [h]; rfl
  · next h =>
    rw [h]
    split
    · rfl
    · split <;> rfl

theorem version_read (s : Stanza) (l : List Char) : (s.read l).version = (valueOf "Version: " l).or s.version := by
  unfold Stanza.read valueOf
  split
  · next h =>
    rw [Text.eq_append_of_dropStart? h]
    simp [Text.dropStart?]
  · split
    · next h => rw [h]; rfl
    · next h =>
      rw [h]
      split <;> rfl

theorem architecture_read (s : Stanza) (l : List Char) :
    (s.read l).architecture = (valueOf "Architecture: " l).or s.architecture := by
  unfold Stanza.read valueOf
  split
  · next h =>
    rw [Text.eq_append_of_dropStart? h]
    simp [Text.dropStart?]
  · split
    · next h =>
      rw [Text.eq_append_of_dropStart? h]
      simp [Text.dropStart?]
    · split <;> next h => rw [h]; rfl

/-- The lines of a stanza give each field once. -/
structure Gives (p : Pin) (ls : List (List Char)) : Prop where
  name : ls.filterMap (valueOf "Package: ") = [p.name.toList]
  version : ls.filterMap (valueOf "Version: ") = [p.fullVersion.toList]
  architecture : ls.filterMap (valueOf "Architecture: ") = [p.architecture.toList]

/-- The release is found behind the last hyphen of the full version. -/
theorem StanzaLines.cutLast_fullVersion (h : StanzaLines p stanza) :
    (Text.cutLast '-' p.fullVersion.toList).getD (p.fullVersion.toList, []) =
      (p.version.toList, p.release.toList) := by
  unfold Pin.fullVersion
  rcases h.release with ⟨hempty, hhyphen⟩ | ⟨hword, hhyphen⟩
  · rw [if_pos hempty, Text.cutLast_eq_none hhyphen, hempty]
    rfl
  · have hne : p.release ≠ "" := fun heq => hword.1 (by simp [heq])
    have htext : (p.version ++ "-" ++ p.release).toList = p.version.toList ++ '-' :: p.release.toList := by
      simp [String.toList_append]
    rw [if_neg hne, htext, Text.cutLast_append hhyphen]
    rfl

theorem StanzaLines.notBlank_fullVersion (h : StanzaLines p stanza) :
    ∀ c ∈ p.fullVersion.toList, isBlank c = false := by
  unfold Pin.fullVersion
  rcases h.release with ⟨hempty, -⟩ | ⟨hword, -⟩
  · rw [if_pos hempty]
    exact h.worded.version.2
  · have hne : p.release ≠ "" := fun heq => hword.1 (by simp [heq])
    rw [if_neg hne]
    intro c hc
    simp only [String.toList_append, List.mem_append] at hc
    rcases hc with (hc | hc) | hc
    · exact h.worded.version.2 c hc
    · rw [show c = '-' by simpa using hc]
      decide
    · exact hword.2 c hc

theorem OtherLine.valueOf_eq_none (h : OtherLine line) (hl : label ∈ ["Package: ", "Version: ", "Architecture: "]) :
    valueOf label line.toList = none := by
  rw [valueOf, Text.dropStart?_eq_none (h.unlabelled label hl), Option.map_none]

theorem StanzaLines.gives (h : StanzaLines p stanza) : Gives p (stanza.map String.toList) := by
  obtain ⟨others, hothers, hperm⟩ := h.perm
  have hfields : ∀ label ∈ ["Package: ", "Version: ", "Architecture: "], ∀ v,
      ([("Package: " ++ p.name), ("Version: " ++ p.fullVersion), ("Architecture: " ++ p.architecture)].map
        String.toList).filterMap (valueOf label) = [v] →
      (stanza.map String.toList).filterMap (valueOf label) = [v] := by
    intro label hlabel v hv
    have hnone : (others.map String.toList).filterMap (valueOf label) = [] := by
      rw [List.filterMap_eq_nil_iff, List.forall_mem_map]
      exact fun line hline => (hothers line hline).valueOf_eq_none hlabel
    have hp := (hperm.map String.toList).filterMap (valueOf label)
    rw [← List.perm_singleton, ← List.append_nil [v], ← hv, ← hnone, ← List.filterMap_append, ← List.map_append]
    exact hp
  have hname := valueOf_append h.worded.name.2 "Package: "
  have hversion := valueOf_append h.notBlank_fullVersion "Version: "
  have harchitecture := valueOf_append h.worded.architecture.2 "Architecture: "
  refine ⟨hfields _ (by simp) _ ?_, hfields _ (by simp) _ ?_, hfields _ (by simp) _ ?_⟩ <;>
    simp only [List.map_cons, List.map_nil, String.toList_append, List.filterMap_cons, List.filterMap_nil, hname,
      hversion, harchitecture] <;>
    simp [valueOf, Text.dropStart?]

theorem stanzaPin?_lines {ls : List (List Char)} (hstanza : StanzaLines p stanza) (hls : Gives p ls)
    (hfeed : ∀ l ∈ ls, '\n' ∉ l) : stanzaPin? (['\n'].intercalate ls) = some p := by
  have hfields : ∀ label ∈ ["Package: ", "Version: ", "Architecture: "],
      (Text.lines (['\n'].intercalate ls)).filterMap (valueOf label) = ls.filterMap (valueOf label) := by
    intro label hlabel
    simp only [List.mem_cons, List.not_mem_nil, or_false] at hlabel
    refine Text.filterMap_lines ?_ (valueOf_concat_return ?_) hfeed <;>
      rcases hlabel with rfl | rfl | rfl <;> simp [valueOf, Text.dropStart?]
  unfold stanzaPin? Stanza.pin?
  rw [value_foldl_read name_read, value_foldl_read version_read, value_foldl_read architecture_read,
    hfields _ (by simp), hfields _ (by simp), hfields _ (by simp), hls.name, hls.version, hls.architecture]
  simp [hstanza.cutLast_fullVersion]

/-! ### Stanzas for pins -/

theorem intercalate_append {as bs : List (List Char)} (ha : as ≠ []) (hb : bs ≠ []) :
    ['\n'].intercalate (as ++ bs) = ['\n'].intercalate as ++ '\n' :: ['\n'].intercalate bs := by
  induction as with
  | nil => exact absurd rfl ha
  | cons a as ih =>
    cases as with
    | nil =>
      obtain ⟨b, bs, rfl⟩ := List.exists_cons_of_ne_nil hb
      simp [List.intercalate_cons_cons]
    | cons a' as =>
      rw [List.cons_append, List.cons_append, List.intercalate_cons_cons, List.intercalate_cons_cons,
        ← List.cons_append, ih (List.cons_ne_nil _ _)]
      simp

theorem StanzaLines.solid (h : StanzaLines p stanza) : Text.Solid (stanza.map String.toList) := by
  obtain ⟨others, hothers, hperm⟩ := h.perm
  have hfeed : isBlank '\n' = true := by decide
  have hfull : '\n' ∉ p.fullVersion.toList := fun hm => by
    simp [h.notBlank_fullVersion _ hm] at hfeed
  refine ⟨fun hnil => ?_, ?_⟩
  · rw [List.map_eq_nil_iff.1 hnil] at hperm
    exact absurd hperm.symm.eq_nil (List.cons_ne_nil _ _)
  · rw [List.forall_mem_map]
    intro line hline
    rcases List.mem_cons.1 (hperm.mem_iff.1 hline) with rfl | hline
    · simp [h.worded.name.notMem hfeed]
    · simp only [List.mem_cons] at hline
      rcases hline with rfl | rfl | hline
      · simp [hfull]
      · simp [h.worded.architecture.notMem hfeed]
      · exact ⟨by simpa using (hothers line hline).ne_empty, (hothers line hline).feed_notMem⟩

/-- Empty lines give no field. -/
theorem Gives.between {before behind ls : List (List Char)} (h : Gives p ls) (hbefore : ∀ l ∈ before, l = [])
    (hbehind : ∀ l ∈ behind, l = []) : Gives p (before ++ (ls ++ behind)) := by
  have hempty : ∀ {label : String} {ls : List (List Char)}, label ≠ "" → (∀ l ∈ ls, l = []) →
      ls.filterMap (valueOf label) = [] := by
    intro label ls hlabel hls
    rw [List.filterMap_eq_nil_iff]
    intro l hl
    rw [hls l hl, valueOf, Text.dropStart?_eq_none (by simpa using hlabel), Option.map_none]
  refine ⟨?_, ?_, ?_⟩
  · simp [List.filterMap_append, hempty _ hbefore, hempty _ hbehind, h.name]
  · simp [List.filterMap_append, hempty _ hbefore, hempty _ hbehind, h.version]
  · simp [List.filterMap_append, hempty _ hbefore, hempty _ hbehind, h.architecture]

/-- A line feed in front of lines is an empty line before them. -/
theorem exists_before {lead : List Char} (hlead : lead = [] ∨ lead = ['\n']) :
    ∃ before : List (List Char), (∀ l ∈ before, l = []) ∧
      ∀ ls, ls ≠ [] → lead ++ ['\n'].intercalate ls = ['\n'].intercalate (before ++ ls) := by
  rcases hlead with rfl | rfl
  · exact ⟨[], nofun, fun _ _ => rfl⟩
  · exact ⟨[[]], by simp, fun ls hls => by rw [intercalate_append (List.cons_ne_nil _ _) hls]; rfl⟩

theorem exists_behind {tail : List Char} (htail : tail = [] ∨ tail = ['\n']) :
    ∃ behind : List (List Char), (∀ l ∈ behind, l = []) ∧
      ∀ ls, ls ≠ [] → ['\n'].intercalate ls ++ tail = ['\n'].intercalate (ls ++ behind) := by
  rcases htail with rfl | rfl
  · exact ⟨[], nofun, fun _ _ => by simp⟩
  · exact ⟨[[]], by simp, fun ls hls => by rw [intercalate_append hls (List.cons_ne_nil _ _)]; rfl⟩

/-- A stanza is read alike with an empty line in front and behind. -/
theorem StanzaLines.pin? {lead tail : List Char} (h : StanzaLines p stanza) (hlead : lead = [] ∨ lead = ['\n'])
    (htail : tail = [] ∨ tail = ['\n']) :
    stanzaPin? (lead ++ (['\n'].intercalate (stanza.map String.toList) ++ tail)) = some p := by
  obtain ⟨hne, hlines⟩ := h.solid
  obtain ⟨before, hbefore, hlead⟩ := exists_before hlead
  obtain ⟨behind, hbehind, htail⟩ := exists_behind htail
  rw [htail _ hne, hlead _ (List.append_ne_nil_of_left_ne_nil hne _)]
  refine stanzaPin?_lines h (h.gives.between hbefore hbehind) fun l hl => ?_
  rcases List.mem_append.1 hl with hl | hl
  · simp [hbefore l hl]
  · rcases List.mem_append.1 hl with hl | hl
    · exact (hlines l hl).2
    · simp [hbehind l hl]

theorem stanzas_solid {lead : List Char} {ls : List (List Char)} (hlead : lead = [] ∨ lead = ['\n'])
    (hls : Text.Solid ls) (r : List Char) :
    Text.stanzas (lead ++ (['\n'].intercalate ls ++ r)) =
      Text.stanzasFrom (lead ++ ['\n'].intercalate ls).reverse r := by
  rcases hlead with rfl | rfl
  · simpa [Text.stanzas] using hls.stanzasFrom_append [] r
  · rw [Text.stanzas, List.singleton_append, Text.stanzasFrom_feed (hls.intercalate_ne_feed r),
      hls.stanzasFrom_append]
    simp

/-- Stanza by stanza the pins are found. A line feed that is left over from an empty line may stand in front. -/
theorem Stanzas.filterMap_stanzas (h : Stanzas lines ps) : ∀ {lead : List Char}, lead = [] ∨ lead = ['\n'] →
    (Text.stanzas (lead ++ ['\n'].intercalate (lines.map String.toList))).filterMap stanzaPin? = ps := by
  induction h with
  | nil => rintro _ (rfl | rfl) <;> decide +kernel
  | @blank lines ps h ih =>
    intro lead hlead
    rw [List.map_cons, String.toList_empty]
    cases hlines : lines.map String.toList with
    | nil =>
      rw [hlines] at ih
      exact ih hlead
    | cons l ls =>
      rw [hlines] at ih
      rw [List.intercalate_cons_cons, List.nil_append]
      rcases hlead with rfl | rfl
      · exact ih (.inr rfl)
      · exact ih (.inl rfl)
  | @last p stanza h =>
    intro lead hlead
    have hpin := h.pin? hlead (.inl rfl)
    have hstanzas := stanzas_solid hlead h.solid []
    rw [List.append_nil] at hpin hstanzas
    rw [hstanzas, Text.stanzasFrom, List.reverse_reverse, List.filterMap_cons_some hpin, List.filterMap_nil]
  | @cons p stanza lines ps h _ ih =>
    intro lead hlead
    rw [List.map_append, intercalate_append h.solid.1 (by simp), List.map_cons, String.toList_empty,
      stanzas_solid hlead h.solid]
    cases hlines : lines.map String.toList with
    | nil =>
      rw [hlines] at ih
      have hps : ps = [] := (ih (.inl rfl)).symm
      have hpin := h.pin? hlead (.inr rfl)
      rw [List.intercalate_singleton, Text.stanzasFrom_feed (by simp), Text.stanzasFrom, List.reverse_cons,
        List.reverse_reverse, List.append_assoc, List.filterMap_cons_some hpin, List.filterMap_nil, hps]
    | cons l ls =>
      rw [hlines] at ih
      have hpin := h.pin? hlead (.inl rfl)
      rw [List.append_nil] at hpin
      rw [List.intercalate_cons_cons, List.nil_append, List.singleton_append, Text.stanzasFrom, List.reverse_reverse,
        List.filterMap_cons_some hpin]
      exact congrArg _ (ih (.inl rfl))

end PackageQuery

namespace Distribution

open PackageQuery

/-- An answer to a query is read as the pins that it tells of, one after the other. By the references to these, an
installer of APT is told the versions as they were answered. -/
theorem parseQueryOutput_answer {d : Distribution} {lines : List String} {ps : List Pin}
    (h : Output d.packageManager lines ps) :
    d.parseQueryOutput ("\n".intercalate lines) = ps ∧
      (d.packageManager = .apt → (d.parseQueryOutput ("\n".intercalate lines)).map (Pin.render d) =
        ps.map fun p => p.name ++ "=" ++ p.fullVersion) := by
  have hparse : d.parseQueryOutput ("\n".intercalate lines) = ps := by
    unfold parseQueryOutput
    cases hd : d.packageManager with
    | apt =>
      rw [hd] at h
      have := Stanzas.filterMap_stanzas h (.inl rfl)
      rwa [List.nil_append, ← toList_intercalate_feed] at this
    | yum =>
      rw [hd] at h
      exact Rows.filterMap_lines h (by decide) columnsPin?_concat_return (fun _ => columnsPin?_narrow)
        fun _ _ => ColumnsLine.read
    | apk =>
      rw [hd] at h
      exact Rows.filterMap_lines h (by decide) joinedPin?_concat_return (fun _ => joinedPin?_narrow)
        fun _ _ => JoinedLine.read
  refine ⟨hparse, fun hd => ?_⟩
  rw [hparse]
  exact List.map_congr_left fun p _ => p.render_apt hd

end Distribution

namespace Sample

open PackageQuery

/-- A package with a release and one without. -/
def packages : List Pin := [⟨"curl", "7.68.0", "1ubuntu2", "amd64"⟩, ⟨"tzdata", "2024a", "", "all"⟩]

/-- Stanzas with their lines in any order and empty lines around them. -/
def stanzas : List String :=
  ["", "Version: 7.68.0-1ubuntu2", "Depends: libc6", "Package: curl", "Architecture: amd64", "", "",
    "Package: tzdata", "Architecture: all", "Version: 2024a", ""]

theorem output_stanzas : Output Distribution.ubuntu.packageManager stanzas packages := by
  have hcurl : StanzaLines ⟨"curl", "7.68.0", "1ubuntu2", "amd64"⟩
      ["Version: 7.68.0-1ubuntu2", "Depends: libc6", "Package: curl", "Architecture: amd64"] :=
    ⟨⟨by decide, by decide, by decide⟩, .inr (by decide), ["Depends: libc6"],
      List.forall_mem_singleton.2 ⟨by decide, by decide, by decide +kernel⟩, by decide⟩
  have htzdata : StanzaLines ⟨"tzdata", "2024a", "", "all"⟩
      ["Package: tzdata", "Architecture: all", "Version: 2024a"] :=
    ⟨⟨by decide, by decide, by decide⟩, .inl (by decide), [], nofun, by decide⟩
  exact .blank (.cons hcurl (.blank (.cons htzdata .nil)))

/-- A package whose name has a hyphen. -/
def certificates : Pin := ⟨"ca-certificates", "20240226", "r0", "x86_64"⟩

/-- A line for a package between lines of one word and of none. -/
def apkLines : List String :=
  ["WARNING", "ca-certificates-20240226-r0 x86_64 \x7bca-certificates\x7d (MPL-2.0 AND MIT)", ""]

theorem output_apkLines : Output Distribution.alpine.packageManager apkLines [certificates] := by
  have hline : JoinedLine certificates
      "ca-certificates-20240226-r0 x86_64 \x7bca-certificates\x7d (MPL-2.0 AND MIT)" :=
    ⟨⟨by decide, by decide, by decide⟩, by decide, by decide,
      " \x7bca-certificates\x7d (MPL-2.0 AND MIT)", by decide, by decide, by rintro _ ⟨⟩; decide⟩
  exact .other (by decide) (by decide) (.row hline (.other (by decide) (by decide) .nil))

end Sample

/-- A release is found behind the last hyphen, and what has none keeps its version whole. -/
theorem Distribution.parseQueryOutput_answer_sample :
    ubuntu.parseQueryOutput ("\n".intercalate Sample.stanzas) = Sample.packages ∧
      (ubuntu.parseQueryOutput ("\n".intercalate Sample.stanzas)).map (Pin.render ubuntu) =
        ["curl=7.68.0-1ubuntu2", "tzdata=2024a"] ∧
      alpine.parseQueryOutput ("\n".intercalate Sample.apkLines) = [Sample.certificates] := by
  obtain ⟨hpins, hrender⟩ := parseQueryOutput_answer Sample.output_stanzas
  refine ⟨hpins, (hrender rfl).trans (by decide), (parseQueryOutput_answer Sample.output_apkLines).1⟩

end ImageRecipe
