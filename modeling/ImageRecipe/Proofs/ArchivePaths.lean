import ImageRecipe.Proofs.ArchiveBlocks
import ImageRecipe.Proofs.LocationTexts

/-! The paths in archives: a path that is spelled in its shortest form has the names that it had, and what a header
holds of a path, or what stands before it, is all of it. -/

namespace ImageRecipe

namespace Path

/-- Names that count wherever they stand in a path. -/
def Solid (ps : List (List Char)) : Prop := ∀ p ∈ ps, '/' ∉ p ∧ isIdle p = false

/-- Nothing, or a slash behind the last name. -/
def IsTail (tail : List Char) : Prop := tail = [] ∨ tail = ['/']

/-- The slash behind the last name of a path, if there is one. -/
def tailOf (path : String) : List Char := if path.toList.getLast? == some '/' then ['/'] else []

theorem isTail_ite (p : Prop) [Decidable p] : IsTail (if p then ['/'] else []) := by
  split
  · exact .inr rfl
  · exact .inl rfl

theorem isTail_tailOf (path : String) : IsTail (tailOf path) := isTail_ite _

theorem Solid.filter_eq {ps : List (List Char)} (h : Solid ps) : ps.filter (fun p => !isIdle p) = ps :=
  List.filter_eq_self.2 fun p hp => by rw [(h p hp).2]; rfl

theorem pieces_joinPieces_append {ps : List (List Char)} {tail : List Char} (ht : IsTail tail) (hne : ps ≠ [])
    (h : ∀ p ∈ ps, '/' ∉ p) : ∃ idle : List (List Char), pieces (joinPieces ps ++ tail) = ps ++ idle ∧
      idle.filter (fun p => !isIdle p) = [] := by
  rcases ht with rfl | rfl
  · exact ⟨[], by simpa using pieces_joinPieces hne h, rfl⟩
  · refine ⟨[[]], ?_, rfl⟩
    rw [pieces_append, pieces_joinPieces hne h]
    rfl

/-- Names with slashes between them lead where the names do. -/
theorem live_rawNames_joinPieces {ps : List (List Char)} {tail : List Char} (ht : IsTail tail) (hne : ps ≠ [])
    (h : ∀ p ∈ ps, '/' ∉ p) :
    RawPath.live (rawNames (String.ofList (joinPieces ps ++ tail))) = RawPath.live (ps.map encoded) := by
  obtain ⟨idle, hpieces, hidle⟩ := pieces_joinPieces_append ht hne h
  rw [rawNames_ofList, hpieces, List.map_append, RawPath.live_append, live_map_encoded idle, hidle, List.map_nil,
    List.append_nil]

/-- A relative path in its shortest form has the names that it is made of. The first one may be a dot. -/
theorem components_joinPieces {n : List Char} {r : List (List Char)} {tail : List Char} (ht : IsTail tail)
    (hn : '/' ∉ n) (hne : n ≠ []) (hr : Solid r) :
    components (String.ofList (joinPieces (n :: r) ++ tail)) = n :: r := by
  have hslash : ∀ p ∈ n :: r, '/' ∉ p := by
    intro p hp
    rcases List.mem_cons.1 hp with rfl | hp
    · exact hn
    · exact (hr p hp).1
  obtain ⟨idle, hpieces, hidle⟩ := pieces_joinPieces_append ht (List.cons_ne_nil n r) hslash
  have hnames : (r ++ idle).filter (fun p => !isIdle p) = r := by
    rw [List.filter_append, hr.filter_eq, hidle, List.append_nil]
  have hfirst : ∀ cs, joinPieces (n :: r) ++ tail ≠ '/' :: cs := by
    intro cs heq
    obtain ⟨c, n', rfl⟩ := List.exists_cons_of_ne_nil hne
    have hc : c = '/' := by
      cases r with
      | nil => exact (List.cons.inj heq).1
      | cons => exact (List.cons.inj heq).1
    exact hn (hc ▸ List.mem_cons_self)
  unfold components
  rw [String.toList_ofList]
  dsimp only
  split
  · next cs heq => exact absurd heq (hfirst cs)
  · rw [hpieces, List.cons_append]
    split
    · next heq =>
      obtain ⟨rfl, rfl⟩ := List.cons.inj heq
      rw [hnames]
    · next hdot =>
      have hidle : isIdle n = false := by
        unfold isIdle
        rw [Bool.or_eq_false_iff]
        refine ⟨by simpa using hne, ?_⟩
        rw [decide_eq_false_iff_not]
        rintro rfl
        exact hdot _ rfl
      rw [List.filter_cons_of_pos (by rw [hidle]; rfl), hnames]

/-- An absolute path in its shortest form has the names that it is made of. -/
theorem components_slash_joinPieces {r : List (List Char)} {tail : List Char} (ht : IsTail tail) (hr : Solid r) :
    components (String.ofList ('/' :: (joinPieces r ++ tail))) = ['/'] :: r := by
  have hnames : (pieces ('/' :: (joinPieces r ++ tail))).filter (fun p => !isIdle p) = r := by
    rw [pieces, List.filter_cons_of_neg (by simp [isIdle])]
    by_cases hne : r = []
    · subst hne
      rcases ht with rfl | rfl
      · rfl
      · rfl
    · obtain ⟨idle, hpieces, hidle⟩ := pieces_joinPieces_append ht hne fun p hp => (hr p hp).1
      rw [hpieces, List.filter_append, hr.filter_eq, hidle, List.append_nil]
  unfold components
  rw [String.toList_ofList]
  exact congrArg (['/'] :: ·) hnames

private theorem solid_filter_pieces (cs : List Char) {ps : List (List Char)} (h : ∀ p ∈ ps, p ∈ pieces cs) :
    Solid (ps.filter fun p => !isIdle p) := by
  intro p hp
  obtain ⟨hp, hidle⟩ := List.mem_filter.1 hp
  exact ⟨slash_notMem_of_mem_pieces (h p hp), by simpa using hidle⟩

private theorem exists_pieces_cons {cs : List Char} (hne : cs ≠ []) (hslash : ∀ r, cs = '/' :: r → False) :
    ∃ p r, pieces cs = p :: r ∧ p ≠ [] := by
  fun_cases pieces cs with
  | case1 => exact absurd rfl hne
  | case2 r => exact absurd rfl (hslash r)
  | case3 c r => exact ⟨[c], [], rfl, by simp⟩
  | case4 c r _ p ps => exact ⟨c :: p, ps, rfl, by simp⟩

/-- The names of a path: a slash and then names that count, or a name and then names that count. -/
theorem components_cases {path : String} (hne : path ≠ "") : (∃ r, components path = ['/'] :: r ∧ Solid r) ∨
    ∃ n r, components path = n :: r ∧ '/' ∉ n ∧ n ≠ [] ∧ Solid r := by
  generalize hnames : components path = names
  unfold components at hnames
  dsimp only at hnames
  split at hnames
  · exact .inl ⟨_, hnames.symm, solid_filter_pieces _ fun p hp => hp⟩
  · next hslash =>
    right
    obtain ⟨p, r, hpieces, hp⟩ := exists_pieces_cons (by simpa using hne) hslash
    split at hnames
    · next r heq =>
      refine ⟨['.'], _, hnames.symm, by decide, by decide, solid_filter_pieces path.toList fun p hp => ?_⟩
      rw [heq]
      exact List.mem_cons_of_mem _ hp
    · next hdot =>
      have hsolid : Solid ((pieces path.toList).filter fun p => !isIdle p) := solid_filter_pieces _ fun _ hp => hp
      rw [hpieces] at hdot hsolid hnames
      have hidle : isIdle p = false := by
        unfold isIdle
        rw [Bool.or_eq_false_iff, decide_eq_false_iff_not]
        exact ⟨by simpa using hp, fun heq => hdot _ (by rw [heq])⟩
      rw [List.filter_cons_of_pos (by rw [hidle]; rfl)] at hsolid hnames
      exact ⟨p, _, hnames.symm, (hsolid p List.mem_cons_self).1, hp,
        fun q hq => hsolid q (List.mem_cons_of_mem _ hq)⟩

theorem mem_of_mem_pieces {cs p : List Char} {c : Char} (hp : p ∈ pieces cs) (hc : c ∈ p) : c ∈ cs := by
  fun_induction pieces cs generalizing p with
  | case1 => simp_all
  | case2 r ih =>
    rcases List.mem_cons.1 hp with rfl | hp
    · simp at hc
    · exact List.mem_cons_of_mem _ (ih hp hc)
  | case3 c' r hc' hr ih => exact absurd hr (pieces_ne_nil r)
  | case4 c' r hc' q qs hr ih =>
    rw [hr] at ih
    rcases List.mem_cons.1 hp with rfl | hp
    · rcases List.mem_cons.1 hc with rfl | hc
      · exact List.mem_cons_self
      · exact List.mem_cons_of_mem _ (ih List.mem_cons_self hc)
    · exact List.mem_cons_of_mem _ (ih (List.mem_cons_of_mem _ hp) hc)

theorem mem_joinPieces {ps : List (List Char)} {c : Char} (h : c ∈ joinPieces ps) : c = '/' ∨ ∃ p ∈ ps, c ∈ p := by
  fun_induction joinPieces ps with
  | case1 => simp at h
  | case2 p => exact .inr ⟨p, by simp, h⟩
  | case3 p r hr ih =>
    rcases List.mem_append.1 h with h | h
    · exact .inr ⟨p, by simp, h⟩
    · rcases List.mem_cons.1 h with rfl | h
      · exact .inl rfl
      · rcases ih h with hslash | ⟨q, hq, hc⟩
        · exact .inl hslash
        · exact .inr ⟨q, by simp [hq], hc⟩

/-- The names of a path are taken from it. -/
theorem mem_of_mem_components {path : String} {p : List Char} {c : Char} (hp : p ∈ components path) (hc : c ∈ p) :
    c ∈ path.toList := by
  have hfilter : ∀ {ps : List (List Char)}, p ∈ ps.filter (fun p => !isIdle p) →
      (∀ q ∈ ps, q ∈ pieces path.toList) → c ∈ path.toList :=
    fun hp hps => mem_of_mem_pieces (hps p (List.mem_of_mem_filter hp)) hc
  generalize hnames : components path = names at hp
  unfold components at hnames
  dsimp only at hnames
  split at hnames
  · next r heq =>
    subst hnames
    rcases List.mem_cons.1 hp with rfl | hp
    · rw [List.mem_singleton.1 hc, heq]
      exact List.mem_cons_self
    · exact hfilter hp fun q hq => hq
  · split at hnames
    · next r heq =>
      subst hnames
      rcases List.mem_cons.1 hp with rfl | hp
      · exact mem_of_mem_pieces (heq ▸ List.mem_cons_self) hc
      · exact hfilter hp fun q hq => heq ▸ List.mem_cons_of_mem _ hq
    · subst hnames
      exact hfilter hp fun q hq => hq

end Path

namespace Archive

/-- The text that pieces of a path come to, behind others. -/
private theorem flatten_spelled (names : List (List Char)) : (∀ n ∈ names, n ≠ ['/']) →
    ∀ (pieces : List (List Char)) (slash : Bool), (names.foldl (fun (pieces, slash) name =>
      (pieces ++ (if slash then [['/'], name] else [name]), name ≠ ['/'])) (pieces, slash)).1.flatten =
      pieces.flatten ++ (if slash && !names.isEmpty then ['/'] else []) ++ Path.joinPieces names := by
  induction names with
  | nil => simp [Path.joinPieces]
  | cons n names ih =>
    intro hnames pieces slash
    have hn : decide (n ≠ ['/']) = true := decide_eq_true (hnames n (by simp))
    rw [List.foldl_cons]
    dsimp only
    rw [hn, ih (fun m hm => hnames m (by simp [hm]))]
    cases names with
    | nil => cases slash <;> simp [Path.joinPieces]
    | cons m names => cases slash <;> simp [Path.joinPieces]

private theorem flatten_tail (path : String) :
    (if path.toList.getLast? == some '/' then [['/']] else []).flatten = Path.tailOf path := by
  unfold Path.tailOf
  split <;> rfl

/-- A relative path is spelled by its names with slashes between them. -/
theorem flatten_spelling {path : String} {names : List (List Char)} (h : ∀ n ∈ names, n ≠ ['/']) :
    (spelling path names).flatten = Path.joinPieces names ++ Path.tailOf path := by
  have hnames := flatten_spelled names h [] false
  unfold spelling
  dsimp only
  rw [List.flatten_append, flatten_tail, hnames]
  simp

/-- An absolute path is spelled by a slash and its names with slashes between them. -/
theorem flatten_spelling_slash {path : String} {names : List (List Char)} (h : ∀ n ∈ names, n ≠ ['/']) :
    (spelling path (['/'] :: names)).flatten = '/' :: (Path.joinPieces names ++ Path.tailOf path) := by
  have hnames := flatten_spelled names h [['/']] false
  have hslash : decide (['/'] ≠ ['/']) = false := by decide
  unfold spelling
  rw [List.foldl_cons]
  dsimp only
  rw [hslash, List.flatten_append, flatten_tail]
  simp only [Bool.false_eq_true, if_false, List.nil_append]
  rw [hnames]
  simp

/-- A path in its shortest form. -/
def shortest (path : String) : String := String.ofList (spelling path (Path.components path)).flatten

theorem ne_slash {p : List Char} (h : '/' ∉ p) : p ≠ ['/'] := by
  rintro rfl
  simp at h

/-- The shortest form of a path has its names. -/
theorem components_shortest {path : String} (hne : path ≠ "") :
    Path.components (shortest path) = Path.components path := by
  unfold shortest
  rcases Path.components_cases hne with ⟨r, hr, hsolid⟩ | ⟨n, r, hr, hn, hnil, hsolid⟩
  · rw [hr, flatten_spelling_slash fun p hp => ne_slash (hsolid p hp).1]
    exact Path.components_slash_joinPieces (Path.isTail_tailOf path) hsolid
  · rw [hr, flatten_spelling]
    · exact Path.components_joinPieces (Path.isTail_tailOf path) hn hnil hsolid
    · intro p hp
      rcases List.mem_cons.1 hp with rfl | hp
      · exact ne_slash hn
      · exact ne_slash (hsolid p hp).1

theorem bytesOfChars_append (cs ds : List Char) : bytesOfChars (cs ++ ds) = bytesOfChars cs ++ bytesOfChars ds := by
  unfold bytesOfChars bytesOfText
  rw [String.ofList_append]
  exact FileName.ofText_append ..

/-- The shortest form of a path has no characters but those of the path. -/
theorem mem_of_mem_shortest {path : String} (hne : path ≠ "") {c : Char} (hc : c ∈ (shortest path).toList) :
    c ∈ path.toList ∨ c = '/' := by
  have htail : c ∈ Path.tailOf path → c = '/' := by
    intro h
    rcases Path.isTail_tailOf path with ht | ht
    · rw [ht] at h
      cases h
    · rw [ht] at h
      exact List.mem_singleton.1 h
  have hnames : ∀ {ps : List (List Char)}, (∀ p ∈ ps, p ∈ Path.components path) →
      c ∈ Path.joinPieces ps ++ Path.tailOf path → c ∈ path.toList ∨ c = '/' := by
    intro ps hps h
    rcases List.mem_append.1 h with h | h
    · rcases Path.mem_joinPieces h with h | ⟨p, hp, hc⟩
      · exact .inr h
      · exact .inl (Path.mem_of_mem_components (hps p hp) hc)
    · exact .inr (htail h)
  unfold shortest at hc
  rw [String.toList_ofList] at hc
  rcases Path.components_cases hne with ⟨r, hr, hsolid⟩ | ⟨n, r, hr, hn, hnil, hsolid⟩
  · rw [hr, flatten_spelling_slash fun p hp => ne_slash (hsolid p hp).1, List.mem_cons] at hc
    rcases hc with hc | hc
    · exact .inr hc
    · exact hnames (fun p hp => by rw [hr]; exact List.mem_cons_of_mem _ hp) hc
  · rw [flatten_spelling] at hc
    · exact hnames (fun p hp => hp) hc
    · rw [hr]
      intro p hp
      rcases List.mem_cons.1 hp with rfl | hp
      · exact ne_slash hn
      · exact ne_slash (hsolid p hp).1

/-- Pieces that all have room are put behind each other. -/
theorem place_eq_true : ∀ {room : Nat} {ps : List (List Char)} {bs : List UInt8}, place room ps = (bs, true) →
    bs = bytesOfChars ps.flatten ∧ bs.length ≤ room ∧ 0 ∉ bs
  | room, [], bs, h => by
    obtain rfl : [] = bs := (Prod.mk.inj h).1
    exact ⟨FileName.ofText_empty.symm, Nat.zero_le _, by simp⟩
  | room, p :: ps, bs, h => by
    rw [place] at h
    split at h
    · cases h
    · next hroom =>
      rw [Bool.or_eq_true, not_or, decide_eq_true_eq, List.contains_iff_mem] at hroom
      rcases hrest : place (room - (bytesOfChars p).length) ps with ⟨rest, whole⟩
      rw [hrest] at h
      obtain ⟨rfl, rfl⟩ := Prod.mk.inj h
      obtain ⟨rfl, hl, hz⟩ := place_eq_true hrest
      refine ⟨?_, by rw [List.length_append]; omega, ?_⟩
      · rw [List.flatten_cons, bytesOfChars_append]
      · rw [List.mem_append, not_or]
        exact ⟨hroom.2, hz⟩

end Archive

/-! Paths of entries. -/

/-- A name that a file can have and that spells a text. -/
structure FileName.Written (n : FileName) : Prop extends FileName.Proper n where
  exists_text : ∃ s, n = ofText s
  nul_notMem : 0 ∉ n
  length_le : n.length ≤ FileTree.nameLimit

namespace FileName.Written

instance (n : FileName) : Decidable n.Written :=
  decidable_of_iff (n.Proper ∧ ofText n.text = n ∧ 0 ∉ n ∧ n.length ≤ FileTree.nameLimit)
    ⟨fun h => ⟨h.1, ⟨_, h.2.1.symm⟩, h.2.2.1, h.2.2.2⟩,
      fun ⟨hp, ⟨s, hs⟩, hz, hl⟩ => ⟨hp, by rw [hs, text_ofText], hz, hl⟩⟩

variable {n : FileName} (h : n.Written)

include h

theorem ofText_text : ofText n.text = n := by
  obtain ⟨s, rfl⟩ := h.exists_text
  rw [text_ofText]

/-- The text of a name counts in a path and does not lead upwards. -/
theorem toList_text : '/' ∉ n.text.toList ∧ Path.isIdle n.text.toList = false ∧ n.text.toList ≠ ['.', '.'] := by
  have htext := h.ofText_text
  refine ⟨slash_notMem_text h.slash_notMem, ?_, fun hup => ?_⟩
  · unfold Path.isIdle
    rw [Bool.or_eq_false_iff, decide_eq_false_iff_not]
    refine ⟨?_, fun hdot => h.ne_here ?_⟩
    · rw [List.isEmpty_eq_false_iff]
      intro hnil
      have hempty : n.text = "" := by simpa using hnil
      exact h.ne_nil (by rw [← htext, hempty, ofText_empty])
    · have hdot : n.text = "." := String.toList_inj.1 (hdot.trans (by decide))
      rw [← htext, hdot]
      decide +kernel
  · have hup : n.text = ".." := String.toList_inj.1 (hup.trans (by decide))
    refine h.ne_up ?_
    rw [← htext, hup]
    decide +kernel

end FileName.Written

namespace Location

/-- The texts of the names of a place. -/
def chars (l : Location) : List (List Char) := l.map fun n => n.text.toList

/-- The path of what lies at a place, with a slash behind it or none. -/
def path (l : Location) (tail : List Char) : String := String.ofList (Path.joinPieces l.chars ++ tail)

theorem text_eq_path (l : Location) : l.text = l.path [] := by
  unfold path
  rw [List.append_nil, ← String.toList_inj, String.toList_ofList]
  exact l.toList_text

variable {l : Location} {tail : List Char} (hl : ∀ n ∈ l, n.Written)

include hl

private theorem mem_chars {p : List Char} (hp : p ∈ l.chars) :
    '/' ∉ p ∧ Path.isIdle p = false ∧ p ≠ ['.', '.'] := by
  obtain ⟨n, hn, rfl⟩ := List.mem_map.1 hp
  exact (hl n hn).toList_text

theorem solid_chars : Path.Solid l.chars := fun _ hp => ⟨(mem_chars hl hp).1, (mem_chars hl hp).2.1⟩

variable (hne : l ≠ [])

include hne

/-- The last character of a path without a slash behind it is none. -/
private theorem exists_last : ∃ cs c, Path.joinPieces l.chars = cs ++ [c] ∧ c ≠ '/' := by
  have hsolid := solid_chars hl
  have hchars : l.chars ≠ [] := by simpa [chars] using hne
  generalize l.chars = ps at hsolid hchars
  have hpiece : ∀ p ∈ ps, ∃ cs c, p = cs ++ [c] ∧ c ≠ '/' := by
    intro p hp
    obtain ⟨hslash, hidle⟩ := hsolid p hp
    have hnil : p ≠ [] := by
      rintro rfl
      cases hidle
    refine ⟨p.dropLast, p.getLast hnil, (List.dropLast_append_getLast hnil).symm, ?_⟩
    rintro hc
    exact hslash (hc ▸ List.getLast_mem hnil)
  fun_induction Path.joinPieces ps with
  | case1 => exact absurd rfl hchars
  | case2 p => exact hpiece p (by simp)
  | case3 p r hr ih =>
    obtain ⟨cs, c, hcs, hc⟩ := ih (fun q hq => hsolid q (by simp [hq])) hr fun q hq => hpiece q (by simp [hq])
    exact ⟨p ++ '/' :: cs, c, by rw [hcs]; simp, hc⟩

theorem tailOf_path (ht : Path.IsTail tail) : Path.tailOf (l.path tail) = tail := by
  obtain ⟨cs, c, hcs, hc⟩ := exists_last hl hne
  unfold Path.tailOf path
  rw [String.toList_ofList, hcs]
  rcases ht with rfl | rfl
  · simp [hc]
  · simp

/-- The path of a directory in an archive. -/
theorem directoryPath_path : LayerOptions.directoryPath (l.path []) = l.path ['/'] := by
  obtain ⟨cs, c, hcs, hc⟩ := exists_last hl hne
  unfold LayerOptions.directoryPath path
  rw [String.toList_ofList, hcs, List.append_nil, List.reverse_append, List.reverse_singleton, List.singleton_append,
    List.dropWhile_cons_of_neg (by simpa using hc)]
  simp

theorem components_path (ht : Path.IsTail tail) : Path.components (l.path tail) = l.chars := by
  have hsolid := solid_chars hl
  have hchars : l.chars ≠ [] := by simpa [chars] using hne
  unfold path
  generalize l.chars = ps at hsolid hchars
  obtain ⟨p, r, rfl⟩ := List.exists_cons_of_ne_nil hchars
  refine Path.components_joinPieces ht (hsolid p (by simp)).1 ?_ fun q hq => hsolid q (by simp [hq])
  rintro rfl
  cases (hsolid [] (by simp)).2

/-- The path of an entry leads by the names of its place. -/
theorem live_rawNames_path (ht : Path.IsTail tail) : RawPath.live (Path.rawNames (l.path tail)) = l := by
  have hchars : l.chars ≠ [] := by simpa [chars] using hne
  have hnames : l.chars.map Path.encoded = l := by
    unfold chars
    rw [List.map_map]
    refine (List.map_congr_left fun n hn => ?_).trans (List.map_id l)
    exact (FileName.ofText_eq_flatMap n.text).symm.trans (hl n hn).ofText_text
  unfold path
  rw [Path.live_rawNames_joinPieces ht hchars fun p hp => (mem_chars hl hp).1, Path.live_map_encoded,
    (solid_chars hl).filter_eq, hnames]

theorem shortest_path (ht : Path.IsTail tail) : Archive.shortest (l.path tail) = l.path tail := by
  unfold Archive.shortest
  rw [components_path hl hne ht, Archive.flatten_spelling, tailOf_path hl hne ht]
  · rfl
  · intro p hp
    exact Archive.ne_slash (mem_chars hl hp).1

theorem memberNames?_path (ht : Path.IsTail tail) : Archive.memberNames? false (l.path tail) = some l.chars := by
  have hmem : ∀ p ∈ l.chars, _ := fun p hp => mem_chars hl hp
  have hchars : l.chars ≠ [] := by simpa [chars] using hne
  unfold Archive.memberNames?
  rw [components_path hl hne ht]
  generalize l.chars = ps at hmem hchars
  have hkept : ps.filter (fun n => n ≠ ['.']) = ps := by
    refine List.filter_eq_self.2 fun p hp => ?_
    rw [decide_eq_true_eq]
    rintro rfl
    cases (hmem _ hp).2.1
  have hup : ps.contains ['.', '.'] = false := by
    rw [← Bool.not_eq_true, List.contains_iff_mem]
    exact fun hp => (hmem _ hp).2.2 rfl
  have hslash : (ps.head? == some ['/']) = false := by
    rw [← Bool.not_eq_true, beq_iff_eq]
    exact fun hp => (hmem _ (List.mem_of_mem_head? hp)).1 (by simp)
  split
  · next h => exact absurd rfl hchars
  · next h => cases (hmem ['.'] (by simp)).2.1
  · simp only [Bool.false_eq_true, if_false, hup, hslash, Bool.or_self, hkept]

/-- What stands before a member's header for the path of an entry, and what the header holds of it, is all of it. -/
theorem pathFields_path (ht : Path.IsTail tail) {start name : List UInt8}
    (h : Archive.pathFields (l.path tail) = .ok (start, name)) :
    (start = [] ∧ name = FileName.ofText (l.path tail) ∧ name.length ≤ Archive.nameSize) ∨
      start = Archive.longName 0x4c (FileName.ofText (l.path tail)) := by
  have hshortest := shortest_path hl hne ht
  unfold Archive.shortest at hshortest
  rw [components_path hl hne ht] at hshortest
  unfold Archive.pathFields at h
  simp only [memberNames?_path hl hne ht] at h
  rcases hplace : Archive.place Archive.nameSize (Archive.spelling (l.path tail) l.chars) with ⟨bs, fits⟩
  simp only [hplace] at h
  cases fits with
  | true =>
    obtain ⟨rfl, rfl⟩ := Prod.mk.inj (Except.ok.inj h)
    obtain ⟨hbs, hlength, -⟩ := Archive.place_eq_true hplace
    refine .inl ⟨rfl, ?_, hlength⟩
    rw [hbs]
    exact congrArg FileName.ofText hshortest
  | false =>
    rw [if_neg Bool.false_ne_true] at h
    split_ifs at h
    exact .inr (Prod.mk.inj (Except.ok.inj h)).1.symm

end Location

namespace Archive

/-- The target that is stored for a link: in its shortest form if that has room in a header. -/
def storedTarget (target : String) : String :=
  if (targetFields target).1 = [] then shortest target else target

theorem components_storedTarget {target : String} (hne : target ≠ "") :
    Path.components (storedTarget target) = Path.components target := by
  unfold storedTarget
  split
  · exact components_shortest hne
  · rfl

/-- What stands before a link's header for its target, and what the header holds of it. -/
theorem targetFields_cases (target : String) :
    ((targetFields target).1 = [] ∧ (targetFields target).2 = FileName.ofText (storedTarget target) ∧
      (targetFields target).2.length ≤ nameSize) ∨
    ((targetFields target).1 = longName 0x4b (FileName.ofText target) ∧ storedTarget target = target) := by
  unfold storedTarget targetFields
  dsimp only
  rcases hplace : place nameSize (spelling target (Path.components target)) with ⟨bs, fits⟩
  cases fits with
  | true =>
    obtain ⟨hbs, hlength, -⟩ := place_eq_true hplace
    exact .inl ⟨rfl, hbs, hlength⟩
  | false => exact .inr ⟨rfl, if_neg (longName_ne_nil _ _)⟩

/-- The target that is stored for a link may be used if the link's target may. -/
theorem checkPath_storedTarget {target : String} (h : FileTree.checkPath (FileName.ofText target) = .ok ()) :
    FileTree.checkPath (FileName.ofText (storedTarget target)) = .ok () := by
  have hparts : ∀ bs : List UInt8, FileTree.checkPath bs = .ok () ↔
      bs ≠ [] ∧ 0 ∉ bs ∧ bs.length < FileTree.pathLimit := by
    intro bs
    unfold FileTree.checkPath
    split_ifs with hnil hzero hlong <;> simp_all
  rw [hparts] at h ⊢
  obtain ⟨hnil, hzero, hlength⟩ := h
  have hne : target ≠ "" := by
    rintro rfl
    exact hnil FileName.ofText_empty
  have hstored : storedTarget target ≠ "" := by
    intro heq
    have hnames := components_storedTarget hne
    have hempty : Path.components "" = [] := by decide +kernel
    rw [heq, hempty] at hnames
    rcases Path.components_cases hne with ⟨r, hr, -⟩ | ⟨n, r, hr, -⟩
    · exact List.cons_ne_nil _ _ (hnames.trans hr).symm
    · exact List.cons_ne_nil _ _ (hnames.trans hr).symm
  refine ⟨fun heq => hstored (FileName.ofText_injective (heq.trans FileName.ofText_empty.symm)), fun hz => ?_, ?_⟩
  · have hc := FileName.zero_mem_ofText hz
    have hm : '\x00' ∈ target.toList := by
      unfold storedTarget at hc
      split at hc
      · exact (mem_of_mem_shortest hne hc).resolve_right (by decide)
      · exact hc
    apply hzero
    rw [FileName.ofText_eq_flatMap]
    exact List.mem_flatMap.2 ⟨_, hm, by decide⟩
  · rcases targetFields_cases target with ⟨-, htext, hl⟩ | ⟨-, hsame⟩
    · rw [← htext]
      exact hl.trans_lt (by decide)
    · rwa [hsame]

end Archive

end ImageRecipe
