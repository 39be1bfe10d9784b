import Mathlib.Data.List.TakeWhile
import ImageRecipe.Files.Tree
import ImageRecipe.Store.Layout
import ImageRecipe.Proofs.Bytes

/-! The names on a path: what joining and cutting off do to them, and the place that a path names as long as
no link is on the way and it never leads upwards. -/

namespace ImageRecipe

namespace RawPath

theorem names_ne_nil (p : RawPath) : names p ≠ [] := by
  cases p with
  | nil => simp [names]
  | cons b r =>
    unfold names
    split
    · simp
    · split <;> simp

private theorem names_cons_of_ne {b : UInt8} (h : b ≠ slash) (p : RawPath) :
    names (b :: p) = (names p).modifyHead (b :: ·) := by
  have hn := names_ne_nil p
  rw [names, if_neg h]
  revert hn
  cases names p <;> simp

/-- A slash parts the names before it from the names behind it. -/
theorem names_append_slash (p q : RawPath) : names (p ++ slash :: q) = names p ++ names q := by
  induction p with
  | nil => simp [names]
  | cons b r ih =>
    by_cases h : b = slash
    · subst h
      simp [names, ih]
    · rw [List.cons_append, names_cons_of_ne h, names_cons_of_ne h, ih]
      have hn := names_ne_nil r
      revert hn
      cases names r <;> simp

theorem names_append_of_slash_notMem {p : RawPath} (h : slash ∉ p) (q : RawPath) :
    names (p ++ q) = (names q).modifyHead (p ++ ·) := by
  induction p with
  | nil => cases hq : names q <;> simp [hq]
  | cons b r ih =>
    rw [List.mem_cons, not_or] at h
    rw [List.cons_append, names_cons_of_ne (Ne.symm h.1), ih h.2, List.modifyHead_modifyHead]
    rfl

theorem names_of_slash_notMem {p : RawPath} (h : slash ∉ p) : names p = [p] := by
  have := names_append_of_slash_notMem h []
  simpa [names] using this

/-- What follows the last slash of a path belongs to its last name. -/
theorem names_append_last (p : RawPath) {q : RawPath} (h : slash ∉ q) :
    ∃ front n, names (p ++ q) = front ++ [n ++ q] ∧ slash ∉ n := by
  induction p with
  | nil => exact ⟨[], [], by simp [names_of_slash_notMem h], by simp⟩
  | cons b r ih =>
    obtain ⟨front, n, hn, hs⟩ := ih
    by_cases hb : b = slash
    · subst hb
      exact ⟨[] :: front, n, by simp [names, hn], hs⟩
    · rw [List.cons_append, names_cons_of_ne hb, hn]
      cases front with
      | nil => exact ⟨[], b :: n, by simp, by simp [hs, Ne.symm hb]⟩
      | cons m front => exact ⟨(b :: m) :: front, n, by simp, hs⟩

theorem ofNames_append : ∀ {p q : List FileName}, p ≠ [] → q ≠ [] → ofNames (p ++ q) = ofNames p ++ slash :: ofNames q
  | [], _, hp, _ => absurd rfl hp
  | [_], _ :: _, _, _ => rfl
  | n :: m :: p, q, _, hq => by
    have hrest := ofNames_append (List.cons_ne_nil m p) hq
    change n ++ slash :: ofNames (m :: p ++ q) = (n ++ slash :: ofNames (m :: p)) ++ slash :: ofNames q
    rw [hrest, List.append_assoc]
    rfl

/-- The names that lead somewhere else. -/
def live (ns : List FileName) : Location := ns.filter fun n => n ≠ [] && n ≠ FileName.here

@[simp] theorem live_nil : live [] = [] := rfl

@[simp] theorem live_append (ms ns : List FileName) : live (ms ++ ns) = live ms ++ live ns :=
  List.filter_append ..

end RawPath

/-- A name that leads from a directory to something in it. -/
structure FileName.Proper (n : FileName) : Prop where
  ne_nil : n ≠ []
  ne_here : n ≠ FileName.here
  ne_up : n ≠ FileName.up
  slash_notMem : RawPath.slash ∉ n

namespace FileName.Proper

instance (n : FileName) : Decidable n.Proper :=
  decidable_of_iff (n ≠ [] ∧ n ≠ FileName.here ∧ n ≠ FileName.up ∧ RawPath.slash ∉ n)
    ⟨fun h => ⟨h.1, h.2.1, h.2.2.1, h.2.2.2⟩, fun h => ⟨h.ne_nil, h.ne_here, h.ne_up, h.slash_notMem⟩⟩

theorem live_singleton {n : FileName} (h : n.Proper) : RawPath.live [n] = [n] := by
  simp [RawPath.live, h.ne_nil, h.ne_here]

/-- A name with a character that a dot is not. -/
theorem of_mem {n : FileName} {b : UInt8} (hs : RawPath.slash ∉ n) (hb : b ∈ n) (h : b ≠ 0x2e) :
    n.Proper where
  ne_nil := by
    rintro rfl
    simp at hb
  ne_here := by
    rintro rfl
    simp [FileName.here, h] at hb
  ne_up := by
    rintro rfl
    simp [FileName.up, h] at hb
  slash_notMem := hs

end FileName.Proper

namespace Path

/-- The names of a path. -/
def rawNames (path : String) : List FileName := RawPath.names (RawPath.ofText path)

/-- A path that nowhere leads to an outer directory. -/
def StaysBelow (path : String) : Prop := FileName.up ∉ rawNames path

/-- The place that a path names, seen from a directory, if no link is on the way. -/
def named (d : Location) (path : String) : Location :=
  (if RawPath.isAbsolute (RawPath.ofText path) then [] else d) ++ RawPath.live (rawNames path)

theorem isAbsolute_eq_false {name : String} (h : RawPath.slash ∉ FileName.ofText name) :
    isAbsolute name = false := by
  unfold isAbsolute
  rw [FileName.ofText_eq_flatMap] at h
  cases hl : name.toList with
  | nil => rfl
  | cons c r =>
    simp only [List.head?_cons, beq_eq_false_iff_ne, ne_eq, Option.some.injEq]
    rintro rfl
    exact h (by simp [hl, RawPath.slash, String.utf8EncodeChar])

/-- A relative path taken from a base has the names of the base and then its own. A slash that the base ends in
makes no name. -/
theorem rawNames_join_of_relative (base : String) {path : String} (h : isAbsolute path = false) :
    ∃ front rest, rawNames base = front ++ rest ∧ (rest = [] ∨ rest = [[]]) ∧
      rawNames (join base path) = front ++ rawNames path := by
  unfold join rawNames RawPath.ofText
  rw [h, if_neg (by simp)]
  split
  · next hb =>
    rw [Bool.or_eq_true] at hb
    rcases hb with hb | hb
    · have : base = "" := by simpa using hb
      subst this
      exact ⟨[], [[]], by simp [RawPath.names], .inr rfl, by simp⟩
    · obtain ⟨l, hl⟩ : ∃ l, base.toList = l ++ ['/'] := List.getLast?_eq_some_iff.1 (by simpa using hb)
      have hbytes : FileName.ofText base = FileName.ofText (String.ofList l) ++ RawPath.slash :: [] := by
        rw [FileName.ofText_eq_flatMap base, hl, FileName.ofText_ofList]
        simp [RawPath.slash, String.utf8EncodeChar]
      refine ⟨RawPath.names (FileName.ofText (String.ofList l)), [[]], ?_, .inr rfl, ?_⟩
      · rw [hbytes, RawPath.names_append_slash]
        simp [RawPath.names]
      · rw [FileName.ofText_append, hbytes, List.append_assoc, List.cons_append, List.nil_append,
          RawPath.names_append_slash]
  · refine ⟨RawPath.names (FileName.ofText base), [], (List.append_nil _).symm, .inl rfl, ?_⟩
    have hslash : FileName.ofText "/" = [RawPath.slash] := by decide +kernel
    rw [FileName.ofText_append, FileName.ofText_append, hslash, List.append_assoc, List.singleton_append,
      RawPath.names_append_slash]

/-- A path taken from a base ends in its own names. -/
theorem rawNames_suffix_join (base path : String) : rawNames path <:+ rawNames (join base path) := by
  cases h : isAbsolute path
  · obtain ⟨front, -, -, -, hf⟩ := rawNames_join_of_relative base h
    exact ⟨front, hf.symm⟩
  · exact ⟨[], by simp [join, h]⟩

theorem exists_rawNames_join (base : String) {path : String} {n : FileName}
    (h : ∃ front, rawNames path = front ++ [n]) : ∃ front, rawNames (join base path) = front ++ [n] := by
  obtain ⟨front, hfront⟩ := h
  obtain ⟨x, hx⟩ := rawNames_suffix_join base path
  rw [hfront] at hx
  exact ⟨x ++ front, by rw [← hx, List.append_assoc]⟩

theorem rawNames_join_name (base : String) {name : String} (h : RawPath.slash ∉ FileName.ofText name) :
    ∃ front rest, rawNames base = front ++ rest ∧ (rest = [] ∨ rest = [[]]) ∧
      rawNames (join base name) = front ++ [FileName.ofText name] := by
  obtain ⟨front, rest, hbase, hrest, hf⟩ := rawNames_join_of_relative base (isAbsolute_eq_false h)
  refine ⟨front, rest, hbase, hrest, ?_⟩
  rw [hf, rawNames, RawPath.ofText, RawPath.names_of_slash_notMem h]

theorem rawNames_join (base : String) {name : String} (h : RawPath.slash ∉ FileName.ofText name) :
    ∃ front, rawNames (join base name) = front ++ [FileName.ofText name] ∧
      RawPath.live front = RawPath.live (rawNames base) ∧
      (FileName.up ∈ front ↔ FileName.up ∈ rawNames base) := by
  obtain ⟨front, rest, hbase, hrest, hf⟩ := rawNames_join_name base h
  refine ⟨front, hf, ?_, ?_⟩
  · rw [hbase]
    rcases hrest with rfl | rfl <;> simp [RawPath.live]
  · rw [hbase]
    rcases hrest with rfl | rfl <;> simp [FileName.up]

private theorem slash_notMem_encoded {c : Char} (h : c ≠ '/') :
    RawPath.slash ∉ String.utf8EncodeChar c := by
  intro hm
  exact h (mem_utf8EncodeChar (d := '/') (by decide) hm)

theorem isAbsolute_ofText (path : String) :
    RawPath.isAbsolute (RawPath.ofText path) = isAbsolute path := by
  unfold RawPath.isAbsolute RawPath.ofText isAbsolute
  rw [FileName.ofText_eq_flatMap]
  cases path.toList with
  | nil => rfl
  | cons c r =>
    by_cases hc : c = '/'
    · subst hc
      rfl
    · have := slash_notMem_encoded hc
      have hne := String.utf8EncodeChar_ne_nil (c := c)
      revert this hne
      rw [List.flatMap_cons]
      cases String.utf8EncodeChar c with
      | nil => simp
      | cons b bs =>
        intro hb _
        rw [List.mem_cons, not_or] at hb
        simp [hc, Ne.symm hb.1]

/-- A relative path taken from a base is absolute just if the base is. -/
theorem isAbsolute_join_of_relative (base : String) {path : String} (h : isAbsolute path = false) :
    RawPath.isAbsolute (RawPath.ofText (join base path)) = RawPath.isAbsolute (RawPath.ofText base) := by
  have happ : ∀ s : String, base ≠ "" → RawPath.isAbsolute (FileName.ofText (base ++ s)) =
      RawPath.isAbsolute (FileName.ofText base) := by
    intro s hne
    have : FileName.ofText base ≠ [] := by
      intro hnil
      apply hne
      exact FileName.ofText_injective (hnil.trans FileName.ofText_empty.symm)
    unfold RawPath.isAbsolute
    rw [FileName.ofText_append]
    revert this
    cases FileName.ofText base <;> simp
  unfold join
  rw [h, if_neg (by simp)]
  by_cases hb : base = ""
  · subst hb
    have hempty : isAbsolute "" = false := rfl
    rw [isAbsolute_ofText "", hempty]
    simpa [isAbsolute_ofText] using h
  · unfold RawPath.ofText
    split
    · exact happ path hb
    · rw [String.append_assoc]
      exact happ _ hb

theorem isAbsolute_join (base : String) {name : String} (h : RawPath.slash ∉ FileName.ofText name) :
    RawPath.isAbsolute (RawPath.ofText (join base name)) =
      RawPath.isAbsolute (RawPath.ofText base) := isAbsolute_join_of_relative base (isAbsolute_eq_false h)

theorem named_join (d : Location) (base : String) {name : String} (h : (FileName.ofText name).Proper) :
    named d (join base name) = named d base ++ [FileName.ofText name] := by
  obtain ⟨front, hf, hl, -⟩ := rawNames_join base h.slash_notMem
  unfold named
  rw [isAbsolute_join base h.slash_notMem, hf, RawPath.live_append, hl, h.live_singleton,
    List.append_assoc]

theorem staysBelow_join (base : String) {name : String} (h : (FileName.ofText name).Proper) :
    StaysBelow (join base name) ↔ StaysBelow base := by
  obtain ⟨front, hf, -, hu⟩ := rawNames_join base h.slash_notMem
  unfold StaysBelow
  rw [hf, List.mem_append, hu, List.mem_singleton]
  simp [Ne.symm h.ne_up]

/-! Cutting a path off. -/

/-- The bytes of a piece of a path. -/
def encoded (piece : List Char) : FileName := piece.flatMap String.utf8EncodeChar

private theorem encoded_injective {p q : List Char} (h : encoded p = encoded q) : p = q := by
  unfold encoded at h
  rw [← FileName.ofText_ofList, ← FileName.ofText_ofList] at h
  exact String.ofList_injective (FileName.ofText_injective h)

theorem pieces_ne_nil (cs : List Char) : pieces cs ≠ [] := by
  fun_cases pieces cs with
  | case1 => simp
  | case2 => simp
  | case3 => simp
  | case4 => simp

private theorem names_encoded (cs : List Char) : RawPath.names (encoded cs) = (pieces cs).map encoded := by
  fun_induction pieces cs with
  | case1 => rfl
  | case2 r ih =>
    have hs : encoded ('/' :: r) = [] ++ RawPath.slash :: encoded r := rfl
    rw [hs, RawPath.names_append_slash, ih]
    rfl
  | case3 c r hc hr ih => exact absurd hr (pieces_ne_nil r)
  | case4 c r hc p ps hr ih =>
    have hs : encoded (c :: r) = String.utf8EncodeChar c ++ encoded r := rfl
    rw [hs, RawPath.names_append_of_slash_notMem (slash_notMem_encoded hc), ih, hr]
    rfl

theorem rawNames_ofList (cs : List Char) : rawNames (String.ofList cs) = (pieces cs).map encoded := by
  unfold rawNames RawPath.ofText
  rw [FileName.ofText_ofList]
  exact names_encoded cs

theorem rawNames_eq (path : String) : rawNames path = (pieces path.toList).map encoded := by
  rw [← rawNames_ofList, String.ofList_toList]

theorem live_map_encoded (ps : List (List Char)) :
    RawPath.live (ps.map encoded) = (ps.filter fun p => !isIdle p).map encoded := by
  unfold RawPath.live
  rw [List.filter_map]
  congr 1
  apply List.filter_congr
  intro p _
  have hnil : encoded p = [] ↔ p = [] := by
    constructor
    · intro h
      exact encoded_injective h
    · rintro rfl
      rfl
  have hdot : encoded p = FileName.here ↔ p = ['.'] := by
    constructor
    · intro h
      exact encoded_injective (h.trans (by decide))
    · rintro rfl
      decide
  rw [Bool.eq_iff_iff]
  simp [isIdle, hnil, hdot]

theorem slash_notMem_of_mem_pieces {cs p : List Char} (h : p ∈ pieces cs) : '/' ∉ p := by
  revert p
  fun_induction pieces cs with
  | case1 =>
    intro p hp
    simp only [List.mem_singleton] at hp
    simp [hp]
  | case2 r ih =>
    intro p hp
    rcases List.mem_cons.1 hp with rfl | hp
    · simp
    · exact ih hp
  | case3 c r hc hr ih => exact absurd hr (pieces_ne_nil r)
  | case4 c r hc q qs hr ih =>
    intro p hp
    rw [hr] at ih
    rcases List.mem_cons.1 hp with rfl | hp
    · have := ih (List.mem_cons_self ..)
      simp [this, Ne.symm hc]
    · exact ih (List.mem_cons_of_mem _ hp)

private theorem pieces_append_slash {p : List Char} (h : '/' ∉ p) (cs : List Char) :
    pieces (p ++ '/' :: cs) = p :: pieces cs := by
  induction p with
  | nil => simp [pieces]
  | cons c r ih =>
    rw [List.mem_cons, not_or] at h
    rw [List.cons_append, pieces, ih h.2]
    exact Ne.symm h.1

private theorem pieces_of_slash_notMem {p : List Char} (h : '/' ∉ p) : pieces p = [p] := by
  induction p with
  | nil => rfl
  | cons c r ih =>
    rw [List.mem_cons, not_or] at h
    rw [pieces, ih h.2]
    exact Ne.symm h.1

theorem pieces_joinPieces {ps : List (List Char)} (hne : ps ≠ []) (h : ∀ p ∈ ps, '/' ∉ p) :
    pieces (joinPieces ps) = ps := by
  fun_induction joinPieces ps with
  | case1 => exact absurd rfl hne
  | case2 p => exact pieces_of_slash_notMem (h p (by simp))
  | case3 p r hr ih =>
    rw [pieces_append_slash (h p (by simp)), ih hr fun q hq => h q (by simp [hq])]

/-- Idle pieces at the end lead nowhere, and what stays are pieces of the path or a dot. -/
private theorem dropIdle_spec (absolute : Bool) (ps : List (List Char)) :
    (dropIdle absolute ps).filter (fun p => !isIdle p) = ps.filter (fun p => !isIdle p) ∧
      (dropIdle absolute ps <+: ps ∨ dropIdle absolute ps = [['.']]) := by
  have hkept : ∃ idle, (ps.reverse.dropWhile isIdle).reverse ++ idle = ps ∧
      idle.filter (fun p => !isIdle p) = [] := by
    refine ⟨(ps.reverse.takeWhile isIdle).reverse, ?_, ?_⟩
    · rw [← List.reverse_append, List.takeWhile_append_dropWhile, List.reverse_reverse]
    · rw [List.filter_eq_nil_iff]
      intro p hp
      have := List.mem_takeWhile_imp (List.mem_reverse.1 hp)
      simp [this]
  obtain ⟨idle, hps, hidle⟩ := hkept
  unfold dropIdle
  simp only
  generalize (ps.reverse.dropWhile isIdle).reverse = kept at hps
  have hfilter : ps.filter (fun p => !isIdle p) = kept.filter (fun p => !isIdle p) := by
    rw [← hps, List.filter_append, hidle, List.append_nil]
  split
  · next r =>
    rw [hfilter]
    cases absolute
    · exact ⟨rfl, .inr rfl⟩
    · exact ⟨rfl, .inl (List.nil_prefix)⟩
  · exact ⟨hfilter.symm, .inl ⟨idle, hps⟩⟩

private theorem mem_dropIdle {absolute : Bool} {ps : List (List Char)} {p : List Char}
    (h : p ∈ dropIdle absolute ps) : p ∈ ps ∨ p = ['.'] := by
  rcases (dropIdle_spec absolute ps).2 with hp | hp
  · exact .inl (hp.subset h)
  · rw [hp, List.mem_singleton] at h
    exact .inr h

private theorem toList_of_isAbsolute {path : String} (h : isAbsolute path = true) :
    path.toList = '/' :: path.toList.drop 1 := by
  unfold isAbsolute at h
  cases hl : path.toList with
  | nil => simp [hl] at h
  | cons c r => simp_all

private theorem head_pieces_ne_nil {cs p q : List Char} {r : List (List Char)}
    (h : pieces cs = p :: q :: r) (hc : cs.head? ≠ some '/') : p ≠ [] := by
  revert h
  fun_cases pieces cs with
  | case1 => simp
  | case2 => simp at hc
  | case3 => simp
  | case4 =>
    intro h
    rw [List.cons.injEq] at h
    simp [← h.1]

private theorem cons_cons_of_prefix_dropLast {p : List Char} {r inner : List (List Char)}
    (h : p :: r <+: inner.dropLast) : ∃ q r', inner = p :: q :: r' := by
  match inner with
  | [] => simp at h
  | [_] => simp at h
  | a :: q :: r' =>
    obtain ⟨_, h⟩ := h
    simp only [List.dropLast_cons_cons, List.cons_append, List.cons.injEq] at h
    exact ⟨q, r', by rw [h.1]⟩

/-- The pieces of the path that a path lies in. -/
private theorem parent?_spec {path outer : String} (h : parent? path = some outer) :
    ∃ ps, outer = String.ofList (if isAbsolute path then '/' :: joinPieces ps else joinPieces ps) ∧
      (∀ p ∈ ps, p ∈ pieces path.toList ∨ p = ['.']) ∧
      ps.filter (fun p => !isIdle p) <+: (pieces path.toList).filter (fun p => !isIdle p) ∧
      (isAbsolute path = false → ps = [] ∨ ∃ p r, ps = p :: r ∧ p ≠ []) := by
  unfold parent? at h
  simp only at h
  set body := if isAbsolute path = true then path.toList.drop 1 else path.toList with hbody
  have hpieces : pieces path.toList = pieces body ∨ pieces path.toList = [] :: pieces body := by
    cases ha : isAbsolute path
    · left
      rw [hbody, ha, if_neg (by simp)]
    · right
      rw [hbody, ha, if_pos rfl]
      conv_lhs => rw [toList_of_isAbsolute ha]
      rw [pieces]
  have hlive : (pieces path.toList).filter (fun p => !isIdle p) =
      (pieces body).filter (fun p => !isIdle p) := by
    rcases hpieces with hp | hp
    · rw [hp]
    · rw [hp]
      rfl
  have hmem : ∀ p ∈ pieces body, p ∈ pieces path.toList := by
    intro p hm
    rcases hpieces with hp | hp
    · rwa [hp]
    · rw [hp]
      exact List.mem_cons_of_mem _ hm
  split at h
  · simp at h
  · next hne =>
    obtain ⟨hfilter, hprefix⟩ := dropIdle_spec (isAbsolute path) (pieces body)
    have hinner : ∀ p ∈ dropIdle (isAbsolute path) (pieces body), p ∈ pieces body ∨ p = ['.'] :=
      fun p => mem_dropIdle
    generalize dropIdle (isAbsolute path) (pieces body) = inner at h hne hfilter hprefix hinner
    refine ⟨dropIdle (isAbsolute path) inner.dropLast, (Option.some.inj h).symm, ?_, ?_, ?_⟩
    · intro p hp
      rcases mem_dropIdle hp with hp | rfl
      · exact (hinner p (List.dropLast_subset _ hp)).imp_left (hmem p)
      · exact .inr rfl
    · rw [hlive, (dropIdle_spec ..).1, ← hfilter]
      exact (List.dropLast_prefix inner).filter _
    · intro ha
      rcases (dropIdle_spec (isAbsolute path) inner.dropLast).2 with hd | hd
      · generalize dropIdle (isAbsolute path) inner.dropLast = ps at hd
        cases ps with
        | nil => exact .inl rfl
        | cons p r =>
          refine .inr ⟨p, r, rfl, ?_⟩
          rcases hprefix with hb | hb
          · obtain ⟨q, r', hi⟩ : ∃ q r', inner = p :: q :: r' := cons_cons_of_prefix_dropLast hd
            obtain ⟨rest, hrest⟩ := hi ▸ hb
            apply head_pieces_ne_nil hrest.symm
            rw [hbody, ha, if_neg (by simp)]
            simpa [isAbsolute] using ha
          · rw [hb] at hd
            simp at hd
      · exact .inr ⟨['.'], [], hd, by simp⟩

private theorem pieces_joinPieces_live {ps : List (List Char)} (h : ∀ p ∈ ps, '/' ∉ p) :
    (pieces (joinPieces ps)).filter (fun p => !isIdle p) = ps.filter (fun p => !isIdle p) ∧
      ∀ p ∈ pieces (joinPieces ps), p ∈ ps ∨ p = [] := by
  by_cases hne : ps = []
  · subst hne
    exact ⟨rfl, fun p hp => .inr (by simpa [joinPieces, pieces] using hp)⟩
  · rw [pieces_joinPieces hne h]
    exact ⟨rfl, fun p hp => .inl hp⟩

/-- The path that a path lies in begins as the path does and has some of its names. -/
private theorem parent?_names {path outer : String} (h : parent? path = some outer) :
    isAbsolute outer = isAbsolute path ∧
      (pieces outer.toList).filter (fun p => !isIdle p) <+:
        (pieces path.toList).filter (fun p => !isIdle p) ∧
      ∀ p ∈ pieces outer.toList, p ∈ pieces path.toList ∨ isIdle p = true := by
  obtain ⟨ps, rfl, hmem, hlive, hhead⟩ := parent?_spec h
  have hslash : ∀ p ∈ ps, '/' ∉ p := by
    intro p hp
    rcases hmem p hp with hm | rfl
    · exact slash_notMem_of_mem_pieces hm
    · decide
  obtain ⟨hfilter, hnames⟩ := pieces_joinPieces_live hslash
  have hsub : ∀ p ∈ pieces (joinPieces ps), p ∈ pieces path.toList ∨ isIdle p = true := by
    intro p hp
    rcases hnames p hp with hp | rfl
    · exact (hmem p hp).imp_right fun he => by rw [he]; rfl
    · exact .inr rfl
  rw [String.toList_ofList]
  cases ha : isAbsolute path
  · refine ⟨?_, ?_, ?_⟩
    · rcases hhead ha with rfl | ⟨p, r, rfl, hp⟩
      · rfl
      · cases p with
        | nil => exact absurd rfl hp
        | cons c cs =>
          have hc : c ≠ '/' := by
            rintro rfl
            exact hslash ('/' :: cs) (by simp) (by simp)
          cases r <;> simp [isAbsolute, joinPieces, hc]
    · rw [if_neg (by simp), hfilter]
      exact hlive
    · rw [if_neg (by simp)]
      exact hsub
  · refine ⟨by simp [isAbsolute], ?_, ?_⟩
    · rw [if_pos rfl, pieces, List.filter_cons_of_neg (by simp [isIdle]), hfilter]
      exact hlive
    · rw [if_pos rfl, pieces]
      intro p hp
      rcases List.mem_cons.1 hp with rfl | hp
      · exact .inr rfl
      · exact hsub p hp

/-- The path that a path lies in names a place on the way. -/
theorem named_parent? {path outer : String} (h : parent? path = some outer) (d : Location) :
    named d outer <+: named d path := by
  obtain ⟨ha, hlive, -⟩ := parent?_names h
  unfold named
  rw [isAbsolute_ofText, isAbsolute_ofText, ha, rawNames_eq outer, rawNames_eq path, live_map_encoded,
    live_map_encoded, List.prefix_append_right_inj]
  exact hlive.map _

theorem StaysBelow.parent? {path outer : String} (hs : StaysBelow path) (h : parent? path = some outer) :
    StaysBelow outer := by
  obtain ⟨-, -, hmem⟩ := parent?_names h
  unfold StaysBelow at *
  rw [rawNames_eq, List.mem_map] at *
  rintro ⟨p, hp, hup⟩
  have hp2 : p = ['.', '.'] := encoded_injective (hup.trans (by decide))
  rcases hmem p hp with hm | hi
  · exact hs ⟨p, hm, hup⟩
  · subst hp2
    simp [isIdle] at hi

/-- What a path lies in is named on the way to it. -/
theorem mem_ancestors {path outer : String} (h : outer ∈ ancestors path) (d : Location) :
    named d outer <+: named d path ∧ (StaysBelow path → StaysBelow outer) := by
  suffices ∀ n path, outer ∈ ancestorsUpTo n path →
      named d outer <+: named d path ∧ (StaysBelow path → StaysBelow outer) from this _ path h
  intro n
  induction n with
  | zero => simp [ancestorsUpTo]
  | succ n ih =>
    intro path h
    unfold ancestorsUpTo at h
    rcases List.mem_cons.1 h with rfl | h
    · exact ⟨List.prefix_rfl, id⟩
    · cases hp : Path.parent? path with
      | none => simp [hp] at h
      | some q =>
        rw [hp] at h
        obtain ⟨hn, hs⟩ := ih q h
        exact ⟨hn.trans (named_parent? hp d), fun hb => hs (hb.parent? hp)⟩

/-! A name taken from a path that itself ends in a name. -/

theorem pieces_append (cs ds : List Char) : pieces (cs ++ '/' :: ds) = pieces cs ++ pieces ds := by
  fun_induction pieces cs with
  | case1 => rfl
  | case2 r ih => rw [List.cons_append, pieces, ih, List.cons_append]
  | case3 c r hc hr ih => exact absurd hr (pieces_ne_nil r)
  | case4 c r hc p ps hr ih =>
    rw [List.cons_append, pieces, ih, hr]
    · rfl
    · exact hc

private theorem joinPieces_pieces (cs : List Char) : joinPieces (pieces cs) = cs := by
  fun_induction pieces cs with
  | case1 => rfl
  | case2 r ih =>
    cases hr : pieces r with
    | nil => exact absurd hr (pieces_ne_nil r)
    | cons p ps =>
      rw [hr] at ih
      rw [joinPieces, ih, List.nil_append]
      simp
  | case3 c r hc hr ih => exact absurd hr (pieces_ne_nil r)
  | case4 c r hc p ps hr ih =>
    rw [hr] at ih
    rw [← ih]
    cases ps <;> rfl

private theorem toList_slash_notMem {name : String} (h : RawPath.slash ∉ FileName.ofText name) : '/' ∉ name.toList := by
  intro hm
  apply h
  rw [FileName.ofText_eq_flatMap]
  exact List.mem_flatMap.2 ⟨'/', hm, by decide⟩

private theorem getLast?_pieces_join (base : String) {name : String} (h : RawPath.slash ∉ FileName.ofText name) :
    (pieces (join base name).toList).getLast? = some name.toList := by
  have hname := pieces_of_slash_notMem (toList_slash_notMem h)
  unfold join
  rw [isAbsolute_eq_false h, if_neg Bool.false_ne_true]
  split
  · next hb =>
    rcases Bool.or_eq_true _ _ ▸ hb with hb | hb
    · obtain rfl : base = "" := by simpa using hb
      rw [String.empty_append, hname]
      rfl
    · obtain ⟨l, hl⟩ : ∃ l, base.toList = l ++ ['/'] := List.getLast?_eq_some_iff.1 (by simpa using hb)
      rw [String.toList_append, hl, List.append_assoc, List.singleton_append, pieces_append, hname]
      simp
  · rw [String.append_assoc, String.toList_append, String.toList_append]
    change (pieces (base.toList ++ '/' :: name.toList)).getLast? = _
    rw [pieces_append, hname]
    simp

/-- A path that ends in a name that leads to something in a directory. -/
def EndsInName (path : String) : Prop := ∃ outer x, path = join outer x ∧ (FileName.ofText x).Proper

namespace EndsInName

variable {base name : String}

theorem join (base : String) (h : (FileName.ofText name).Proper) : EndsInName (join base name) := ⟨base, name, rfl, h⟩

private theorem exists_last (h : EndsInName base) :
    ∃ last : List Char, (pieces base.toList).getLast? = some last ∧ last ≠ [] ∧ isIdle last = false := by
  obtain ⟨outer, x, rfl, hx⟩ := h
  have hne : x.toList ≠ [] := by
    intro hnil
    obtain rfl : x = "" := by simpa using hnil
    exact hx.ne_nil FileName.ofText_empty
  have hhere : x.toList ≠ ['.'] := by
    intro hdot
    obtain rfl : x = "." := String.toList_injective hdot
    exact hx.ne_here (by decide +kernel)
  exact ⟨x.toList, getLast?_pieces_join outer hx.slash_notMem, hne, by simp [isIdle, hne, hhere]⟩

/-- No slash is missing between such a path and a name, and none is one too many. -/
theorem join_eq (h : EndsInName base) (hn : RawPath.slash ∉ FileName.ofText name) :
    Path.join base name = base ++ "/" ++ name := by
  obtain ⟨last, hlast, hne, -⟩ := h.exists_last
  unfold Path.join
  rw [isAbsolute_eq_false hn, if_neg Bool.false_ne_true, if_neg]
  rw [Bool.or_eq_true, not_or]
  constructor
  · intro hb
    obtain rfl : base = "" := by simpa using hb
    exact hne (by simpa [pieces] using hlast.symm)
  · intro hb
    obtain ⟨l, hl⟩ : ∃ l, base.toList = l ++ ['/'] := List.getLast?_eq_some_iff.1 (by simpa using hb)
    rw [hl, pieces_append] at hlast
    exact hne (by simpa [pieces] using hlast.symm)

theorem rawNames_join (h : EndsInName base) (hn : RawPath.slash ∉ FileName.ofText name) :
    rawNames (Path.join base name) = rawNames base ++ [FileName.ofText name] := by
  obtain ⟨front, rest, hbase, rfl | rfl, hjoin⟩ := rawNames_join_name base hn
  · rw [hjoin, hbase, List.append_nil]
  · obtain ⟨outer, x, rfl, hx⟩ := h
    obtain ⟨front', -, -, -, hx'⟩ := rawNames_join_name outer hx.slash_notMem
    rw [hbase] at hx'
    exact absurd (List.append_inj' hx' rfl).2 (by simpa using Ne.symm hx.ne_nil)

private theorem dropIdle_eq {absolute : Bool} {ps : List (List Char)} {last : List Char}
    (hl : ps.getLast? = some last) (hi : isIdle last = false) : dropIdle absolute ps = ps := by
  obtain ⟨front, rfl⟩ := List.getLast?_eq_some_iff.1 hl
  have hkept : ((front ++ [last]).reverse.dropWhile isIdle).reverse = front ++ [last] := by
    rw [List.reverse_append, List.reverse_singleton, List.singleton_append, List.dropWhile_cons_of_neg (by simp [hi]),
      List.reverse_cons, List.reverse_reverse]
  unfold dropIdle
  simp only [hkept]
  split
  · next heq _ => simp at heq
  · rfl

/-- A name in such a path lies in the path. -/
theorem parent?_join (h : EndsInName base) (hn : (FileName.ofText name).Proper) :
    parent? (Path.join base name) = some base := by
  obtain ⟨last, hlast, hne, hidle⟩ := h.exists_last
  obtain ⟨last', hlast', -, hidle'⟩ := (EndsInName.join base hn).exists_last
  rw [getLast?_pieces_join base hn.slash_notMem] at hlast'
  cases hlast'
  have hname := pieces_of_slash_notMem (toList_slash_notMem hn.slash_notMem)
  have htext : (Path.join base name).toList = base.toList ++ '/' :: name.toList := by
    rw [h.join_eq hn.slash_notMem, String.append_assoc, String.toList_append, String.toList_append]
    rfl
  have hbase : base.toList ≠ [] := by
    intro hnil
    rw [hnil] at hlast
    exact hne (by simpa [pieces] using hlast.symm)
  -- what is said of the text before the name, without the slash that an absolute path begins with
  have hbody : ∀ body absolute, (pieces body).getLast? = some last →
      dropIdle absolute (pieces (body ++ '/' :: name.toList)) = pieces body ++ [name.toList] ∧
        joinPieces (dropIdle absolute (pieces body ++ [name.toList]).dropLast) = body := by
    intro body absolute hbody
    rw [pieces_append, hname, List.dropLast_concat, dropIdle_eq hbody hidle, joinPieces_pieces,
      dropIdle_eq (by simp) hidle']
    exact ⟨rfl, rfl⟩
  unfold parent?
  simp only
  cases ha : isAbsolute base with
  | true =>
    have hhead := toList_of_isAbsolute ha
    have habsolute : isAbsolute (Path.join base name) = true := by
      unfold isAbsolute
      rw [htext, hhead]
      rfl
    have hrest : (pieces (base.toList.drop 1)).getLast? = some last := by
      rw [hhead, pieces] at hlast
      cases hp : pieces (base.toList.drop 1) with
      | nil => exact absurd hp (pieces_ne_nil _)
      | cons p ps =>
        rw [hp] at hlast
        simpa using hlast
    obtain ⟨hdrop, hjoin⟩ := hbody _ true hrest
    have hcut : (Path.join base name).toList.drop 1 = base.toList.drop 1 ++ '/' :: name.toList := by
      rw [htext, List.drop_append_of_le_length (List.length_pos_of_ne_nil hbase)]
    rw [habsolute, if_pos rfl, hcut, hdrop]
    split
    · next heq => simp at heq
    · rw [if_pos rfl, hjoin, ← hhead, String.ofList_toList]
  | false =>
    have hrelative : isAbsolute (Path.join base name) = false := by
      unfold isAbsolute at ha ⊢
      rw [htext, List.head?_append_of_ne_nil _ hbase]
      exact ha
    obtain ⟨hdrop, hjoin⟩ := hbody _ false hlast
    rw [hrelative, if_neg Bool.false_ne_true, htext, hdrop]
    split
    · next heq => simp at heq
    · rw [if_neg Bool.false_ne_true, hjoin, String.ofList_toList]

theorem isEmpty_eq (h : EndsInName base) : base.isEmpty = false := by
  obtain ⟨last, hlast, hne, -⟩ := h.exists_last
  rw [← Bool.not_eq_true]
  intro hb
  obtain rfl : base = "" := by simpa using hb
  exact hne (by simpa [pieces] using hlast.symm)

theorem directory_join (h : EndsInName base) (hn : (FileName.ofText name).Proper) :
    directory (Path.join base name) = base := by
  unfold directory
  rw [h.parent?_join hn]
  simp [h.isEmpty_eq]

end EndsInName

end Path

end ImageRecipe
