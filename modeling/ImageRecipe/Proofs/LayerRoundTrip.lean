import ImageRecipe.Proofs.ArchiveRoundTrip
import ImageRecipe.Proofs.Extraction
import ImageRecipe.Proofs.FileOperations
import ImageRecipe.Proofs.FoundMembers
import ImageRecipe.Proofs.Listings
import ImageRecipe.Proofs.RepeatedOperations

/-! Layers packed and unpacked: what comes out of the archive of a directory is the tree that lay below it. -/

namespace ImageRecipe

/-- An entry that an archive holds as it is: a file of a size that headers tell, a link to a path that spells a text. -/
def Entry.Kept : Entry → Prop
  | file _ data => data.size < Text.limit64
  | link target => (∃ s, target = FileName.ofText s) ∧ FileTree.checkPath target = .ok ()
  | directory _ | pipe _ => True

namespace Entry.Kept

instance (e : Entry) : Decidable e.Kept :=
  match e with
  | .file _ data => inferInstanceAs (Decidable (data.size < Text.limit64))
  | .link target =>
    decidable_of_iff (FileName.ofText (RawPath.text target) = target ∧ FileTree.checkPath target = .ok ())
      ⟨fun h => ⟨⟨_, h.1.symm⟩, h.2⟩, fun ⟨⟨s, hs⟩, hc⟩ => ⟨by rw [hs, RawPath.text, FileName.text_ofText], hc⟩⟩
  | .directory _ | .pipe _ => inferInstanceAs (Decidable True)

end Entry.Kept

/-- What an entry is once it was packed and unpacked. -/
def Entry.unpacked? : Entry → Option Entry
  | file mode data => some (file (mode % 4096) data)
  | directory mode => some (directory (mode % 4096))
  | link target => some (link (FileName.ofText (Archive.storedTarget (RawPath.text target))))
  | pipe _ => none

/-- What lay at a place and what lies there after packing and unpacking: a file with its data, a directory, each with
its permission bits, and a link with the names of its target. Pipes are left out. -/
inductive Entry.Restored : Option Entry → Option Entry → Prop
  | missing : Restored none none
  | pipe (mode : Nat) : Restored (some (.pipe mode)) none
  | file (mode : Nat) (data : ByteArray) : Restored (some (.file mode data)) (some (.file (mode % 4096) data))
  | directory (mode : Nat) : Restored (some (.directory mode)) (some (.directory (mode % 4096)))
  | link (target target' : RawPath)
    (h : Path.components (RawPath.text target) = Path.components (RawPath.text target')) :
    Restored (some (.link target)) (some (.link target'))

namespace Location

variable {l : Location} {tail : List Char}

/-- The bytes of the path of a place are its names with slashes between them. -/
theorem ofText_path (hl : ∀ n ∈ l, n.Written) :
    FileName.ofText (l.path tail) = RawPath.ofNames l ++ FileName.ofText (String.ofList tail) := by
  have hnames : Path.encoded (Path.joinPieces l.chars) = RawPath.ofNames l := by
    induction l with
    | nil => rfl
    | cons n l ih =>
      have hn : Path.encoded n.text.toList = n :=
        (FileName.ofText_eq_flatMap n.text).symm.trans (hl n (by simp)).ofText_text
      cases l with
      | nil => exact hn
      | cons m l =>
        have hchars : Path.joinPieces (chars (n :: m :: l)) =
            n.text.toList ++ '/' :: Path.joinPieces (chars (m :: l)) := rfl
        have hnames : RawPath.ofNames (n :: m :: l) = n ++ RawPath.slash :: RawPath.ofNames (m :: l) := rfl
        rw [hchars, hnames, ← ih fun k hk => hl k (by simp [hk])]
        unfold Path.encoded at hn ⊢
        rw [List.flatMap_append, List.flatMap_cons, hn]
        rfl
  unfold path
  rw [FileName.ofText_ofList, List.flatMap_append, FileName.ofText_ofList]
  exact congrArg (· ++ _) hnames

private theorem mem_ofNames {ns : List FileName} {b : UInt8} (h : b ∈ RawPath.ofNames ns) :
    b = RawPath.slash ∨ ∃ n ∈ ns, b ∈ n := by
  fun_induction RawPath.ofNames ns with
  | case1 => cases h
  | case2 n => exact .inr ⟨n, by simp, h⟩
  | case3 n ns _ ih =>
    rcases List.mem_append.1 h with h | h
    · exact .inr ⟨n, by simp, h⟩
    · rcases List.mem_cons.1 h with rfl | h
      · exact .inl rfl
      · exact (ih h).imp_right fun ⟨m, hm, hb⟩ => ⟨m, by simp [hm], hb⟩

theorem nul_notMem_path (hl : ∀ n ∈ l, n.Written) (ht : Path.IsTail tail) : 0 ∉ FileName.ofText (l.path tail) := by
  rw [ofText_path hl, List.mem_append, not_or]
  refine ⟨fun h => ?_, ?_⟩
  · rcases mem_ofNames h with h | ⟨n, hn, h⟩
    · exact absurd h (by decide)
    · exact (hl n hn).nul_notMem h
  · rcases ht with rfl | rfl <;> decide +kernel

/-- The path of what is no directory ends in a name. -/
theorem getLast?_ofText_path_ne (hne : l ≠ []) (hl : ∀ n ∈ l, n.Written) :
    (FileName.ofText (l.path [])).getLast? ≠ some RawPath.slash := by
  have hempty : FileName.ofText (String.ofList []) = [] := by decide +kernel
  obtain ⟨r, n, rfl⟩ : ∃ r n, l = r ++ [n] := ⟨_, _, (List.dropLast_append_getLast hne).symm⟩
  have hn := hl n (by simp)
  have hlast : (RawPath.ofNames (r ++ [n])).getLast? = n.getLast? := by
    by_cases hr : r = []
    · rw [hr]
      rfl
    · rw [RawPath.ofNames_append hr (by simp)]
      change (RawPath.ofNames r ++ RawPath.slash :: n).getLast? = _
      rw [List.append_cons, List.getLast?_append_of_ne_nil _ hn.ne_nil]
  rw [ofText_path hl, hempty, List.append_nil, hlast]
  exact fun h => hn.slash_notMem (List.mem_of_getLast? h)

/-- The paths of directories come before those of the directories in them. -/
theorem path_lt_path {r : Location} (hl : ∀ n ∈ l, n.Written) (hr : ∀ n ∈ r, n.Written) (hne : l ≠ [])
    (hrest : r ≠ []) :
    FileName.ofText (l.path ['/']) < FileName.ofText ((l ++ r).path ['/']) := by
  have hslash : FileName.ofText (String.ofList ['/']) = [RawPath.slash] := by decide +kernel
  rw [ofText_path hl, ofText_path fun n hn => (List.mem_append.1 hn).elim (hl n) (hr n), hslash,
    RawPath.ofNames_append hne hrest]
  have hsplit : RawPath.ofNames l ++ RawPath.slash :: RawPath.ofNames r ++ [RawPath.slash] =
      (RawPath.ofNames l ++ [RawPath.slash]) ++ (RawPath.ofNames r ++ [RawPath.slash]) := by simp
  obtain ⟨b, bs, hbs⟩ := List.exists_cons_of_ne_nil (l := RawPath.ofNames r ++ [RawPath.slash]) (by simp)
  rw [hsplit, hbs]
  exact lt_append_cons ..

end Location

namespace Archive

open FileTree (checkPath)

private theorem length_lt_of_checkPath {bs : List UInt8} (h : checkPath bs = .ok ()) :
    bs.length < FileTree.pathLimit := by
  unfold checkPath at h
  split_ifs at h with _ _ hlong
  exact Nat.lt_of_not_le hlong

private theorem nul_notMem_of_checkPath {bs : List UInt8} (h : checkPath bs = .ok ()) : 0 ∉ bs := by
  unfold checkPath at h
  split_ifs at h with _ hzero
  rwa [List.contains_iff_mem] at hzero

section Members

variable {r : Location} (hr : r ≠ []) (hnames : ∀ n ∈ r, n.Written)

include hr hnames

/-- What is read of a member of a tree leads to the place of the member. -/
theorem Reads.placeOf_eq {m : Member} {x : StoredMember} (h : Reads m x) {tail : List Char} (ht : Path.IsTail tail)
    (hm : m.path = r.path tail) : placeOf x = r ∧ x.names? = some r := by
  have hplace : placeOf x = r := by
    unfold placeOf
    rw [h.path, hm]
    exact Location.live_rawNames_path hnames hr ht
  refine ⟨hplace, ?_⟩
  have hup : r.contains FileName.up = false := by
    rw [← Bool.not_eq_true, List.contains_iff_mem]
    exact fun hn => (hnames _ hn).ne_up rfl
  change (if (placeOf x).contains FileName.up then none else some (placeOf x)) = some r
  rw [hplace, hup, if_neg Bool.false_ne_true]

variable (hroom : (RawPath.ofNames r).length < FileTree.pathLimit)

include hroom

private theorem stands {m : Member} (hk : m.kind.IsStored) (hmode : m.mode < 8 ^ 7)
    (hsize : m.data.length < Text.limit64) (hpath : m.path = r.path (if m.kind = .directory then ['/'] else []))
    (htarget : (FileName.ofText m.target).length < FileTree.pathLimit ∧
      0 ∉ FileName.ofText (storedTarget m.target)) : Stands m r := by
  have htail := Path.isTail_ite (m.kind = .directory)
  have hslash : ∀ tail, Path.IsTail tail → (FileName.ofText (String.ofList tail)).length ≤ 1 := by
    rintro _ (rfl | rfl) <;> decide +kernel
  have hlimit : FileTree.pathLimit + 2 < Text.limit64 := by decide
  refine ⟨hk, hmode, hsize, hpath, hr, hnames, ?_, ?_, by omega, htarget.2⟩
  · have := hslash _ htail
    rw [hpath, Location.ofText_path hnames, List.length_append]
    omega
  · rw [hpath]
    exact Location.nul_notMem_path hnames htail

/-- The member of an entry of a tree tells the entry, and what is read of it brings it. -/
theorem reads_memberOf? {e : Entry} {m : Member} (hkept : e.Kept)
    (hm : ({} : LayerOptions).memberOf? r.text e = some m) :
    Stands m r ∧ ∀ x, Reads m x → (x.isDirectory = true → x.path = FileName.ofText (r.path ['/'])) ∧
      placeOf x = r ∧ x.names? = some r ∧ ∃ e', e.unpacked? = some e' ∧ x.Brings e' := by
  have hjoin : Path.join ({} : LayerOptions).inner r.text = r.path [] := by
    have hinner : ({} : LayerOptions).inner = "" := by decide +kernel
    rw [hinner, ← r.text_eq_path]
    simp [Path.join]
  have hmode : ∀ mode : Nat, mode % 4096 < 8 ^ 7 := fun mode => (Nat.mod_lt _ (by decide)).trans (by decide)
  have hnone : (FileName.ofText "").length < FileTree.pathLimit ∧ 0 ∉ FileName.ofText (storedTarget "") := by
    decide +kernel
  have hplace : ∀ {tail : List Char} {x}, Path.IsTail tail → m.path = r.path tail → Reads m x →
      placeOf x = r ∧ x.names? = some r := fun ht hpath hx => hx.placeOf_eq hr hnames ht hpath
  unfold LayerOptions.memberOf? at hm
  rw [hjoin] at hm
  cases e with
  | file mode data =>
    obtain rfl := Option.some.inj hm
    have hsize : data.toList.length < Text.limit64 := by rwa [length_toList]
    refine ⟨stands hr hnames hroom (.inl rfl) (hmode mode) hsize rfl hnone, fun x hx => ⟨fun hd => ?_, ?_⟩⟩
    · have hcode := of_decide_eq_true hd
      rw [hx.code] at hcode
      exact absurd hcode (show typeCode .file ≠ directoryCode by decide)
    · obtain ⟨hat, hto⟩ := hplace (.inl rfl) rfl hx
      refine ⟨hat, hto, _, rfl, ?_⟩
      have htacit : x.isTacitDirectory = false := by
        unfold StoredMember.isTacitDirectory
        rw [hx.path]
        exact Bool.and_eq_false_iff.2 (.inr (decide_eq_false (Location.getLast?_ofText_path_ne hr hnames)))
      have hbrings := StoredMember.Brings.file _ hx.code hx.mode htacit
      have hdata : (⟨data.toList.toArray⟩ : ByteArray) = data := toList_injective (by simp)
      rw [hx.data] at hbrings
      change x.Brings (.file (mode % 4096 % 4096) ⟨data.toList.toArray⟩) at hbrings
      rwa [hdata, Nat.mod_mod] at hbrings
  | directory mode =>
    rw [Location.directoryPath_path hnames hr] at hm
    obtain rfl := Option.some.inj hm
    refine ⟨stands hr hnames hroom (.inr (.inl rfl)) (hmode mode) (show 0 < Text.limit64 by decide) rfl hnone,
      fun x hx => ⟨fun _ => hx.path, ?_⟩⟩
    obtain ⟨hat, hto⟩ := hplace (.inr rfl) rfl hx
    have hbrings := StoredMember.Brings.directory _ hx.code hx.mode
    change x.Brings (.directory (mode % 4096 % 4096)) at hbrings
    rw [Nat.mod_mod] at hbrings
    exact ⟨hat, hto, _, rfl, hbrings⟩
  | link target =>
    obtain ⟨⟨s, rfl⟩, hcheck⟩ := hkept
    have htext : RawPath.text (FileName.ofText s) = s := FileName.text_ofText s
    have hstored := checkPath_storedTarget hcheck
    dsimp only at hm
    rw [htext] at hm
    obtain rfl := Option.some.inj hm
    refine ⟨stands hr hnames hroom (.inr (.inr rfl)) (show 0o777 < 8 ^ 7 by decide)
      (show 0 < Text.limit64 by decide) rfl
      ⟨length_lt_of_checkPath hcheck, nul_notMem_of_checkPath hstored⟩, fun x hx => ⟨fun hd => ?_, ?_⟩⟩
    · have hcode := of_decide_eq_true hd
      rw [hx.code] at hcode
      exact absurd hcode (show typeCode .link ≠ directoryCode by decide)
    · obtain ⟨hat, hto⟩ := hplace (.inl rfl) rfl hx
      have htarget : x.target = FileName.ofText (storedTarget s) := hx.target rfl
      refine ⟨hat, hto, _, rfl, ?_⟩
      rw [htext, ← htarget]
      exact .link hx.code (by rw [htarget]; exact hstored)
  | pipe => cases hm

end Members

/-- The tree that is unpacked where another one was packed. -/
def unpackedTree (t : FileTree) (l r : Location) : Option Entry := (t.entry? (l ++ r)).bind Entry.unpacked?

theorem restored_unpackedTree {t : FileTree} {l r : Location} (h : ∀ e, t.entry? (l ++ r) = some e → e.Kept) :
    Entry.Restored (t.entry? (l ++ r)) (unpackedTree t l r) := by
  unfold unpackedTree
  cases he : t.entry? (l ++ r) with
  | none => exact .missing
  | some e =>
    cases e with
    | file mode data => exact .file mode data
    | directory mode => exact .directory mode
    | link target =>
      obtain ⟨⟨s, rfl⟩, hcheck⟩ := h _ he
      have hne : s ≠ "" := by
        rintro rfl
        exact absurd hcheck (by decide +kernel)
      refine .link _ _ ?_
      rw [RawPath.text, RawPath.text, FileName.text_ofText, FileName.text_ofText, components_storedTarget hne]
    | pipe mode => exact .pipe mode

/-- What is unpacked was there. -/
theorem exists_of_unpackedTree {t : FileTree} {l r : Location} (hr : r ≠ []) (h : unpackedTree t l r ≠ none) :
    ∃ e, (r, e) ∈ t.below l ∧ e.unpacked? ≠ none := by
  unfold unpackedTree at h
  cases he : t.entry? (l ++ r) with
  | none => exact absurd (by rw [he]; rfl) h
  | some e => exact ⟨e, t.mem_below.2 ⟨he, hr⟩, by rwa [he] at h⟩

theorem whole_unpackedTree {t : FileTree} (hr : t.Rooted) (l : Location) : Whole (unpackedTree t l) := by
  intro p r hp hr' hne
  have hentry : t.entry? ((l ++ p) ++ r) ≠ none := by
    intro h
    unfold unpackedTree at hne
    rw [← List.append_assoc, h] at hne
    exact hne rfl
  obtain ⟨mode, hmode⟩ := hr.of_prefix hr' hentry
  refine ⟨mode % 4096, ?_⟩
  unfold unpackedTree
  rw [hmode]
  rfl

/-- The members of a layer with the usual options are those of its entries, in the order of their paths. -/
theorem members_eq (es : List (Location × Entry)) : ({} : LayerOptions).members es =
    (es.mergeSort fun a b => decide (a.1.text ≤ b.1.text)).filterMap fun e =>
      ({} : LayerOptions).memberOf? e.1.text e.2 := by
  have hnone : ({} : LayerOptions).destinationDirectories = [] := by decide +kernel
  unfold LayerOptions.members
  rw [LayerOptions.sortedEntries_eq, hnone, List.filterMap_map]
  rfl

/-- What a packed directory comes to is the archive of what lies below it. -/
theorem encode_of_packDirectory {t : FileTree} (hr : t.Rooted) {d l : Location} {path : String}
    (hl : t.resolve true d path = .ok l) {o : LayerOptions} {bs : List UInt8} (h : packDirectory t d path o = .ok bs) :
    encode (o.members (t.below l)) = .ok bs := by
  unfold packDirectory at h
  rw [hl] at h
  dsimp only at h
  cases he : t.entry? l with
  | none =>
    have hbelow : t.below l = [] := by
      refine List.eq_nil_iff_forall_not_mem.2 fun e hmem => ?_
      obtain ⟨he', hne⟩ := t.entry?_of_mem_below hmem
      obtain ⟨mode, hmode⟩ := hr.of_prefix hne (by rw [he']; simp)
      rw [he] at hmode
      cases hmode
    rw [he] at h
    rw [hbelow]
    exact h
  | some e =>
    rw [he] at h
    cases e with
    | directory mode =>
      obtain ⟨_, -, h⟩ := bind_eq_ok.1 h
      exact h
    | file | link | pipe => cases h

end Archive

open Archive

/-- What a layer takes of the entries below a place has names that files can have and that spell texts, archives keep
it, and below another place no path to it is too long. -/
structure FileTree.Transfers (t : FileTree) (l root : Location) : Prop where
  written : ∀ r e, (r, e) ∈ t.below l → e.isTaken = true → ∀ n ∈ r, n.Written
  kept : ∀ r e, (r, e) ∈ t.below l → e.isTaken = true → e.Kept
  room : ∀ r e, (r, e) ∈ t.below l → e.isTaken = true →
    FileTree.checkPath (RawPath.slash :: RawPath.ofNames (root ++ r)) = .ok ()

/-- Archives keep every entry that is taken, and of the others only that they were not. -/
theorem FileTree.Transfers.keeps {t : FileTree} {l root r : Location} (h : t.Transfers l root) (hr : r ≠ []) {e : Entry}
    (he : t.entry? (l ++ r) = some e) : e.Kept := by
  cases e with
  | pipe => trivial
  | file | directory | link => exact h.kept r _ (t.mem_below.2 ⟨he, hr⟩) rfl

theorem LayerOptions.isTaken_of_memberOf? {o : LayerOptions} {path : String} {e : Entry} {m : Member}
    (h : o.memberOf? path e = some m) : e.isTaken = true := by
  cases e with
  | file | directory | link => rfl
  | pipe => cases h

namespace Archive

variable {t : FileTree} {l root : Location}

private theorem length_ofNames_lt {r : Location} (hr : r ≠ [])
    (h : FileTree.checkPath (RawPath.slash :: RawPath.ofNames (root ++ r)) = .ok ()) :
    (RawPath.ofNames r).length < FileTree.pathLimit := by
  have hlength := length_lt_of_checkPath h
  by_cases hroot : root = []
  · rw [hroot, List.nil_append, List.length_cons] at hlength
    exact Nat.lt_of_succ_lt hlength
  · rw [RawPath.ofNames_append hroot hr] at hlength
    simp only [List.length_cons, List.length_append] at hlength
    omega

/-- A stored member brings an entry that lies below a place to where it lies. -/
structure BringsBelow (t : FileTree) (l : Location) (x : StoredMember) : Prop where
  written : ∀ n ∈ placeOf x, n.Written
  ne_nil : placeOf x ≠ []
  names : x.names? = some (placeOf x)
  path : x.isDirectory = true → x.path = FileName.ofText ((placeOf x).path ['/'])
  brings : ∃ e, unpackedTree t l (placeOf x) = some e ∧ x.Brings e

/-- The member of an entry stands for it, and what is read of the member brings the entry. -/
theorem bringsBelow (ht : t.Transfers l root) {r : Location} {e : Entry} (he : (r, e) ∈ t.below l) {m : Member}
    (hm : ({} : LayerOptions).memberOf? r.text e = some m) :
    Stands m r ∧ ∀ x, Reads m x → placeOf x = r ∧ BringsBelow t l x := by
  have htaken := LayerOptions.isTaken_of_memberOf? hm
  have hnames := ht.written r e he htaken
  obtain ⟨hentry, hr⟩ := t.entry?_of_mem_below he
  obtain ⟨hstands, hreads⟩ :=
    reads_memberOf? hr hnames (length_ofNames_lt hr (ht.room r e he htaken)) (ht.kept r e he htaken) hm
  refine ⟨hstands, fun x hx => ?_⟩
  obtain ⟨hpath, rfl, hto, e', he', hbrings⟩ := hreads x hx
  refine ⟨rfl, hnames, hr, hto, hpath, e', ?_, hbrings⟩
  unfold unpackedTree
  rw [hentry]
  exact he'

private theorem exists_of_mem_right {α β : Type} {R : α → β → Prop} {as : List α} {bs : List β}
    (h : List.Forall₂ R as bs) : ∀ b ∈ bs, ∃ a ∈ as, R a b := by
  induction h with
  | nil => simp
  | cons hab _ ih =>
    intro b hb
    rcases List.mem_cons.1 hb with rfl | hb
    · exact ⟨_, by simp, hab⟩
    · obtain ⟨a, ha, hr⟩ := ih b hb
      exact ⟨a, by simp [ha], hr⟩

private theorem exists_of_mem_left {α β : Type} {R : α → β → Prop} {as : List α} {bs : List β}
    (h : List.Forall₂ R as bs) : ∀ a ∈ as, ∃ b ∈ bs, R a b := fun a ha => exists_of_mem_right h.flip a ha

/-- What is unpacked was packed. -/
private theorem exists_memberOf? {e : Entry} (h : e.unpacked? ≠ none) (path : String) :
    ∃ m, ({} : LayerOptions).memberOf? path e = some m := by
  cases e with
  | file | directory | link => exact ⟨_, rfl⟩
  | pipe => exact absurd rfl h

/-- The path of a member leads to the place that it stands for. -/
theorem Stands.live_rawNames {m : Member} {r : Location} (h : Stands m r) :
    RawPath.live (Path.rawNames m.path) = r := by
  rw [h.path]
  exact Location.live_rawNames_path h.written h.ne_nil (Path.isTail_ite _)

private theorem map_placeOf {ms : List Member} {xs : List StoredMember} (h : List.Forall₂ Reads ms xs) :
    xs.map placeOf = ms.map fun m => RawPath.live (Path.rawNames m.path) := by
  induction h with
  | nil => rfl
  | cons hmx _ ih =>
    rw [List.map_cons, List.map_cons, ih, placeOf, hmx.path]
    rfl

/-- What is read of the archive of a layer brings each entry to its place, one member to a place. -/
theorem decode_members (ht : t.Transfers l root) {bs : List UInt8}
    (h : encode (({} : LayerOptions).members (t.below l)) = .ok bs) :
    ∃ xs, decode bs = .ok xs ∧ (∀ x ∈ xs, BringsBelow t l x) ∧ (xs.map placeOf).Nodup ∧
      ∀ r, r ≠ [] → unpackedTree t l r ≠ none → ∃ x ∈ xs, placeOf x = r := by
  rw [members_eq] at h
  have hperm : ((t.below l).mergeSort fun a b => decide (a.1.text ≤ b.1.text)).Perm (t.below l) :=
    List.mergeSort_perm ..
  have hkeys := (hperm.pairwise_iff Ne.symm).2 (t.pairwise_below l)
  generalize (t.below l).mergeSort _ = es at h hperm hkeys
  have hbelow : ∀ e ∈ es, ∀ m, ({} : LayerOptions).memberOf? e.1.text e.2 = some m →
      Stands m e.1 ∧ ∀ x, Reads m x → placeOf x = e.1 ∧ BringsBelow t l x :=
    fun e he m hm => bringsBelow ht (hperm.subset he) hm
  obtain ⟨xs, hxs, hall⟩ := decode_encode (fun m hm => by
    obtain ⟨e, he, hm⟩ := List.mem_filterMap.1 hm
    exact ⟨e.1, (hbelow e he m hm).1⟩) h
  refine ⟨xs, hxs, fun x hx => ?_, ?_, fun r hr hne => ?_⟩
  · obtain ⟨m, hm, hreads⟩ := exists_of_mem_right hall x hx
    obtain ⟨e, he, hm⟩ := List.mem_filterMap.1 hm
    exact ((hbelow e he m hm).2 x hreads).2
  · rw [map_placeOf hall, List.Nodup, List.pairwise_map]
    refine (List.Pairwise.and_mem.1 hkeys).filterMap _ fun a b ⟨ha, hb, hab⟩ m hm m' hm' heq => hab ?_
    exact (hbelow a ha m hm).1.live_rawNames.symm.trans (heq.trans (hbelow b hb m' hm').1.live_rawNames)
  · obtain ⟨e, he, hsome⟩ := exists_of_unpackedTree hr hne
    have hmem : (r, e) ∈ es := hperm.symm.subset he
    obtain ⟨m, hm⟩ := exists_memberOf? hsome (Location.text r)
    obtain ⟨x, hx, hreads⟩ := exists_of_mem_left hall m (List.mem_filterMap.2 ⟨_, hmem, hm⟩)
    exact ⟨x, hx, ((hbelow _ hmem m hm).2 x hreads).1⟩

end Archive

namespace Sample

/-- A name for which a header has no room. -/
def longName : FileName := List.replicate 120 0x61

/-- A directory that is closed to its owner's writing, with a file and a link, and a pipe beside it. -/
def packed : FileTree :=
  ((((FileTree.empty.put [[0x69]] (.directory 0o755)).put [[0x69], [0x64]] (.directory 0o500)).put
    [[0x69], [0x64], longName] (.file 0o4751 (Text.bytes "x"))).put
    [[0x69], [0x64], [0x6c]] (.link (FileName.ofText "a//./b/"))).put [[0x69], [0x70]] (.pipe 0o644)

theorem rooted_packed : packed.Rooted := by
  refine .put (.put (.put (.put (.put .empty ⟨_, rfl⟩ (.inr ⟨_, rfl⟩)) ⟨0o755, by decide +kernel⟩ (.inr ⟨_, rfl⟩))
    ⟨0o500, by decide +kernel⟩ (.inl ?_)) ⟨0o500, by decide +kernel⟩ (.inl ?_)) ⟨0o755, by decide +kernel⟩ (.inl ?_)
  all_goals
    have hnone : ∀ e : Option Entry, e = none → Entry.NoDirectory e := fun _ h => h ▸ Entry.noDirectory_none
    exact hnone _ (by decide +kernel)

/-- An empty directory. -/
def emptied : FileTree := FileTree.empty.put [[0x6f]] (.directory 0o755)

theorem transfers_packed : packed.Transfers [[0x69]] [[0x6f]] where
  written r e he := (by decide +kernel :
    ∀ x ∈ packed.below [[0x69]], x.2.isTaken = true → ∀ n ∈ x.1, n.Written) (r, e) he
  kept r e he := (by decide +kernel : ∀ x ∈ packed.below [[0x69]], x.2.isTaken = true → x.2.Kept) (r, e) he
  room r e he := (by decide +kernel : ∀ x ∈ packed.below [[0x69]], x.2.isTaken = true →
    FileTree.checkPath (RawPath.slash :: RawPath.ofNames ([[0x6f]] ++ x.1)) = .ok ()) (r, e) he

theorem isOk_packed : (packDirectory packed [] "/i" {}).isOk = true := by
  have hl : packed.resolve true [] "/i" = .ok [[0x69]] := by decide +kernel
  have he : packed.entry? [[0x69]] = some (.directory 0o755) := by decide +kernel
  have hread : packed.requireReadable [[0x69]] = .ok () := by decide +kernel
  have hsorted : LayerOptions.sortedEntries (packed.below [[0x69]]) =
      (packed.below [[0x69]]).map fun e => (e.1.text, e.2) := List.mergeSort_of_pairwise (by decide +kernel)
  unfold packDirectory
  simp only [hl, he, hread, bind, Except.bind, pack, LayerOptions.members, hsorted]
  decide +kernel

end Sample

end ImageRecipe
