import Mathlib.Data.List.Infix
import ImageRecipe.Proofs.LayerRoundTrip

/-! The members of the archive of a layer: first the directories that its destination lies in, then one member for each
entry that the layer takes, in the order of their paths, and nothing else. -/

namespace ImageRecipe

theorem Path.joinPieces_append : ∀ {ps qs : List (List Char)}, ps ≠ [] → qs ≠ [] →
    joinPieces (ps ++ qs) = joinPieces ps ++ '/' :: joinPieces qs
  | [], _, hp, _ => absurd rfl hp
  | [_], _ :: _, _, _ => rfl
  | p :: p' :: ps, qs, _, hq => by
    have hrest := joinPieces_append (List.cons_ne_nil p' ps) hq
    change p ++ '/' :: joinPieces (p' :: ps ++ qs) = (p ++ '/' :: joinPieces (p' :: ps)) ++ '/' :: joinPieces qs
    rw [hrest, List.append_assoc, List.cons_append]

namespace Location

variable {l r : Location}

/-- Names of files are spelled by texts that count in a path. -/
theorem chars_of_proper (h : ∀ n ∈ l, n.Proper) : Path.Solid l.chars := by
  intro p hp
  obtain ⟨n, hn, rfl⟩ := List.mem_map.1 hp
  refine ⟨FileName.slash_notMem_text (h n hn).slash_notMem, ?_⟩
  unfold Path.isIdle
  rw [Bool.or_eq_false_iff, List.isEmpty_eq_false_iff, decide_eq_false_iff_not]
  refine ⟨fun hnil => (h n hn).ne_nil (FileName.text_eq_empty (by simpa using hnil)), fun hdot => ?_⟩
  exact (h n hn).ne_here (FileName.text_eq_dot (String.toList_inj.1 (hdot.trans (by decide))))

/-- The path of a place leads by the texts of its names. -/
theorem live_rawNames_text (h : ∀ n ∈ l, n.Proper) (hne : l ≠ []) :
    RawPath.live (Path.rawNames l.text) = l.map fun n => FileName.ofText n.text := by
  have hsolid := chars_of_proper h
  have hchars : l.chars ≠ [] := by simpa [chars] using hne
  have hpath := Path.live_rawNames_joinPieces (.inl rfl) hchars fun p hp => (hsolid p hp).1
  rw [text_eq_path, path, hpath, Path.live_map_encoded, hsolid.filter_eq, chars, List.map_map]
  exact List.map_congr_left fun n _ => (FileName.ofText_eq_flatMap n.text).symm

theorem isAbsolute_text (h : ∀ n ∈ l, n.Proper) : Path.isAbsolute l.text = false := by
  have hsolid := chars_of_proper h
  unfold Path.isAbsolute
  rw [toList_text]
  change ((Path.joinPieces l.chars).head? == some '/') = false
  rw [beq_eq_false_iff_ne]
  intro hhead
  cases hl : l.chars with
  | nil =>
    rw [hl] at hhead
    cases hhead
  | cons p ps =>
    rw [hl] at hhead hsolid
    obtain ⟨hslash, hidle⟩ := hsolid p List.mem_cons_self
    obtain ⟨c, cs, rfl⟩ : ∃ c cs, p = c :: cs := List.exists_cons_of_ne_nil fun hnil => by simp [hnil, Path.isIdle] at hidle
    have hc : c = '/' := by
      cases ps <;> exact Option.some.inj hhead
    exact hslash (hc ▸ List.mem_cons_self)

/-- Names that spell texts are spelled by these. -/
theorem map_ofText_text (h : ∀ n ∈ l, ∃ s, n = FileName.ofText s) : (l.map fun n => FileName.ofText n.text) = l := by
  refine (List.map_congr_left fun n hn => ?_).trans (List.map_id l)
  obtain ⟨s, rfl⟩ := h n hn
  exact congrArg FileName.ofText (FileName.text_ofText s)

/-- Places of names that spell texts are told apart by their paths. -/
theorem text_injective (hl : l ≠ []) (hr : r ≠ []) (hnl : ∀ n ∈ l, n.Proper) (hnr : ∀ n ∈ r, n.Proper)
    (htl : ∀ n ∈ l, ∃ s, n = FileName.ofText s) (htr : ∀ n ∈ r, ∃ s, n = FileName.ofText s) (h : l.text = r.text) :
    l = r := by
  have htexts := texts_eq_of_text_eq hl hr (fun n hn => (hnl n hn).slash_notMem) (fun n hn => (hnr n hn).slash_notMem) h
  have hnames := congrArg (List.map FileName.ofText) htexts
  rw [List.map_map, List.map_map] at hnames
  rw [← map_ofText_text htl, ← map_ofText_text htr]
  exact hnames

/-- The path of a directory comes before the paths of what lies in it. -/
theorem text_lt_text_append (hl : l ≠ []) (hr : r ≠ []) : l.text < (l ++ r).text := by
  change l.text.toList < (l ++ r).text.toList
  rw [toList_text, toList_text, List.map_append, Path.joinPieces_append (by simpa using hl) (by simpa using hr)]
  exact lt_append_cons ..

end Location

namespace LayerOptions

variable (o : LayerOptions)

/-- The place that the layer is put in. -/
def root : Location := RawPath.live (Path.rawNames o.destination)

/-- The places of the directories that the destination lies in, from the outermost down to itself. A destination that
begins with a dot lies in the directory that the image is put in. -/
def prefixes : List Location := (Path.components o.inner).inits.tail.map fun ns => RawPath.live (ns.map Path.encoded)

private theorem exists_slashes : ∃ before behind : List Char, (∀ c ∈ before, c = '/') ∧ (∀ c ∈ behind, c = '/') ∧
    o.destination.toList = before ++ (o.inner.toList ++ behind) ∧ o.inner.toList.head? ≠ some '/' := by
  let isSlash := fun c : Char => decide (c = '/')
  have hslashes : ∀ cs : List Char, ∀ c ∈ cs.takeWhile isSlash, c = '/' := fun cs c hc => by
    simpa [isSlash] using List.mem_takeWhile_imp hc
  let rest := o.destination.toList.dropWhile isSlash
  have hinner : o.inner.toList = (rest.reverse.dropWhile isSlash).reverse := String.toList_ofList
  have hrest : o.inner.toList ++ (rest.reverse.takeWhile isSlash).reverse = rest := by
    rw [hinner, ← List.reverse_append, List.takeWhile_append_dropWhile, List.reverse_reverse]
  refine ⟨o.destination.toList.takeWhile isSlash, (rest.reverse.takeWhile isSlash).reverse, hslashes _, ?_, ?_, ?_⟩
  · intro c hc
    exact hslashes _ c (List.mem_reverse.1 hc)
  · rw [hrest, List.takeWhile_append_dropWhile]
  · intro hhead
    obtain ⟨cs, hcs⟩ := List.head?_eq_some_iff.1 hhead
    have hfirst : rest.head? = some '/' := by rw [← hrest, hcs]; rfl
    have := List.head?_dropWhile_not isSlash o.destination.toList
    rw [show o.destination.toList.dropWhile isSlash = rest from rfl, hfirst] at this
    simp [isSlash] at this

theorem live_rawNames_inner : RawPath.live (Path.rawNames o.inner) = o.root := by
  obtain ⟨before, behind, hbefore, hbehind, heq, -⟩ := o.exists_slashes
  rw [root, Path.live_rawNames, Path.live_rawNames, heq, Path.filter_slashes_pieces hbefore,
    Path.filter_pieces_slashes hbehind]

theorem head?_components_inner : (Path.components o.inner).head? ≠ some ['/'] := by
  obtain ⟨-, -, -, -, -, hhead⟩ := o.exists_slashes
  exact Path.head?_components_ne hhead

theorem live_rawNames_directoryPath (path : String) :
    RawPath.live (Path.rawNames (directoryPath path)) = RawPath.live (Path.rawNames path) := by
  let isSlash := fun c : Char => decide (c = '/')
  have hslashes : ∀ c ∈ (path.toList.reverse.takeWhile isSlash).reverse, c = '/' := fun c hc => by
    simpa [isSlash] using List.mem_takeWhile_imp (List.mem_reverse.1 hc)
  have hpath : path.toList = (path.toList.reverse.dropWhile isSlash).reverse ++
      (path.toList.reverse.takeWhile isSlash).reverse := by
    rw [← List.reverse_append, List.takeWhile_append_dropWhile, List.reverse_reverse]
  have hdirectory : (directoryPath path).toList = (path.toList.reverse.dropWhile isSlash).reverse ++ ['/'] :=
    String.toList_ofList
  rw [Path.live_rawNames, Path.live_rawNames, hdirectory, Path.filter_pieces_slashes (by simp), hpath,
    Path.filter_pieces_slashes hslashes, ← hpath]

/-- The members of the directories that the destination lies in lead to their places. -/
theorem map_destinationDirectories :
    (o.destinationDirectories.map fun d => RawPath.live (Path.rawNames (directoryPath d))) = o.prefixes := by
  have hinits : (List.range (Path.components o.inner).length).map (fun n => (Path.components o.inner).take (n + 1)) =
      (Path.components o.inner).inits.tail := by
    refine List.ext_getElem (by simp) fun n h h' => ?_
    rw [List.getElem_map, List.getElem_range, List.getElem_tail, List.getElem_inits]
  unfold destinationDirectories prefixes
  rw [← hinits, List.map_map, List.map_map]
  refine List.map_congr_left fun n hn => ?_
  have hne : (Path.components o.inner).take (n + 1) ≠ [] := by
    have := List.mem_range.1 hn
    simp only [ne_eq, List.take_eq_nil_iff, not_or]
    exact ⟨Nat.succ_ne_zero n, List.ne_nil_of_length_pos (by omega)⟩
  have hslash : ∀ p ∈ (Path.components o.inner).take (n + 1), '/' ∉ p := fun p hp =>
    Path.slash_notMem_of_mem_components o.head?_components_inner (List.mem_of_mem_take hp)
  have hjoin := Path.live_rawNames_joinPieces (.inl rfl) hne hslash
  rw [List.append_nil] at hjoin
  simp only [Function.comp_apply]
  rw [live_rawNames_directoryPath, hjoin]

theorem live_map_components : RawPath.live ((Path.components o.inner).map Path.encoded) = o.root := by
  rw [Path.live_map_encoded, Path.filter_components o.head?_components_inner, ← Path.live_rawNames,
    o.live_rawNames_inner]

theorem prefix_root {l : Location} (h : l ∈ o.prefixes) : l <+: o.root := by
  obtain ⟨ns, hns, rfl⟩ := List.mem_map.1 h
  obtain ⟨rest, hrest⟩ := (List.mem_inits _ _).1 (List.mem_of_mem_tail hns)
  refine ⟨RawPath.live (rest.map Path.encoded), ?_⟩
  rw [← RawPath.live_append, ← List.map_append, hrest, o.live_map_components]

private theorem pairwise_inits {α : Type} : ∀ l : List α, l.inits.Pairwise fun a b => a.length < b.length
  | [] => List.pairwise_singleton ..
  | a :: l => by
    rw [List.inits_cons, List.pairwise_cons, List.pairwise_map]
    refine ⟨fun b hb => ?_, (pairwise_inits l).imp fun h => by simpa using h⟩
    obtain ⟨c, -, rfl⟩ := List.mem_map.1 hb
    exact Nat.succ_pos _

/-- The places of the directories that the destination lies in are shorter the further out they are. -/
theorem pairwise_prefixes : o.prefixes.Pairwise fun a b => a.length < b.length := by
  have hcases : Path.components o.inner = [] ∨ ∃ n r, Path.components o.inner = n :: r ∧ Path.Solid r := by
    by_cases hempty : o.inner = ""
    · exact .inl (by rw [hempty]; decide +kernel)
    · rcases Path.components_cases hempty with ⟨r, hr, hsolid⟩ | ⟨n, r, hr, -, -, hsolid⟩
      · exact .inr ⟨_, r, hr, hsolid⟩
      · exact .inr ⟨n, r, hr, hsolid⟩
  unfold prefixes
  rcases hcases with hnames | ⟨n, r, hnames, hsolid⟩
  · rw [hnames]
    exact .nil
  · -- only the first name may not count, and it is in all of them
    have hlength : ∀ a ∈ r.inits, (RawPath.live ((n :: a).map Path.encoded)).length =
        (RawPath.live [Path.encoded n]).length + a.length := by
      intro a ha
      have hrest : RawPath.live (a.map Path.encoded) = a.map Path.encoded := by
        rw [Path.live_map_encoded, Path.Solid.filter_eq fun p hp =>
          hsolid p (((List.mem_inits _ _).1 ha).subset hp)]
      rw [List.map_cons, ← List.singleton_append, RawPath.live_append, hrest, List.length_append, List.length_map]
    rw [hnames, List.inits_cons, List.tail_cons, List.map_map, List.pairwise_map]
    refine (pairwise_inits r).imp_of_mem fun {a b} ha hb hab => ?_
    rw [Function.comp_apply, Function.comp_apply, hlength a ha, hlength b hb]
    omega

/-- The place of an entry of the layer, by the texts of its names. -/
def placeOf (r : Location) : Location := o.root ++ r.map fun n => FileName.ofText n.text

theorem live_rawNames_join {r : Location} (h : ∀ n ∈ r, n.Proper) (hr : r ≠ []) :
    RawPath.live (Path.rawNames (Path.join o.inner r.text)) = o.placeOf r := by
  obtain ⟨front, rest, hbase, hrest, hjoin⟩ :=
    Path.rawNames_join_of_relative o.inner (Location.isAbsolute_text h)
  have hfront : RawPath.live front = o.root := by
    rw [← o.live_rawNames_inner, hbase, RawPath.live_append]
    rcases hrest with rfl | rfl <;> simp [RawPath.live]
  rw [hjoin, RawPath.live_append, hfront, Location.live_rawNames_text h hr, placeOf]

theorem member_eq (path : String) (kind : MemberKind) (mode : Nat) (data : List UInt8) (target : String) :
    o.member path kind mode data target =
      ⟨path, kind, mode, o.owner.ids.1, o.owner.ids.2, o.owner.names.1, o.owner.names.2, data, target⟩ := by
  unfold member
  cases o.owner <;> rfl

theorem isSome_memberOf? (path : String) (e : Entry) : (o.memberOf? path e).isSome = e.isTaken := by
  cases e <;> rfl

/-- The numbers of the owner leave the first bit of their fields free, and modes have seven octal digits at most. -/
structure Fits : Prop where
  ids : ∀ uid gid, o.owner = .numeric uid gid → uid < 2 ^ 63 ∧ gid < 2 ^ 63
  modes : ∀ file directory, o.permissions = .fixed file directory → file < 8 ^ 7 ∧ directory < 8 ^ 7

end LayerOptions

/-- The kind and the mode of the member of an entry, given the permissions of the layer. There is none for a pipe. -/
inductive Permissions.Gives : Permissions → Entry → MemberKind → Nat → Prop
  | preserved_file {mode data} : Gives .preserve (.file mode data) .file (mode % 4096)
  | preserved_directory {mode} : Gives .preserve (.directory mode) .directory (mode % 4096)
  | fixed_file {file directory mode data} : Gives (.fixed file directory) (.file mode data) .file file
  | fixed_directory {file directory mode} : Gives (.fixed file directory) (.directory mode) .directory directory
  | link {permissions target} : Gives permissions (.link target) .link 0o777

/-- A tree whose names are those that files can have. -/
def FileTree.ProperlyNamed (t : FileTree) : Prop := ∀ l e, t.entry? l = some e → ∀ n ∈ l, n.Proper

instance (t : FileTree) : Decidable t.ProperlyNamed :=
  decidable_of_iff (∀ x ∈ t.below [], ∀ n ∈ x.1, n.Proper)
    ⟨fun h l e he n hn => h (l, e) (t.mem_below.2 ⟨he, List.ne_nil_of_mem hn⟩) n hn,
      fun h x hx n hn => h x.1 x.2 (t.mem_below.1 hx).1 n hn⟩

namespace Archive

variable {t : FileTree} {d : Location} {path : String} {o : LayerOptions} {bs : List UInt8} {f : Found}

/-- What is found is a member at a place, with a kind and a mode, that belongs to the owner of the layer and has no
time. -/
structure Shows (o : LayerOptions) (l : Location) (kind : MemberKind) (mode : Nat) (f : Found) : Prop where
  place : Archive.placeOf f.member = l
  kind : kindOfCode f.member.code = kind
  mode : f.member.mode = some mode
  ids : (f.member.uid, f.member.gid) = o.owner.ids
  user : f.member.user = FileName.ofText o.owner.names.1
  group : f.member.group = FileName.ofText o.owner.names.2
  time : f.time = .ok 0

theorem FoundOf.shows {path : String} {kind : MemberKind} {mode : Nat} {data : List UInt8} {target : String}
    (hf : FoundOf (o.member path kind mode data target) f) (hk : kind.IsStored) (hm : mode < 8 ^ 7) (ho : o.Fits) :
    Shows o (RawPath.live (Path.rawNames path)) kind mode f := by
  rw [o.member_eq] at hf
  have hids : o.owner.ids.1 < 2 ^ 63 ∧ o.owner.ids.2 < 2 ^ 63 := by
    cases howner : o.owner with
    | numeric uid gid => exact ho.ids uid gid howner
    | root | named => exact ⟨Nat.two_pow_pos 63, Nat.two_pow_pos 63⟩
  obtain ⟨huid, hgid⟩ := hf.ids_eq hids.1 hids.2
  exact ⟨hf.placeOf_eq, hf.kind_eq hk, hf.mode_eq hm, Prod.ext huid hgid, hf.names_eq.1, hf.names_eq.2, hf.time_eq⟩

/-- What is found of the member of an entry shows the entry. -/
theorem FoundOf.shows_entry {r : Location} {e : Entry} {m : Member} (hf : FoundOf m f)
    (hm : o.memberOf? r.text e = some m) (hnames : ∀ n ∈ r, n.Proper) (hr : r ≠ []) (ho : o.Fits) :
    ∃ kind mode, o.permissions.Gives e kind mode ∧ Shows o (o.placeOf r) kind mode f := by
  have hjoin := o.live_rawNames_join hnames hr
  have hmod : ∀ mode : Nat, mode % 4096 < 8 ^ 7 := fun mode => (Nat.mod_lt _ (by decide)).trans (by decide)
  unfold LayerOptions.memberOf? at hm
  cases e with
  | file mode data =>
    obtain rfl := Option.some.inj hm
    have hgives : o.permissions.Gives (.file mode data) .file (o.fileMode mode) ∧ o.fileMode mode < 8 ^ 7 := by
      unfold LayerOptions.fileMode
      cases hp : o.permissions with
      | preserve => exact ⟨.preserved_file, hmod mode⟩
      | fixed file directory => exact ⟨.fixed_file, (ho.modes file directory hp).1⟩
    exact ⟨_, _, hgives.1, hjoin ▸ hf.shows (.inl rfl) hgives.2 ho⟩
  | directory mode =>
    obtain rfl := Option.some.inj hm
    have hgives : o.permissions.Gives (.directory mode) .directory (o.directoryMode mode) ∧
        o.directoryMode mode < 8 ^ 7 := by
      unfold LayerOptions.directoryMode
      cases hp : o.permissions with
      | preserve => exact ⟨.preserved_directory, hmod mode⟩
      | fixed file directory => exact ⟨.fixed_directory, (ho.modes file directory hp).2⟩
    rw [← LayerOptions.live_rawNames_directoryPath] at hjoin
    exact ⟨_, _, hgives.1, hjoin ▸ hf.shows (.inr (.inl rfl)) hgives.2 ho⟩
  | link target =>
    obtain rfl := Option.some.inj hm
    exact ⟨_, _, .link, hjoin ▸ hf.shows (.inr (.inr rfl)) (show 0o777 < 8 ^ 7 by decide) ho⟩
  | pipe => cases hm

/-- The entries that a directory is packed with; one that does not exist has none. -/
theorem exists_entries_of_packDirectory (hr : t.Rooted) (h : packDirectory t d path o = .ok bs) :
    ∃ es, encode (o.members es) = .ok bs ∧ (es.Pairwise fun a b => a.1 ≠ b.1) ∧
      ∀ r e, (r, e) ∈ es ↔ r ≠ [] ∧ ∃ l, t.resolve true d path = .ok l ∧ t.entry? (l ++ r) = some e := by
  cases hl : t.resolve true d path with
  | error fault =>
    refine ⟨[], ?_, .nil, fun r e => ⟨nofun, fun ⟨_, l, hok, _⟩ => by cases hok⟩⟩
    unfold packDirectory at h
    rw [hl] at h
    exact h
  | ok l =>
    refine ⟨t.below l, encode_of_packDirectory hr hl h, t.pairwise_below l, fun r e => ?_⟩
    rw [t.mem_below, and_comm]
    simp

/-- What is found in the archive of a layer: `ds` for the directories that its destination lies in, from the outermost
down, and `fs` for the entries `es`. These are all that the layer takes, in the order of their paths. -/
structure LayerFound (t : FileTree) (d : Location) (path : String) (o : LayerOptions) (ds fs : List Found)
    (es : List (Location × Entry)) : Prop where
  directories : List.Forall₂ (fun l f => Shows o l .directory 0o755 f) o.prefixes ds
  entries : List.Forall₂ (fun e f => ∃ kind mode, o.permissions.Gives e.2 kind mode ∧
    Shows o (o.placeOf e.1) kind mode f) es fs
  mem_iff : ∀ r e, (r, e) ∈ es ↔ e.isTaken = true ∧ r ≠ [] ∧
    ∃ l, t.resolve true d path = .ok l ∧ t.entry? (l ++ r) = some e
  /-- No entry is there twice, or behind what lies below it. -/
  ordered : es.Pairwise fun a b => a.1.text ≤ b.1.text ∧ ¬ b.1 <+: a.1
  /-- Names that spell texts are told apart by them. -/
  ascending : (∀ e ∈ es, ∀ n ∈ e.1, ∃ s, n = FileName.ofText s) → es.Pairwise fun a b => a.1.text < b.1.text
  /-- No two members lead to one place. -/
  nodup : (∀ e ∈ es, ∀ n ∈ e.1, ∃ s, n = FileName.ofText s) → ((ds ++ fs).map fun f => placeOf f.member).Nodup

private theorem forall₂_append {α β : Type} {R : α → β → Prop} : ∀ {as bs : List α} {cs : List β},
    List.Forall₂ R (as ++ bs) cs → ∃ ds es, cs = ds ++ es ∧ List.Forall₂ R as ds ∧ List.Forall₂ R bs es
  | [], _, cs, h => ⟨[], cs, rfl, .nil, h⟩
  | _ :: _, _, _, .cons hab h => by
    obtain ⟨ds, es, rfl, hds, hes⟩ := forall₂_append h
    exact ⟨_ :: ds, es, rfl, .cons hab hds, hes⟩

private theorem forall₂_filterMap {α β γ : Type} {R : β → γ → Prop} {g : α → Option β} : ∀ {as : List α} {cs : List γ},
    List.Forall₂ R (as.filterMap g) cs →
    List.Forall₂ (fun a c => ∃ b, g a = some b ∧ R b c) (as.filter fun a => (g a).isSome) cs
  | [], _, h => by
    cases h
    exact .nil
  | a :: as, cs, h => by
    cases ha : g a with
    | none =>
      rw [List.filterMap_cons_none ha] at h
      rw [List.filter_cons_of_neg (by simp [ha])]
      exact forall₂_filterMap h
    | some b =>
      rw [List.filterMap_cons_some ha] at h
      rw [List.filter_cons_of_pos (by simp [ha])]
      cases h with
      | cons hbc h => exact .cons ⟨b, ha, hbc⟩ (forall₂_filterMap h)

private theorem map_eq_of_forall₂ {α β γ : Type} {R : α → β → Prop} {f : α → γ} {g : β → γ} {as : List α} {bs : List β}
    (h : List.Forall₂ R as bs) (hfg : ∀ a b, R a b → g b = f a) : bs.map g = as.map f := by
  induction h with
  | nil => rfl
  | cons hab _ ih => rw [List.map_cons, List.map_cons, hfg _ _ hab, ih]

/-- The members of a layer are those of its directories and of the entries that it takes, in the order of their paths. -/
private theorem exists_taken {entries : List (Location × Entry)} (hkeys : entries.Pairwise fun a b => a.1 ≠ b.1)
    (fs : List Found) (h : List.Forall₂ FoundOf (o.members entries) fs) : ∃ ds es' es,
      fs = ds ++ es' ∧
      List.Forall₂ (fun d f => FoundOf (o.member (LayerOptions.directoryPath d) .directory 0o755 [] "") f)
        o.destinationDirectories ds ∧
      List.Forall₂ (fun e f => ∃ m, o.memberOf? e.1.text e.2 = some m ∧ FoundOf m f) es es' ∧
      (∀ e, e ∈ es ↔ e ∈ entries ∧ e.2.isTaken = true) ∧ (es.Pairwise fun a b => a.1 ≠ b.1) ∧
      es.Pairwise fun a b => a.1.text ≤ b.1.text := by
  unfold LayerOptions.members at h
  obtain ⟨ds, es', rfl, hds, hes⟩ := forall₂_append h
  have hsorted := LayerOptions.pairwise_sortedEntries entries
  rw [LayerOptions.sortedEntries_eq] at hes hsorted
  rw [List.filterMap_map] at hes
  rw [List.pairwise_map] at hsorted
  have hperm : (entries.mergeSort fun a b => decide (a.1.text ≤ b.1.text)).Perm entries := List.mergeSort_perm ..
  have hes := forall₂_filterMap hes
  simp only [Function.comp_apply, LayerOptions.isSome_memberOf?] at hes
  refine ⟨ds, es', _, rfl, List.forall₂_map_left_iff.1 hds, hes, fun e => ?_,
    ((hperm.pairwise_iff Ne.symm).2 hkeys).filter _, hsorted.filter _⟩
  rw [List.mem_filter, hperm.mem_iff]

section Ordered

variable {es : List (Location × Entry)} (hne : ∀ e ∈ es, e.1 ≠ []) (hkeys : es.Pairwise fun a b => a.1 ≠ b.1)
  (hsorted : es.Pairwise fun a b => a.1.text ≤ b.1.text)

include hne hkeys hsorted

/-- Entries in the order of their paths, no two at one place, have none behind what lies below it. -/
private theorem pairwise_ordered : es.Pairwise fun a b => a.1.text ≤ b.1.text ∧ ¬ b.1 <+: a.1 := by
  refine (hkeys.and hsorted).imp_of_mem fun {a b} ha hb ⟨hab, hle⟩ => ⟨hle, ?_⟩
  rintro ⟨r, hr⟩
  by_cases hnil : r = []
  · exact hab (by rw [← hr, hnil, List.append_nil])
  · have hlt := Location.text_lt_text_append (hne b hb) hnil
    rw [hr] at hlt
    exact String.not_lt.2 hle hlt

private theorem pairwise_ascending (hproper : ∀ e ∈ es, ∀ n ∈ e.1, n.Proper)
    (htexts : ∀ e ∈ es, ∀ n ∈ e.1, ∃ s, n = FileName.ofText s) : es.Pairwise fun a b => a.1.text < b.1.text := by
  refine (hkeys.and hsorted).imp_of_mem fun {a b} ha hb ⟨hab, hle⟩ => ?_
  by_contra hlt
  have heq := String.le_antisymm hle (String.not_lt.1 hlt)
  exact hab (Location.text_injective (hne a ha) (hne b hb) (hproper a ha) (hproper b hb) (htexts a ha) (htexts b hb) heq)

end Ordered

/-- The places of the directories that the destination lies in and of the entries are all different. -/
private theorem nodup_places {ls rs : List Location} (hls : ls = o.prefixes) (hne : ∀ r ∈ rs, r ≠ []) (hrs : rs.Nodup) :
    (ls ++ rs.map fun r => o.root ++ r).Nodup := by
  rw [hls, List.nodup_append]
  refine ⟨o.pairwise_prefixes.imp fun h heq => by rw [heq] at h; exact Nat.lt_irrefl _ h,
    hrs.map fun _ _ => List.append_cancel_left, ?_⟩
  -- the destination is not longer than its own place, and an entry lies below that
  rintro l hl _ hp rfl
  obtain ⟨r, hr, rfl⟩ := List.mem_map.1 hp
  have hlong := (o.prefix_root hl).length_le
  have := List.length_pos_iff.2 (hne r hr)
  rw [List.length_append] at hlong
  omega

end Archive

namespace Sample

open Archive (packDirectory encode)

/-- A layer for a directory of the image, with an owner and modes of its own. -/
def options : LayerOptions :=
  { destination := "/opt/./app/", owner := .numeric 1000 (2 ^ 63 - 1), permissions := .fixed 0o644 0o750 }

example : options.prefixes = [[FileName.ofText "opt"], [FileName.ofText "opt", FileName.ofText "app"]] := by
  decide +kernel

theorem fits_options : options.Fits :=
  ⟨by rintro _ _ ⟨⟩; exact ⟨by decide, by decide⟩, by rintro _ _ ⟨⟩; exact ⟨by decide, by decide⟩⟩

/-- A directory with a file in it, and beside it a link whose name goes on with a character that is less than a
slash. -/
def dashed : FileTree :=
  (((FileTree.empty.put [[0x69]] (.directory 0o755)).put [[0x69], [0x61]] (.directory 0o700)).put
    [[0x69], [0x61], [0x62]] (.file 0o4751 (Text.bytes "x"))).put
    [[0x69], [0x61, 0x2d, 0x63]] (.link (FileName.ofText "a/b"))

theorem rooted_dashed : dashed.Rooted := by
  refine .put (.put (.put (.put .empty ⟨_, rfl⟩ (.inr ⟨_, rfl⟩)) ⟨0o755, by decide +kernel⟩ (.inr ⟨_, rfl⟩))
    ⟨0o700, by decide +kernel⟩ (.inl ?_)) ⟨0o755, by decide +kernel⟩ (.inl ?_)
  all_goals
    have hnone : ∀ e : Option Entry, e = none → Entry.NoDirectory e := fun _ h => h ▸ Entry.noDirectory_none
    exact hnone _ (by decide +kernel)

/-- The link stands between the directory and the file. -/
def dashedEntries : List (String × Entry) :=
  [("a", .directory 0o700), ("a-c", .link (FileName.ofText "a/b")), ("a/b", .file 0o4751 (Text.bytes "x"))]

theorem sortedEntries_dashed : LayerOptions.sortedEntries (dashed.below [[0x69]]) = dashedEntries := by
  have hperm : (LayerOptions.sortedEntries (dashed.below [[0x69]])).Perm dashedEntries :=
    (List.mergeSort_perm ..).trans (by decide +kernel)
  refine LayerOptions.eq_of_perm_of_pairwise hperm ?_ (LayerOptions.pairwise_sortedEntries _) (by decide +kernel)
  rw [(hperm.map _).nodup_iff]
  decide +kernel

theorem packDirectory_dashed : packDirectory dashed [] "/i" options =
    encode ((options.destinationDirectories.map fun d =>
      options.member (LayerOptions.directoryPath d) .directory 0o755 [] "") ++
      dashedEntries.filterMap fun e => options.memberOf? e.1 e.2) := by
  have hl : dashed.resolve true [] "/i" = .ok [[0x69]] := by decide +kernel
  have he : dashed.entry? [[0x69]] = some (.directory 0o755) := by decide +kernel
  have hread : dashed.requireReadable [[0x69]] = .ok () := by decide +kernel
  unfold packDirectory
  simp only [hl, he, hread, bind, Except.bind, Archive.pack, LayerOptions.members, sortedEntries_dashed]

theorem exists_packDirectory_dashed :
    ∃ bs, packDirectory dashed [] "/i" options = .ok bs ∧ bs.length < Text.limit64 := by
  have hok : (packDirectory dashed [] "/i" options).isOk = true := by
    rw [packDirectory_dashed]
    decide +kernel
  obtain ⟨bs, hbs⟩ := exists_of_isOk hok
  refine ⟨bs, hbs, ?_⟩
  rw [packDirectory_dashed] at hbs
  exact (Archive.length_encode_le hbs).trans_lt (by decide +kernel)

end Sample

end ImageRecipe
