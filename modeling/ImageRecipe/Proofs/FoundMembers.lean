import ImageRecipe.Proofs.ArchiveScan

/-! What is found where a member was written tells the member: the place that its path leads to, its kind, its mode and
its owner, and no time. -/

namespace ImageRecipe

namespace Path

variable {cs slashes : List Char} {path : String}

/-- Slashes at the end of a path make no names. -/
theorem filter_pieces_slashes (h : ∀ c ∈ slashes, c = '/') :
    (pieces (cs ++ slashes)).filter (fun p => !isIdle p) = (pieces cs).filter fun p => !isIdle p := by
  have hnone : ∀ {s : List Char}, (∀ c ∈ s, c = '/') → (pieces s).filter (fun p => !isIdle p) = [] := by
    intro s hs
    induction s with
    | nil => rfl
    | cons c s ih =>
      obtain rfl := hs c List.mem_cons_self
      rw [pieces, List.filter_cons_of_neg (by simp [isIdle]), ih fun d hd => hs d (.tail _ hd)]
  cases slashes with
  | nil => rw [List.append_nil]
  | cons c s =>
    obtain rfl := h c List.mem_cons_self
    rw [pieces_append, List.filter_append, hnone fun d hd => h d (.tail _ hd), List.append_nil]

/-- Slashes at the beginning of a path make no names either. -/
theorem filter_slashes_pieces (h : ∀ c ∈ slashes, c = '/') :
    (pieces (slashes ++ cs)).filter (fun p => !isIdle p) = (pieces cs).filter fun p => !isIdle p := by
  induction slashes with
  | nil => rfl
  | cons c s ih =>
    obtain rfl := h c List.mem_cons_self
    rw [List.cons_append, pieces, List.filter_cons_of_neg (by simp [isIdle]), ih fun d hd => h d (.tail _ hd)]

/-- The names of a path that is not absolute, but for a dot in front. -/
theorem filter_components (h : (components path).head? ≠ some ['/']) :
    (components path).filter (fun p => !isIdle p) = (pieces path.toList).filter fun p => !isIdle p := by
  revert h
  unfold components
  dsimp only
  split
  · exact fun h => absurd rfl h
  · split
    · next r heq =>
      intro _
      rw [heq, List.filter_cons_of_neg (by simp [isIdle]), List.filter_cons_of_neg (by simp [isIdle]),
        List.filter_filter]
      simp
    · intro _
      rw [List.filter_filter]
      simp

theorem head?_components_ne (h : path.toList.head? ≠ some '/') : (components path).head? ≠ some ['/'] := by
  unfold components
  dsimp only
  split
  · next heq =>
    rw [heq] at h
    exact absurd rfl h
  · split
    · simp
    · intro hhead
      exact slash_notMem_of_mem_pieces (List.mem_of_mem_filter (List.mem_of_mem_head? hhead)) List.mem_cons_self

theorem slash_notMem_of_mem_components (h : (components path).head? ≠ some ['/']) {p : List Char}
    (hp : p ∈ components path) : '/' ∉ p := by
  have hne : path ≠ "" := by
    rintro rfl
    exact absurd hp (by rw [show components "" = [] by decide +kernel]; simp)
  rcases components_cases hne with ⟨r, hr, -⟩ | ⟨n, r, hr, hn, -, hsolid⟩
  · rw [hr] at h
    exact absurd rfl h
  · rw [hr] at hp
    rcases List.mem_cons.1 hp with rfl | hp
    · exact hn
    · exact (hsolid p hp).1

theorem live_rawNames (path : String) :
    RawPath.live (rawNames path) = ((pieces path.toList).filter fun p => !isIdle p).map encoded := by
  rw [rawNames_eq, live_map_encoded]

end Path

namespace Archive

variable {m : Member} {f : Found}

/-- The place that the path of a member leads to. -/
def placeOf (x : StoredMember) : Location := RawPath.live (RawPath.names x.path)

/-- A member is spelled with names that lead where its path does. -/
theorem names_of_memberNames? {path : String} {names : List (List Char)} (h : memberNames? false path = some names) :
    names ≠ [] ∧ (∀ n ∈ names, '/' ∉ n) ∧ RawPath.live (names.map Path.encoded) = RawPath.live (Path.rawNames path) := by
  unfold memberNames? at h
  split at h
  · cases h
  · next hdot =>
    obtain rfl := Option.some.inj h
    have hlive := @Path.filter_components path (by rw [hdot]; decide)
    rw [hdot] at hlive
    exact ⟨by decide, by decide, by rw [Path.live_rawNames, Path.live_map_encoded, hlive]⟩
  · simp only [Bool.false_eq_true, if_false] at h
    split_ifs at h with hpath
    rw [Bool.or_eq_true, not_or] at hpath
    have hhead : (Path.components path).head? ≠ some ['/'] := by simpa using hpath.2
    split at h
    · cases h
    · next hne =>
      obtain rfl := Option.some.inj h
      refine ⟨hne, fun n hn => Path.slash_notMem_of_mem_components hhead (List.mem_of_mem_filter hn), ?_⟩
      rw [Path.live_rawNames, Path.live_map_encoded, List.filter_filter, ← Path.filter_components hhead]
      congr 1
      refine List.filter_congr fun n _ => ?_
      unfold Path.isIdle
      by_cases hn : n = ['.'] <;> simp [hn]

/-- What is found of a path leads where the path does, whether it is in the header or before it. -/
theorem FoundOf.placeOf_eq (hf : FoundOf m f) : placeOf f.member = RawPath.live (Path.rawNames m.path) := by
  obtain @⟨user, group, start, name, -, -, hpath⟩ := hf
  unfold placeOf Found.member
  rw [memberOfBlock_path, Pending.path?_mk]
  rcases pathFields_cases hpath with ⟨rfl, names, hnames, hplace⟩ | rfl
  · obtain ⟨rfl, hlength, hzero⟩ := place_eq_true hplace
    obtain ⟨hne, hslash, hlive⟩ := names_of_memberNames? hnames
    change RawPath.live (RawPath.names (beforeZero (fit nameSize (bytesOfChars _)))) = _
    rw [beforeZero_fit hzero hlength, flatten_spelling fun n hn => ne_slash (hslash n hn), ← hlive]
    exact Path.live_rawNames_joinPieces (Path.isTail_tailOf _) hne hslash
  · unfold announced
    rw [if_neg (longName_ne_nil _ _)]
    rfl

theorem FoundOf.kind_eq (hf : FoundOf m f) (hk : m.kind.IsStored) : kindOfCode f.member.code = m.kind := by
  obtain ⟨-, -, -⟩ := hf
  have hcode : kindOfCode (typeCode m.kind) = m.kind := by
    rcases hk with h | h | h <;> (rw [h]; decide)
  unfold Found.member
  rw [memberOfBlock_code]
  exact hcode

theorem FoundOf.mode_eq (hf : FoundOf m f) (hm : m.mode < 8 ^ 7) : f.member.mode = some m.mode := by
  obtain ⟨-, -, -⟩ := hf
  exact memberOfBlock_mode _ (headerOf ..) _ hm

theorem FoundOf.ids_eq (hf : FoundOf m f) (hu : m.uid < 2 ^ 63) (hg : m.gid < 2 ^ 63) :
    f.member.uid = m.uid ∧ f.member.gid = m.gid := by
  obtain ⟨-, -, -⟩ := hf
  exact ⟨memberOfBlock_uid _ (headerOf ..) _ hu, memberOfBlock_gid _ (headerOf ..) _ hg⟩

/-- A name of an owner that is written is read. -/
theorem beforeZero_ownerName {s : String} {bs : List UInt8} (h : ownerName s = .ok bs) :
    beforeZero (fit ownerNameSize bs) = FileName.ofText s := by
  unfold ownerName at h
  dsimp only at h
  split_ifs at h with hroom
  rw [Bool.or_eq_true, not_or, decide_eq_true_eq, List.contains_iff_mem] at hroom
  obtain rfl := Except.ok.inj h
  exact beforeZero_fit hroom.2 (by omega)

theorem FoundOf.names_eq (hf : FoundOf m f) :
    f.member.user = FileName.ofText m.user ∧ f.member.group = FileName.ofText m.group := by
  obtain ⟨huser, hgroup, -⟩ := hf
  unfold Found.member
  rw [memberOfBlock_user, memberOfBlock_group]
  exact ⟨beforeZero_ownerName huser, beforeZero_ownerName hgroup⟩

theorem FoundOf.time_eq (hf : FoundOf m f) : f.time = .ok 0 := by
  obtain ⟨-, -, -⟩ := hf
  unfold Found.time
  rw [Header.slice_time]
  exact numberOfField_octalField (by decide) (by decide) (by decide)

/-- The bytes that a member takes at most: those of its path, its target and its data, three headers, the zero bytes
behind two names, and what fills up three blocks. -/
def room (m : Member) : Nat :=
  (FileName.ofText m.path).length + (FileName.ofText m.target).length + m.data.length + 6 * blockSize

theorem length_padded_le (data : List UInt8) : (padded data).length + 1 ≤ data.length + blockSize := by
  have := Nat.mod_lt (blockSize - data.length % blockSize) (show 0 < blockSize by decide)
  unfold padded
  rw [List.length_append, length_zeros]
  omega

theorem length_encodeMember_le {c : List UInt8} (h : encodeMember m = .ok c) : c.length ≤ room m := by
  obtain ⟨user, group, start, name, -, -, hpath, rfl⟩ := encodeMember_eq_ok.1 h
  have hlong : ∀ {code : UInt8} {start name : List UInt8}, start = [] ∨ start = longName code name →
      start.length ≤ name.length + 2 * blockSize := by
    rintro code _ name (rfl | rfl)
    · exact Nat.zero_le _
    · have := length_padded_le (name ++ [0])
      unfold longName
      rw [List.length_append, Header.length_block]
      rw [List.length_append, List.length_singleton] at this
      omega
  have hstart := hlong ((pathFields_cases hpath).imp_left And.left)
  have htarget := hlong (targetsOf_cases m)
  have hdata := length_padded_le m.data
  unfold room Header.withData
  simp only [List.length_append, Header.length_block]
  omega

/-- An archive is not longer than its members and its end. -/
theorem length_encode_le : ∀ {ms : List Member} {bs : List UInt8}, encode ms = .ok bs →
    bs.length ≤ (ms.map room).sum + 2 * blockSize
  | [], bs, h => by
    obtain rfl : zeros (2 * blockSize) = bs := Except.ok.inj (encode_nil.symm.trans h)
    simp
  | m :: ms, bs, h => by
    obtain ⟨c, rest, hc, hrest, rfl⟩ := encode_cons h
    have hfirst := length_encodeMember_le hc
    have hothers := length_encode_le hrest
    rw [List.length_append, List.map_cons, List.sum_cons]
    omega

/-- In an archive whose length can be told, so can the lengths of its members. -/
theorem told_of_encode : ∀ {ms : List Member} {bs : List UInt8}, encode ms = .ok bs → bs.length < Text.limit64 →
    (∀ m ∈ ms, m.kind.IsStored) → ∀ m ∈ ms, Told m
  | [], _, _, _, _ => nofun
  | m :: ms, bs, h, hl, hk => by
    obtain ⟨c, rest, hc, hrest, rfl⟩ := encode_cons h
    rw [List.length_append] at hl
    rw [List.forall_mem_cons] at hk ⊢
    refine ⟨?_, told_of_encode hrest (by omega) hk.2⟩
    obtain ⟨user, group, start, name, -, -, hpath, rfl⟩ := encodeMember_eq_ok.1 hc
    unfold Header.withData padded at hl
    simp only [List.length_append] at hl
    have hlong : ∀ code name, name.length + 1 ≤ (longName code name).length := by
      intro code name
      unfold longName padded
      simp only [List.length_append, List.length_singleton]
      omega
    refine ⟨hk.1, by omega, fun start' name' hpath' => ?_, ?_⟩
    · obtain ⟨rfl, rfl⟩ := Prod.mk.inj (Except.ok.inj (hpath.symm.trans hpath'))
      rcases pathFields_cases hpath with ⟨hnil, -⟩ | rfl
      · exact .inl hnil
      · have := hlong 0x4c (FileName.ofText m.path)
        exact .inr (by omega)
    · rcases targetsOf_cases m with hnil | htarget
      · exact .inl hnil
      · have := hlong 0x4b (FileName.ofText m.target)
        rw [htarget] at hl
        exact .inr (by omega)

end Archive

end ImageRecipe
