import ImageRecipe.Proofs.ArchivePacks
import ImageRecipe.Proofs.ArchivePaths

/-! What a reader finds in an archive: for each member the block of its header and its data, with what stood before it.
In an archive that was written these are the blocks and the data of the members, one after the other. -/

namespace ImageRecipe.Archive

/-- What is found where a member stands: what was said of it before, the block of its header and its data. -/
structure Found where
  said : Pending
  block : List UInt8
  data : List UInt8

/-- The member that is read. -/
def Found.member (f : Found) : StoredMember := memberOfBlock f.said f.block f.data

/-- The time that a member was changed at, in seconds. -/
def Found.time (f : Found) : Except Fault Nat := numberOfField (slice 136 12 f.block)

/-- What is found in the blocks of an archive. -/
def foundFrom : Nat → Pending → List UInt8 → Except Fault (List Found)
  | 0, _, _ => .ok []
  | fuel + 1, p, bs => do
    match ← firstHeader? bs with
    | none => if p = {} then pure [] else throw .badArchive
    | some (block, rest) =>
      let (data, rest) ← memberData p block rest
      match ← p.add? block data with
      | some p => foundFrom fuel p rest
      | none => pure (⟨p, block, data⟩ :: (← foundFrom fuel {} rest))

/-- What is found in an archive. -/
def found (bs : List UInt8) : Except Fault (List Found) := foundFrom (bs.length / blockSize + 1) {} bs

theorem membersFrom_eq (fuel : Nat) (p : Pending) (bs : List UInt8) :
    membersFrom fuel p bs = (foundFrom fuel p bs).map (List.map Found.member) := by
  induction fuel generalizing p bs with
  | zero => rfl
  | succ fuel ih =>
    rw [membersFrom, foundFrom]
    cases firstHeader? bs with
    | error => rfl
    | ok first =>
      rcases first with _ | ⟨block, rest⟩
      · by_cases hp : p = {} <;> simp [bind, Except.bind, hp] <;> rfl
      · cases hdata : memberData p block rest with
        | error => simp [bind, Except.bind, hdata, Except.map]
        | ok dr =>
          cases hadd : p.add? block dr.1 with
          | error => simp [bind, Except.bind, hdata, hadd, Except.map]
          | ok next =>
            cases next with
            | some p => simp [bind, Except.bind, hdata, hadd, ih]
            | none =>
              simp only [bind, Except.bind, hdata, hadd, ih]
              cases foundFrom fuel {} dr.2 <;> rfl

/-- The members that are read from an archive are those that are found in it. -/
theorem decode_eq_map_found (bs : List UInt8) : decode bs = (found bs).map (List.map Found.member) :=
  membersFrom_eq ..

/-! ### Fields -/

/-- Without attributes, only what was announced stands in place of the path of a header. -/
theorem Pending.path?_mk : ∀ path target, Pending.path? ⟨path, target, none⟩ = path
  | some _, _ | none, _ => rfl

theorem Pending.target?_mk : ∀ path target, Pending.target? ⟨path, target, none⟩ = target
  | _, some _ | _, none => rfl

section Block

variable (p : Pending) (h : Header) (data : List UInt8)

theorem memberOfBlock_code : (memberOfBlock p h.block data).code = h.code := by
  have hcode : ∀ block, (memberOfBlock p block data).code = codeOf block := fun _ => rfl
  rw [hcode, h.codeOf_block]

theorem memberOfBlock_path :
    (memberOfBlock p h.block data).path = p.path?.getD (beforeZero (fit nameSize h.name)) := by
  have hheader : headerPath h.block = beforeZero (fit nameSize h.name) := by
    unfold headerPath
    rw [h.formatOf?_block, h.slice_name]
    rfl
  rw [← hheader]
  rfl

theorem memberOfBlock_target :
    (memberOfBlock p h.block data).target = p.target?.getD (beforeZero (fit nameSize h.target)) := by
  rw [← h.slice_target]
  rfl

theorem memberOfBlock_mode (hm : h.mode < 8 ^ 7) : (memberOfBlock p h.block data).mode = some h.mode := by
  have hread := octalOfField_octalField (show 0 < 7 by decide) hm (hm.trans (by decide))
  have hmod : h.mode % Text.limit32 = h.mode := Nat.mod_eq_of_lt (hm.trans (by decide))
  unfold memberOfBlock
  dsimp only
  rw [h.slice_mode, hread]
  exact congrArg some hmod

theorem memberOfBlock_uid (hu : h.uid < 2 ^ 63) : (memberOfBlock p h.block data).uid = h.uid := by
  unfold memberOfBlock
  dsimp only
  rw [h.slice_uid, numberOfField_ownerField hu]
  rfl

theorem memberOfBlock_gid (hg : h.gid < 2 ^ 63) : (memberOfBlock p h.block data).gid = h.gid := by
  unfold memberOfBlock
  dsimp only
  rw [h.slice_gid, numberOfField_ownerField hg]
  rfl

theorem memberOfBlock_user : (memberOfBlock p h.block data).user = beforeZero (fit ownerNameSize h.user) := by
  rw [← h.slice_user]
  rfl

theorem memberOfBlock_group : (memberOfBlock p h.block data).group = beforeZero (fit ownerNameSize h.group) := by
  rw [← h.slice_group]
  rfl

end Block

variable {fuel : Nat} {p q : Pending} {h : Header} {m : Member} {data r c : List UInt8}

/-! ### Steps of a reader -/

/-- A header and its data are one step for a reader. -/
private theorem foundFrom_withData (hp : p.attributes = none) (hs : h.size = data.length)
    (hl : data.length < Text.limit64) (hc : h.code ≠ sparseCode) :
    foundFrom (fuel + 1) p (h.withData data ++ r) = (do
      match ← p.add? h.block data with
      | some p => foundFrom fuel p r
      | none => pure (⟨p, h.block, data⟩ :: (← foundFrom fuel {} r))) := by
  unfold Header.withData
  rw [List.append_assoc, foundFrom, h.firstHeader?_block_append]
  cases hadd : p.add? h.block data with
  | error => simp [bind, Except.bind, memberData_withData hp hs hl hc, hadd]
  | ok p => cases p <;> simp [bind, Except.bind, memberData_withData hp hs hl hc, hadd]

/-- Blocks are enough fuel for what follows a header. -/
private theorem fuel_of_withData (hf : (h.withData data ++ r).length / blockSize < fuel) :
    ∃ left, fuel = left + 1 ∧ r.length / blockSize < left := by
  obtain ⟨left, rfl⟩ := Nat.exists_eq_add_one_of_ne_zero (Nat.ne_zero_of_lt hf)
  refine ⟨left, rfl, ?_⟩
  have hlength : blockSize + r.length ≤ (h.withData data ++ r).length := by
    unfold Header.withData
    rw [List.length_append, List.length_append, h.length_block]
    omega
  have hdiv := Nat.div_le_div_right (c := blockSize) hlength
  rw [Nat.add_div_left _ (by decide)] at hdiv
  omega

private theorem withoutEnd_append (name : List UInt8) : withoutEnd (name ++ [0]) = name := by
  simp [withoutEnd]

/-- A name that stands before a header, if it had no room there. -/
def announced (start name : List UInt8) : Option RawPath := if start = [] then none else some name

/-- After a name that had no room in a header it is known. -/
private theorem foundFrom_announced {code : UInt8} {start name : List UInt8}
    (hstart : start = [] ∨ start = longName code name) (hf : (start ++ r).length / blockSize < fuel)
    (hp : p.attributes = none) (hl : start = [] ∨ name.length + 1 < Text.limit64) (hc : code ≠ sparseCode)
    (hnone : announced start name = none → q = p)
    (hadd : announced start name = some name → p.add? (longHeader code name).block (name ++ [0]) = .ok (some q)) :
    ∃ left, r.length / blockSize < left ∧ foundFrom fuel p (start ++ r) = foundFrom left q r := by
  rcases hstart with rfl | rfl
  · exact ⟨fuel, hf, by rw [hnone rfl, List.nil_append]⟩
  · have hne := longName_ne_nil code name
    rw [longName_eq] at hf
    obtain ⟨left, rfl, hleft⟩ := fuel_of_withData hf
    refine ⟨left, hleft, ?_⟩
    rw [longName_eq, foundFrom_withData hp (by simp [longHeader]) (by simpa using hl.resolve_left hne) hc,
      hadd (if_neg hne)]
    rfl

/-- Members of layers neither say something of others nor have holes. -/
private theorem typeCode_ne {k : MemberKind} (h : k.IsStored) : typeCode k ≠ longPathCode ∧
    typeCode k ≠ longTargetCode ∧ typeCode k ≠ attributesCode ∧ typeCode k ≠ sparseCode := by
  rcases h with rfl | rfl | rfl <;> decide

/-! ### Members -/

/-- What stands before a header for a path: nothing, where the header has all of it, or the path. -/
theorem pathFields_cases {path : String} {start name : List UInt8} (h : pathFields path = .ok (start, name)) :
    (start = [] ∧ ∃ names, memberNames? false path = some names ∧
      place nameSize (spelling path names) = (name, true)) ∨
    start = longName 0x4c (FileName.ofText path) := by
  unfold pathFields at h
  dsimp only at h
  split_ifs at h with hfits
  · obtain ⟨rfl, hname⟩ := Prod.mk.inj (Except.ok.inj h)
    refine .inl ⟨rfl, ?_⟩
    revert hfits hname
    cases memberNames? false path with
    | none => nofun
    | some names => exact fun hfits hname => ⟨names, rfl, Prod.ext hname hfits⟩
  · exact .inr (Prod.mk.inj (Except.ok.inj h)).1.symm

/-- What stands before a header for a target: nothing, or the target. -/
theorem targetsOf_cases (m : Member) :
    (targetsOf m).1 = [] ∨ (targetsOf m).1 = longName 0x4b (FileName.ofText m.target) := by
  unfold targetsOf
  split
  · exact (targetFields_cases m.target).imp And.left And.left
  · exact .inl rfl

/-- A member of a layer whose lengths can be told: that of its data, and those of its path and its target where they
have no room in the header. -/
structure Told (m : Member) : Prop where
  kind : m.kind.IsStored
  data : m.data.length < Text.limit64
  path : ∀ start name, pathFields m.path = .ok (start, name) →
    start = [] ∨ (FileName.ofText m.path).length + 1 < Text.limit64
  target : (targetsOf m).1 = [] ∨ (FileName.ofText m.target).length + 1 < Text.limit64

/-- What is found where a member was written. -/
inductive FoundOf (m : Member) : Found → Prop
  | mk {user group start name : List UInt8} (user_eq : ownerName m.user = .ok user)
    (group_eq : ownerName m.group = .ok group) (path_eq : pathFields m.path = .ok (start, name)) :
    FoundOf m ⟨⟨announced start (FileName.ofText m.path),
      announced (targetsOf m).1 (FileName.ofText m.target), none⟩, (headerOf m name user group).block, m.data⟩

/-- What is found first is the first member that was written. -/
theorem foundFrom_encodeMember (hm : Told m) (hc : encodeMember m = .ok c)
    (hf : (c ++ r).length / blockSize < fuel) :
    ∃ left f, r.length / blockSize < left ∧ FoundOf m f ∧
      ∀ fs, foundFrom left {} r = .ok fs → foundFrom fuel {} (c ++ r) = .ok (f :: fs) := by
  obtain ⟨user, group, start, name, huser, hgroup, hpath, rfl⟩ := encodeMember_eq_ok.1 hc
  rw [List.append_assoc, List.append_assoc] at hf ⊢
  have hstart : start = [] ∨ start = longName 0x4c (FileName.ofText m.path) :=
    (pathFields_cases hpath).imp_left And.left
  obtain ⟨left, hleft, heq⟩ := foundFrom_announced (q := { path := announced start (FileName.ofText m.path) })
    hstart hf rfl (hm.path _ _ hpath) (by decide) (fun hnone => by rw [hnone]) fun hsome => by
      unfold Pending.add?
      rw [Header.formatOf?_block, Header.codeOf_block, withoutEnd_append, hsome]
      exact (if_neg nofun).trans (if_pos rfl)
  obtain ⟨left', hleft', heq'⟩ := foundFrom_announced
    (q := ⟨announced start (FileName.ofText m.path), announced (targetsOf m).1 (FileName.ofText m.target), none⟩)
    (targetsOf_cases m) hleft rfl hm.target (by decide) (fun hnone => by rw [hnone]) fun hsome => by
      have hcode : longTargetCode ≠ longPathCode := by decide
      unfold Pending.add?
      rw [Header.formatOf?_block, Header.codeOf_block, withoutEnd_append, hsome]
      exact (if_neg nofun).trans ((if_neg hcode).trans (if_pos rfl))
  obtain ⟨left'', rfl, hleft''⟩ := fuel_of_withData hleft'
  have hcode := typeCode_ne hm.kind
  have hadd : ∀ path target, (Pending.mk path target none).add? (headerOf m name user group).block m.data =
      .ok none := by
    intro path target
    unfold Pending.add?
    rw [Header.formatOf?_block, Header.codeOf_block]
    exact (if_neg nofun).trans ((if_neg hcode.1).trans ((if_neg hcode.2.1).trans (if_neg hcode.2.2.1)))
  refine ⟨left'', _, hleft'', .mk huser hgroup hpath, fun fs hfs => ?_⟩
  rw [heq, heq', foundFrom_withData rfl rfl hm.data hcode.2.2.2, hadd]
  simp only [bind, Except.bind, hfs]
  rfl

private theorem foundFrom_encode {ms : List Member} (hm : ∀ m ∈ ms, Told m) :
    ∀ {fuel : Nat} {bs : List UInt8}, encode ms = .ok bs → bs.length / blockSize < fuel →
      ∃ fs, foundFrom fuel {} bs = .ok fs ∧ List.Forall₂ FoundOf ms fs := by
  induction ms with
  | nil =>
    intro fuel bs h hf
    obtain rfl : zeros (2 * blockSize) = bs := Except.ok.inj (encode_nil.symm.trans h)
    obtain ⟨left, rfl⟩ := Nat.exists_eq_add_one_of_ne_zero (Nat.ne_zero_of_lt hf)
    refine ⟨[], ?_, .nil⟩
    rw [foundFrom, firstHeader?_end]
    rfl
  | cons m ms ih =>
    intro fuel bs h hf
    obtain ⟨c, rest, hc, hrest, rfl⟩ := encode_cons h
    obtain ⟨left, f, hleft, hfound, hfs⟩ := foundFrom_encodeMember (hm m (by simp)) hc hf
    obtain ⟨fs, hrests, hall⟩ := ih (fun m' hm' => hm m' (by simp [hm'])) hrest hleft
    exact ⟨f :: fs, hfs fs hrests, .cons hfound hall⟩

/-- What is found in an archive are the members that were written into it. -/
theorem found_encode {ms : List Member} {bs : List UInt8} (hm : ∀ m ∈ ms, Told m) (h : encode ms = .ok bs) :
    ∃ fs, found bs = .ok fs ∧ List.Forall₂ FoundOf ms fs := foundFrom_encode hm h (Nat.lt_succ_self _)

end ImageRecipe.Archive
