import ImageRecipe.Proofs.ArchiveScan

/-! Archives read back: the members that are read from an archive are those that were written into it. -/

namespace ImageRecipe

namespace Archive

/-- A member whose numbers have room in its header and whose path is that of an entry of a tree. -/
structure Stands (m : Member) (l : Location) : Prop where
  kind : m.kind.IsStored
  mode : m.mode < 8 ^ 7
  size : m.data.length < Text.limit64
  path : m.path = l.path (if m.kind = .directory then ['/'] else [])
  ne_nil : l ≠ []
  written : ∀ n ∈ l, n.Written
  path_length : (FileName.ofText m.path).length + 1 < Text.limit64
  nul_notMem_path : 0 ∉ FileName.ofText m.path
  target_length : (FileName.ofText m.target).length + 1 < Text.limit64
  nul_notMem_target : 0 ∉ FileName.ofText (storedTarget m.target)

/-- What is read where a member was written. -/
structure Reads (m : Member) (x : StoredMember) : Prop where
  code : x.code = typeCode m.kind
  path : x.path = FileName.ofText m.path
  mode : x.mode = some m.mode
  data : x.data = m.data
  target : m.kind = .link → x.target = FileName.ofText (storedTarget m.target)

/-- What a header and what stood before it say of a field. -/
private theorem getD_announced {start field target : List UInt8}
    (h : (start = [] ∧ field = target ∧ field.length ≤ nameSize) ∨ start ≠ []) (hz : 0 ∉ target) :
    (announced start target).getD (beforeZero (fit nameSize field)) = target := by
  unfold announced
  rcases h with ⟨rfl, rfl, hl⟩ | hne
  · exact beforeZero_fit hz hl
  · rw [if_neg hne, Option.getD_some]

variable {m : Member} {l : Location}

theorem Stands.pathFields_cases (hm : Stands m l) {start name : List UInt8}
    (h : pathFields m.path = .ok (start, name)) :
    (start = [] ∧ name = FileName.ofText m.path ∧ name.length ≤ nameSize) ∨ start ≠ [] := by
  rw [hm.path] at h ⊢
  refine (Location.pathFields_path hm.written hm.ne_nil (Path.isTail_ite _) h).imp_right ?_
  rintro rfl
  exact longName_ne_nil _ _

/-- The lengths of such a member can be told. -/
theorem Stands.told (hm : Stands m l) : Told m :=
  ⟨hm.kind, hm.size, fun _ _ _ => .inr hm.path_length, .inr hm.target_length⟩

/-- What is found where such a member was written is the member. -/
theorem Stands.reads (hm : Stands m l) {f : Found} (hf : FoundOf m f) : Reads m f.member := by
  obtain ⟨-, -, hpath⟩ := hf
  refine ⟨memberOfBlock_code .., ?_, memberOfBlock_mode _ (headerOf ..) _ hm.mode, rfl, fun hlink => ?_⟩
  · unfold Found.member
    rw [memberOfBlock_path, Pending.path?_mk]
    exact getD_announced (hm.pathFields_cases hpath) hm.nul_notMem_path
  · have htargets : targetsOf m = targetFields m.target := if_pos hlink
    unfold Found.member
    rw [memberOfBlock_target, Pending.target?_mk]
    change (announced (targetsOf m).1 _).getD (beforeZero (fit nameSize (targetsOf m).2)) = _
    rw [htargets]
    rcases targetFields_cases m.target with ⟨hnil, hfield, hlength⟩ | ⟨hlong, hsame⟩
    · rw [hnil]
      change beforeZero _ = _
      rw [beforeZero_fit (hfield ▸ hm.nul_notMem_target) hlength, hfield]
    · rw [hlong, hsame]
      exact getD_announced (.inr (longName_ne_nil _ _)) (hsame ▸ hm.nul_notMem_target)

/-- The members that are read from an archive are those that were written into it. -/
theorem decode_encode {ms : List Member} {bs : List UInt8} (hm : ∀ m ∈ ms, ∃ l, Stands m l)
    (h : encode ms = .ok bs) : ∃ xs, decode bs = .ok xs ∧ List.Forall₂ Reads ms xs := by
  obtain ⟨fs, hfs, hall⟩ := found_encode (fun m hmem => (hm m hmem).elim fun _ hl => hl.told) h
  refine ⟨fs.map Found.member, by rw [decode_eq_map_found, hfs]; rfl, ?_⟩
  rw [List.forall₂_map_right_iff]
  refine ((List.forall₂_and_left _ _).2 ⟨hm, hall⟩).imp ?_
  rintro m f ⟨⟨l, hl⟩, hf⟩
  exact hl.reads hf

end Archive

end ImageRecipe
