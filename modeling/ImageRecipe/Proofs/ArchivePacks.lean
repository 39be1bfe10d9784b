import ImageRecipe.Proofs.ArchiveMembers

/-! Archives of layers: where an archive ends is seen from its bytes, and layers with one archive have one
archive once they are given another owner. -/

namespace ImageRecipe

namespace Archive

/-- The bytes of a member begin with the block of a header, which names only the owners that the member has. -/
theorem exists_block {m : Member} {c : List UInt8} (h : encodeMember m = .ok c) :
    ∃ (x : Header) (r : List UInt8), c = x.block ++ r ∧
      (m.user = "" → x.user = []) ∧ (m.group = "" → x.group = []) := by
  obtain ⟨user, group, start, name, huser, hgroup, hpath, hc⟩ := encodeMember_eq_ok.1 h
  have hempty : ∀ {s n}, ownerName s = .ok n → s = "" → n = [] := by
    rintro s n hn rfl
    exact (Except.ok.inj (hn.symm.trans (show ownerName "" = .ok [] by decide +kernel)))
  have hdata : ∀ (x : Header) (data r : List UInt8), x.withData data ++ r = x.block ++ (padded data ++ r) :=
    fun x data r => List.append_assoc ..
  rcases announces_pathFields hpath with hs | ⟨name', hs⟩
  · rcases announces_targetsOf m with ht | ⟨target, ht⟩
    · exact ⟨_, padded m.data, by rw [hc, hs, ht, List.nil_append, List.nil_append, Header.withData],
        hempty huser, hempty hgroup⟩
    · exact ⟨_, _, by rw [hc, hs, ht, longName_eq, List.nil_append, hdata], fun _ => rfl, fun _ => rfl⟩
  · exact ⟨_, _, by rw [hc, hs, longName_eq, hdata], fun _ => rfl, fun _ => rfl⟩

/-- The end of an archive is not the beginning of a member. -/
private theorem encodeMember_ne_end {m : Member} {c r r' : List UInt8} (h : encodeMember m = .ok c) :
    c ++ r ≠ zeros (2 * blockSize) ++ r' := by
  obtain ⟨x, rest, hc, -, -⟩ := exists_block h
  have hz : zeros (2 * blockSize) = zeros blockSize ++ zeros blockSize := by
    unfold zeros
    rw [List.replicate_append_replicate]
    rfl
  rw [hc, hz, List.append_assoc, List.append_assoc]
  intro heq
  exact x.block_ne_zeros (List.append_inj heq (by rw [x.length_block, length_zeros])).1

theorem encode_nil : encode [] = .ok (zeros (2 * blockSize)) := rfl

theorem encode_cons {m : Member} {ms : List Member} {a : List UInt8}
    (h : encode (m :: ms) = .ok a) : ∃ c b, encodeMember m = .ok c ∧ encode ms = .ok b ∧ a = c ++ b := by
  unfold encode at h
  rw [List.mapM_cons] at h
  obtain ⟨parts, hparts, h⟩ := bind_eq_ok.1 h
  obtain ⟨c, hc, hparts⟩ := bind_eq_ok.1 hparts
  obtain ⟨rest, hrest, hparts⟩ := bind_eq_ok.1 hparts
  cases hparts
  refine ⟨c, rest.flatten ++ zeros (2 * blockSize), hc, ?_, ?_⟩
  · unfold encode
    rw [hrest]
    rfl
  · rw [← Except.ok.inj h, List.flatten_cons, List.append_assoc]

/-- Where an archive ends is seen from its bytes, and they tell the members up to their owners. -/
theorem encode_append_inj : ∀ {ms ms' : List Member} {a a' r r' : List UInt8}, encode ms = .ok a →
    encode ms' = .ok a' → (∀ m ∈ ms, m.kind.IsStored) → (∀ m ∈ ms', m.kind.IsStored) →
    (a ++ r).length < Text.limit64 → a ++ r = a' ++ r' → List.Forall₂ SameOwned ms ms' ∧ r = r' := by
  intro ms
  induction ms with
  | nil =>
    intro ms' a a' r r' h h' _ _ _ heq
    rw [encode_nil, Except.ok.injEq] at h
    cases ms' with
    | nil =>
      rw [encode_nil, Except.ok.injEq] at h'
      rw [← h, ← h'] at heq
      exact ⟨.nil, List.append_cancel_left heq⟩
    | cons m ms' =>
      obtain ⟨c, b, hc, -, ha'⟩ := encode_cons h'
      rw [← h, ha', List.append_assoc] at heq
      exact (encodeMember_ne_end hc heq.symm).elim
  | cons m ms ih =>
    intro ms' a a' r r' h h' hk hk' hl heq
    obtain ⟨c, b, hc, hb, ha⟩ := encode_cons h
    rw [ha, List.append_assoc] at heq hl
    cases ms' with
    | nil =>
      rw [encode_nil, Except.ok.injEq] at h'
      rw [← h'] at heq
      exact (encodeMember_ne_end hc heq).elim
    | cons m' ms' =>
      obtain ⟨c', b', hc', hb', ha'⟩ := encode_cons h'
      rw [ha', List.append_assoc] at heq
      obtain ⟨hsame, hrest⟩ :=
        encodeMember_append_inj hc hc' (hk m (by simp)) (hk' m' (by simp)) hl heq
      obtain ⟨hall, hr⟩ := ih hb hb' (fun m hm => hk m (by simp [hm])) (fun m hm => hk' m (by simp [hm]))
        (lt_of_append hl) hrest
      exact ⟨.cons hsame hall, hr⟩

/-- Members with the same bytes up to their owners have one archive once they have one owner. -/
theorem encode_owned {ms ms' : List Member} (h : List.Forall₂ SameOwned ms ms') (o : Ownership) :
    encode (ms.map fun m => m.owned o) = encode (ms'.map fun m => m.owned o) := by
  suffices hparts : (ms.map fun m => m.owned o).mapM encodeMember =
      (ms'.map fun m => m.owned o).mapM encodeMember by
    unfold encode
    rw [hparts]
  induction h with
  | nil => rfl
  | cons hm _ ih => rw [List.map_cons, List.map_cons, List.mapM_cons, List.mapM_cons, hm o, ih]

end Archive

namespace LayerOptions

variable (o : LayerOptions)

/-- The options that differ in the owner alone. -/
def owned (owner : Ownership) : LayerOptions := { o with owner }

theorem member_owned (owner : Ownership) (path : String) (k : MemberKind) (mode : Nat) (data : List UInt8)
    (target : String) : (o.owned owner).member path k mode data target =
      (o.member path k mode data target).owned owner := by
  unfold member owned
  cases owner <;> cases o.owner <;> rfl

theorem memberOf?_owned (owner : Ownership) (path : String) (e : Entry) :
    (o.owned owner).memberOf? path e = (o.memberOf? path e).map fun m => m.owned owner := by
  unfold memberOf?
  cases e with
  | file | directory | link => exact congrArg some (member_owned ..)
  | pipe => rfl

/-- The members of a layer with another owner are those of the layer with that owner. -/
theorem members_owned (owner : Ownership) (entries : List (Location × Entry)) :
    (o.owned owner).members entries = (o.members entries).map fun m => m.owned owner := by
  unfold members
  rw [List.map_append, List.map_map, List.map_filterMap]
  refine congrArg₂ (· ++ ·) (List.map_congr_left fun d _ => ?_) (List.filterMap_congr fun e _ => ?_)
  · exact o.member_owned ..
  · exact o.memberOf?_owned ..

/-- Members of a layer that belongs to root name no owner. -/
theorem owners_of_mem_members {entries : List (Location × Entry)} (h : o.owner = .root) :
    ∀ m ∈ o.members entries, m.user = "" ∧ m.group = "" := by
  have hmember : ∀ path k mode data target, (o.member path k mode data target).user = "" ∧
      (o.member path k mode data target).group = "" := by
    intros
    unfold member
    rw [h]
    exact ⟨rfl, rfl⟩
  intro m hm
  unfold members at hm
  rcases List.mem_append.1 hm with hm | hm
  · obtain ⟨d, -, rfl⟩ := List.mem_map.1 hm
    exact hmember ..
  · obtain ⟨e, -, he⟩ := List.mem_filterMap.1 hm
    unfold memberOf? at he
    split at he
    · cases he
      exact hmember ..
    · cases he
      exact hmember ..
    · cases he
      exact hmember ..
    · cases he

theorem isStored_of_mem_members {entries : List (Location × Entry)} : ∀ m ∈ o.members entries,
    m.kind.IsStored := by
  have hkind : ∀ path k mode data target, (o.member path k mode data target).kind = k := by
    intros
    unfold member
    cases o.owner <;> rfl
  intro m hm
  unfold members at hm
  rcases List.mem_append.1 hm with hm | hm
  · obtain ⟨d, -, rfl⟩ := List.mem_map.1 hm
    rw [hkind]
    exact .inr (.inl rfl)
  · obtain ⟨e, -, he⟩ := List.mem_filterMap.1 hm
    unfold memberOf? at he
    split at he
    · cases he
      exact .inl (hkind ..)
    · cases he
      exact .inr (.inl (hkind ..))
    · cases he
      exact .inr (.inr (hkind ..))
    · cases he

end LayerOptions

namespace Archive

/-- Where the archive of a layer ends is seen from its bytes, and layers with one archive have one archive
with every owner. -/
theorem pack_append_inj {o : LayerOptions} {es es' : List (Location × Entry)} {a a' r r' : List UInt8}
    (h : pack o es = .ok a) (h' : pack o es' = .ok a') (hl : (a ++ r).length < Text.limit64)
    (heq : a ++ r = a' ++ r') :
    (∀ owner, pack (o.owned owner) es = pack (o.owned owner) es') ∧ r = r' := by
  obtain ⟨hall, hr⟩ :=
    encode_append_inj h h' o.isStored_of_mem_members o.isStored_of_mem_members hl heq
  refine ⟨fun owner => ?_, hr⟩
  unfold pack
  rw [o.members_owned, o.members_owned]
  exact encode_owned hall owner

end Archive

end ImageRecipe
