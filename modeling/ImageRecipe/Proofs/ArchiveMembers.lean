import Mathlib.Tactic.SplitIfs
import ImageRecipe.Proofs.Actions
import ImageRecipe.Proofs.ArchiveHeaders

/-! Members of archives: where the bytes of a member end is seen from the bytes, and members with the same
bytes have the same bytes once they have other owners. -/

namespace ImageRecipe

/-- The kinds of members that layers have. -/
def MemberKind.IsStored (k : MemberKind) : Prop := k = .file ∨ k = .directory ∨ k = .link

/-- The numbers of the user and the group that an owner comes to. -/
def Ownership.ids : Ownership → Nat × Nat
  | numeric uid gid => (uid, gid)
  | _ => (0, 0)

/-- The names of the user and the group that an owner comes to. -/
def Ownership.names : Ownership → String × String
  | named user group => (user, group)
  | _ => ("", "")

/-- A member with another owner. -/
def Member.owned (m : Member) (o : Ownership) : Member :=
  { m with uid := o.ids.1, gid := o.ids.2, user := o.names.1, group := o.names.2 }

namespace Archive

/-- The target of a link as it is stored; other members have none. -/
def targetsOf (m : Member) : List UInt8 × List UInt8 :=
  if m.kind = .link then targetFields m.target else ([], [])

/-- The header of a member, given what stands in it for names. -/
def headerOf (m : Member) (name user group : List UInt8) : Header :=
  { name, mode := m.mode, uid := m.uid, gid := m.gid, size := m.data.length, code := typeCode m.kind
    target := (targetsOf m).2, user, group }

theorem encodeMember_eq_ok {m : Member} {c : List UInt8} : encodeMember m = .ok c ↔
    ∃ user group start name, ownerName m.user = .ok user ∧ ownerName m.group = .ok group ∧
      pathFields m.path = .ok (start, name) ∧
      c = start ++ ((targetsOf m).1 ++ (headerOf m name user group).withData m.data) := by
  unfold encodeMember
  simp only [bind_eq_ok]
  constructor
  · rintro ⟨user, huser, group, hgroup, ⟨start, name⟩, hpath, h⟩
    refine ⟨user, group, start, name, huser, hgroup, hpath, ?_⟩
    cases h
    simp only [List.append_assoc]
    rfl
  · rintro ⟨user, group, start, name, huser, hgroup, hpath, rfl⟩
    refine ⟨user, huser, group, hgroup, (start, name), hpath, ?_⟩
    simp only [pure, Except.pure, List.append_assoc]
    rfl

/-- The bytes of a member with another owner, given the fields of its path. -/
theorem encodeMember_owned {m : Member} {start name : List UInt8} (h : pathFields m.path = .ok (start, name))
    (o : Ownership) (user group : List UInt8) : encodeMember (m.owned o) = (do
      let u ← ownerName o.names.1
      let g ← ownerName o.names.2
      let header := (headerOf m name user group).withOwner o.ids.1 o.ids.2 u g
      pure (start ++ ((targetsOf m).1 ++ header.withData m.data))) := by
  unfold encodeMember Member.owned
  simp only [h, List.append_assoc]
  rfl

/-- There is nothing, or a name that has no room in a header. -/
def Announces (code : UInt8) (bs : List UInt8) : Prop := bs = [] ∨ ∃ name, bs = longName code name

theorem longName_eq (code : UInt8) (name : List UInt8) :
    longName code name = (longHeader code name).withData (name ++ [0]) := rfl

theorem longName_ne_nil (code : UInt8) (name : List UInt8) : longName code name ≠ [] := by
  rw [longName_eq]
  intro hnil
  have := congrArg List.length hnil
  unfold Header.withData at this
  rw [List.length_append, Header.length_block] at this
  simp [blockSize] at this

theorem announces_pathFields {path : String} {start name : List UInt8}
    (h : pathFields path = .ok (start, name)) : Announces 0x4c start := by
  unfold pathFields at h
  dsimp only at h
  split_ifs at h
  · exact .inl (Prod.mk.inj (Except.ok.inj h)).1.symm
  · exact .inr ⟨_, (Prod.mk.inj (Except.ok.inj h)).1.symm⟩

theorem announces_targetsOf (m : Member) : Announces 0x4b (targetsOf m).1 := by
  unfold targetsOf
  split
  · unfold targetFields
    dsimp only
    split
    · exact .inl rfl
    · exact .inr ⟨_, rfl⟩
  · exact .inl rfl

/-- Bytes that begin with a header and its data, where the header does not have a code. -/
def Follows (code : UInt8) (bs : List UInt8) : Prop :=
  ∃ (h : Header) (data r : List UInt8), bs = h.withData data ++ r ∧ h.size = data.length ∧ h.code ≠ code

theorem lt_of_append {a b : List UInt8} {n : Nat} (hl : (a ++ b).length < n) : b.length < n := by
  rw [List.length_append] at hl
  omega

private theorem lt_of_withData {h : Header} {data r : List UInt8} {n : Nat}
    (hl : (h.withData data ++ r).length < n) : data.length < n := by
  unfold Header.withData padded at hl
  simp only [List.length_append] at hl
  omega

private theorem ne_of_follows {code : UInt8} {name r bs : List UInt8} (hf : Follows code bs)
    (hl : bs.length < Text.limit64) : bs ≠ longName code name ++ r := by
  obtain ⟨h, data, rest, hbs, hs, hc⟩ := hf
  rw [hbs] at hl ⊢
  intro heq
  have hl' := heq ▸ hl
  rw [longName_eq] at heq hl'
  obtain ⟨hblock, -⟩ := Header.withData_append_inj hs (by simp [longHeader]) (lt_of_withData hl)
    (lt_of_withData hl') heq
  exact hc (Header.alike_of_block hblock).code

/-- A name that may stand before other things is seen from the bytes. -/
theorem Announces.append_inj {code : UInt8} {a a' b b' : List UInt8} (ha : Announces code a)
    (ha' : Announces code a') (hb : Follows code b) (hb' : Follows code b')
    (hl : (a ++ b).length < Text.limit64) (heq : a ++ b = a' ++ b') : a = a' ∧ b = b' := by
  have hl' := heq ▸ hl
  rcases ha with ha | ⟨name, ha⟩
  · rcases ha' with ha' | ⟨name', ha'⟩
    · rw [ha, ha'] at heq ⊢
      exact ⟨rfl, heq⟩
    · rw [ha] at heq hl
      rw [ha'] at heq
      exact absurd heq (ne_of_follows hb hl)
  · rcases ha' with ha' | ⟨name', ha'⟩
    · rw [ha] at heq
      rw [ha'] at heq hl'
      exact absurd heq.symm (ne_of_follows hb' hl')
    · rw [ha, longName_eq] at heq hl ⊢
      rw [ha', longName_eq] at heq hl' ⊢
      obtain ⟨-, hname, hrest⟩ := Header.withData_append_inj (by simp [longHeader]) (by simp [longHeader])
        (lt_of_withData hl) (lt_of_withData hl') heq
      exact ⟨by rw [List.append_cancel_right hname], hrest⟩

private theorem Follows.announced {code code' : UInt8} {a b : List UInt8} (ha : Announces code' a)
    (hne : code' ≠ code) (hb : Follows code b) : Follows code (a ++ b) := by
  rcases ha with ha | ⟨name, ha⟩
  · rw [ha]
    exact hb
  · rw [ha]
    exact ⟨longHeader code' name, name ++ [0], b, by rw [longName_eq], by simp [longHeader], hne⟩

/-- Two members have the same bytes with every owner. -/
def SameOwned (m m' : Member) : Prop := ∀ o, encodeMember (m.owned o) = encodeMember (m'.owned o)

private theorem follows_headerOf {m : Member} (hk : m.kind.IsStored) {name user group r : List UInt8}
    {code : UInt8} (hc : code = 0x4c ∨ code = 0x4b) :
    Follows code ((headerOf m name user group).withData m.data ++ r) := by
  refine ⟨_, _, _, rfl, rfl, ?_⟩
  change typeCode m.kind ≠ code
  rcases hk with h | h | h <;> (rw [h]; rcases hc with hc | hc <;> (rw [hc]; decide))

/-- Where the bytes of a member end is seen from them, and they tell the member up to its owner. -/
theorem encodeMember_append_inj {m m' : Member} {c c' r r' : List UInt8} (hm : encodeMember m = .ok c)
    (hm' : encodeMember m' = .ok c') (hk : m.kind.IsStored) (hk' : m'.kind.IsStored)
    (hl : (c ++ r).length < Text.limit64) (heq : c ++ r = c' ++ r') : SameOwned m m' ∧ r = r' := by
  obtain ⟨user, group, start, name, -, -, hpath, rfl⟩ := encodeMember_eq_ok.1 hm
  obtain ⟨user', group', start', name', -, -, hpath', rfl⟩ := encodeMember_eq_ok.1 hm'
  have hl' := heq ▸ hl
  simp only [List.append_assoc] at heq hl hl'
  obtain ⟨hstart, hmain⟩ := (announces_pathFields hpath).append_inj (announces_pathFields hpath')
    ((follows_headerOf hk (.inl rfl)).announced (announces_targetsOf m) (by decide))
    ((follows_headerOf hk' (.inl rfl)).announced (announces_targetsOf m') (by decide)) hl heq
  have hl₁ := lt_of_append hl
  have hl₂ := lt_of_append hl'
  obtain ⟨htarget, hdata⟩ := (announces_targetsOf m).append_inj (announces_targetsOf m')
    (follows_headerOf hk (.inr rfl)) (follows_headerOf hk' (.inr rfl)) hl₁ hmain
  obtain ⟨hblock, hsame, hrest⟩ := Header.withData_append_inj rfl rfl
    (lt_of_withData (lt_of_append hl₁)) (lt_of_withData (lt_of_append hl₂)) hdata
  refine ⟨fun o => ?_, hrest⟩
  have halike := Header.alike_of_block hblock
  rw [encodeMember_owned hpath o user group, encodeMember_owned hpath' o user' group', hstart, htarget, hsame]
  unfold Header.withData
  simp only [halike.block_withOwner]

end Archive

end ImageRecipe
