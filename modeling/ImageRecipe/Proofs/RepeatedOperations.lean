import ImageRecipe.Proofs.FileOperations

/-! Operations on files that are done once more: a directory that was made is there, a file that was written can be
written again, and a directory that was removed is made as it was. -/

namespace ImageRecipe.FileTree

variable {t t' u : FileTree} {d l : Location} {path : String}

theorem status_eq {e : Entry} (hr : t.resolve true d path = .ok l) (he : t.entry? l = some e) :
    t.status d path = .ok e := by
  unfold status
  simp only [hr, bind, Except.bind, he]
  rfl

theorem pathExists_iff : t.pathExists d path = true ↔
    ∃ l e, t.resolve true d path = .ok l ∧ t.entry? l = some e := by
  constructor
  · intro h
    obtain ⟨e, hs⟩ := status_of_pathExists h
    obtain ⟨l, hl, he⟩ := status_ok hs
    exact ⟨l, e, hl, he⟩
  · rintro ⟨l, e, hl, he⟩
    unfold pathExists
    rw [status_eq hl he]
    rfl

theorem isDirectory_iff : t.isDirectory d path = true ↔
    ∃ l mode, t.resolve true d path = .ok l ∧ t.entry? l = some (.directory mode) := by
  constructor
  · intro h
    unfold isDirectory at h
    cases hs : t.status d path with
    | error e => simp [hs, Except.toOption] at h
    | ok e =>
      obtain ⟨l, hl, he⟩ := status_ok hs
      cases e with
      | directory mode => exact ⟨l, mode, hl, he⟩
      | file | link | pipe => simp [hs, Except.toOption, Entry.isDirectory] at h
  · rintro ⟨l, mode, hl, he⟩
    unfold isDirectory
    rw [status_eq hl he]
    rfl

theorem pathExists_of_isDirectory (h : t.isDirectory d path = true) : t.pathExists d path = true := by
  obtain ⟨l, mode, hl, he⟩ := isDirectory_iff.1 h
  exact pathExists_iff.2 ⟨l, _, hl, he⟩

theorem require_eq {e : Entry} {r : Right} (he : t.entry? l = some e) (hg : e.grants r = true) :
    t.require r l = .ok () := by
  unfold require
  rw [he]
  simp [hg]

theorem require_congr {r : Right} (h : t'.entry? l = t.entry? l) : t'.require r l = t.require r l := by
  unfold require
  rw [h]

/-- To write a file takes a directory to write it in, and no directory in its place. -/
theorem write_eq_ok {data : ByteArray} : t.write d path data = .ok t' ↔
    t.isDirectory d (Path.directory path) = true ∧ ∃ l, t.resolve false d path = .ok l ∧
      t.require .write l.dropLast = .ok () ∧ Entry.NoDirectory (t.entry? l) ∧ t' = t.put l (.file writtenMode data) := by
  rw [isDirectory_iff]
  unfold FileTree.write
  constructor
  · intro hw
    obtain ⟨e, hs, hw⟩ := bind_eq_ok.1 hw
    obtain ⟨m, hm, he⟩ := status_ok hs
    split at hw
    · next mode =>
      obtain ⟨l, hl, hw⟩ := bind_eq_ok.1 hw
      exact ⟨⟨m, mode, hm, he⟩, l, hl, replace_ok hw⟩
    · cases hw
  · rintro ⟨⟨m, mode, hm, he⟩, l, hl, hr, hno, rfl⟩
    simp only [status_eq hm he, hl, bind, Except.bind, replace, hr]
    split
    · next hd => exact absurd hd (hno _)
    · rfl

/-! Trees that carry another one. -/

namespace Carries

theorem refl (t : FileTree) : Carries t t := ⟨fun _ _ => id, fun _ _ => .rfl⟩

theorem trans (h : Carries t t') (h' : Carries t' u) : Carries t u where
  directory l mode hd := h'.directory l mode (h.directory l mode hd)
  link l target := (h.link l target).trans (h'.link l target)

theorem unlinked (h : Carries t t') (hu : t.Unlinked d path) : t'.Unlinked d path where
  staysBelow := hu.staysBelow
  link_free p hp target ht := hu.link_free p hp target ((h.link p target).2 ht)

theorem isDirectory (h : Carries t t') (hd : t.isDirectory d path = true) : t'.isDirectory d path = true := by
  obtain ⟨l, mode, hl, he⟩ := isDirectory_iff.1 hd
  exact isDirectory_iff.2 ⟨l, mode, h.resolve hl, h.directory _ _ he⟩

/-- A file takes the place of none of the directories and links. -/
theorem of_put_file (hd : Entry.NoDirectory (t.entry? l)) (hl : ∀ target, t.entry? l ≠ some (.link target))
    (mode : Nat) (data : ByteArray) : Carries t (t.put l (.file mode data)) := by
  have hroot : l ≠ [] := by
    rintro rfl
    exact hd _ t.entry?_root
  constructor
  · intro p m hp
    have hne : p ≠ l := by
      rintro rfl
      exact hd m hp
    rw [t.entry?_put_of_ne hne, hp]
  · intro p target
    by_cases heq : p = l
    · subst heq
      simp [t.entry?_put_self hroot, hl target]
    · rw [t.entry?_put_of_ne heq]

theorem of_erase (hd : Entry.NoDirectory (t.entry? l)) (hl : ∀ target, t.entry? l ≠ some (.link target)) :
    Carries t (t.erase l) := by
  have hroot : l ≠ [] := by
    rintro rfl
    exact hd _ t.entry?_root
  constructor
  · intro p m hp
    have hne : p ≠ l := by
      rintro rfl
      exact hd m hp
    rw [t.entry?_erase_of_ne hne, hp]
  · intro p target
    by_cases heq : p = l
    · subst heq
      simp [t.entry?_erase_self hroot, hl target]
    · rw [t.entry?_erase_of_ne heq]

/-- One file in both trees. -/
theorem put_file (h : Carries t t') (l : Location) (mode : Nat) (data data' : ByteArray) :
    Carries (t.put l (.file mode data)) (t'.put l (.file mode data')) := by
  constructor
  · intro p m hp
    by_cases heq : p = l
    · subst heq
      by_cases hroot : p = []
      · subst hroot
        exact hp
      · simp [t.entry?_put_self hroot] at hp
    · rw [t.entry?_put_of_ne heq] at hp
      rw [t'.entry?_put_of_ne heq, h.directory p m hp]
  · intro p target
    by_cases heq : p = l
    · subst heq
      by_cases hroot : p = []
      · subst hroot
        simp
      · simp [t.entry?_put_self hroot, t'.entry?_put_self hroot]
    · rw [t.entry?_put_of_ne heq, t'.entry?_put_of_ne heq, h.link p target]

/-- To remove all at a place at which the other tree has nothing. -/
theorem eraseBelow (h : Carries t t') (hn : ∀ p, l <+: p → t.entry? p = none) : Carries t (t'.eraseBelow l) := by
  have hroot : l ≠ [] := by
    rintro rfl
    simpa using hn [] List.prefix_rfl
  have hno : ∀ p, t.entry? p ≠ none → ¬ l <+: p := fun p hp hpre => hp (hn p hpre)
  constructor
  · intro p m hp
    rw [t'.entry?_eraseBelow_of_not_prefix (hno p (by simp [hp])), h.directory p m hp]
  · intro p target
    constructor
    · intro hp
      rw [t'.entry?_eraseBelow_of_not_prefix (hno p (by simp [hp])), (h.link p target).1 hp]
    · intro hp
      have hpre : ¬ l <+: p := by
        intro hpre
        rw [t'.entry?_eraseBelow_of_prefix hpre (hpre.ne_nil hroot)] at hp
        cases hp
      rw [t'.entry?_eraseBelow_of_not_prefix hpre] at hp
      exact (h.link p target).2 hp

theorem require_parent (h : Carries t t') (hr : t.Rooted) {last : Bool} {r : Right}
    (hl : t.resolve last d path = .ok l) : t'.require r l.dropLast = t.require r l.dropLast := by
  obtain ⟨outer, houter⟩ := hr.resolve_parent hl
  exact require_congr ((h.directory _ _ houter).trans houter.symm)

end Carries

theorem Unlinked.isDirectory_iff (hu : t.Unlinked d path) : t.isDirectory d path = true ↔
    t.resolve true d path = .ok (Path.named d path) ∧ ∃ mode, t.entry? (Path.named d path) = some (.directory mode) := by
  rw [FileTree.isDirectory_iff]
  constructor
  · rintro ⟨l, mode, hl, he⟩
    obtain rfl := hu.resolve_eq hl
    exact ⟨hl, mode, he⟩
  · rintro ⟨hl, mode, he⟩
    exact ⟨_, mode, hl, he⟩

/-! Directories. -/

/-- The mode of a directory that is made at a place. -/
def newMode (t : FileTree) (l : Location) : Nat :=
  directoryMode + if (t.entry? l.dropLast).any fun e => e.hasBit groupBit then groupBit else 0

/-- The directory that is made at a place. -/
def newDirectory (t : FileTree) (l : Location) : Entry := .directory (t.newMode l)

theorem newDirectory_congr (h : t'.entry? l.dropLast = t.entry? l.dropLast) : t'.newDirectory l = t.newDirectory l := by
  unfold newDirectory newMode
  rw [h]

theorem newDirectory_grants (t : FileTree) (l : Location) (r : Right) : (t.newDirectory l).grants r = true := by
  unfold newDirectory newMode
  cases r <;> split <;> decide

theorem makeDirectory_eq_ok : t.makeDirectory d path = .ok t' ↔ ∃ l, t.resolve false d path = .ok l ∧
    t.entry? l = none ∧ t.require .write l.dropLast = .ok () ∧ t' = t.put l (t.newDirectory l) := by
  unfold makeDirectory makeDirectoryAt
  rw [bind_eq_ok]
  refine exists_congr fun l => and_congr_right fun _ => ?_
  cases he : t.entry? l with
  | some e =>
    simp [bind, Except.bind, throw, throwThe, MonadExceptOf.throw]
  | none =>
    cases hr : t.require .write l.dropLast with
    | error e => simp [bind, Except.bind]
    | ok =>
      simp only [Option.isSome_none, Bool.false_eq_true, if_false, bind, Except.bind, pure, Except.pure, Except.ok.injEq,
        true_and]
      exact eq_comm

/-- A tree comes out of another one by making directories where nothing was. -/
def GainsDirectories (t t' : FileTree) : Prop :=
  ∀ l, t'.entry? l = t.entry? l ∨
    t.entry? l = none ∧ t'.entry? l = some (t'.newDirectory l) ∧ t'.require .write l.dropLast = .ok ()

namespace GainsDirectories

theorem refl (t : FileTree) : GainsDirectories t t := fun _ => .inl rfl

theorem entry?_eq (h : GainsDirectories t t') {e : Entry} (he : t.entry? l = some e) : t'.entry? l = some e := by
  rcases h l with heq | ⟨hnone, -⟩
  · rw [heq, he]
  · rw [he] at hnone
    cases hnone

/-- The place that a gained directory lies in is there already. -/
private theorem outer_eq (h : GainsDirectories t t') (hr : t.require .write l = .ok ()) : t'.entry? l = t.entry? l := by
  unfold require at hr
  cases he : t.entry? l with
  | none => simp [he] at hr
  | some e => exact h.entry?_eq he

theorem trans (h : GainsDirectories t t') (h' : GainsDirectories t' u) : GainsDirectories t u := by
  intro l
  rcases h l with heq | ⟨hnone, hmade, hr⟩
  · rw [← heq]
    exact h' l
  · have houter := h'.outer_eq hr
    rw [newDirectory_congr houter.symm] at hmade
    refine .inr ⟨hnone, h'.entry?_eq hmade, ?_⟩
    rw [require_congr houter, hr]

theorem carries (h : GainsDirectories t t') : Carries t t' where
  directory l mode hd := h.entry?_eq hd
  link l target := by
    constructor
    · exact h.entry?_eq
    · intro ht
      rcases h l with heq | ⟨-, hmade, -⟩
      · rw [← heq, ht]
      · rw [ht] at hmade
        cases hmade

end GainsDirectories

theorem gainsDirectories_makeDirectory (h : t.makeDirectory d path = .ok t') : GainsDirectories t t' := by
  obtain ⟨l, -, hnone, hr, rfl⟩ := makeDirectory_eq_ok.1 h
  have hroot : l ≠ [] := by
    rintro rfl
    simp at hnone
  have houter : entry? (t.put l (t.newDirectory l)) l.dropLast = t.entry? l.dropLast := by
    apply t.entry?_put_of_ne
    intro heq
    have := congrArg List.length heq
    rw [List.length_dropLast] at this
    have := List.length_pos_of_ne_nil hroot
    omega
  intro p
  by_cases heq : p = l
  · subst heq
    rw [t.entry?_put_self hroot, newDirectory_congr houter, require_congr houter]
    exact .inr ⟨hnone, rfl, hr⟩
  · exact .inl (t.entry?_put_of_ne heq _)

theorem gainsDirectories_makeDirectories {paths : List String} (h : t.makeDirectories d paths = .ok t') :
    GainsDirectories t t' :=
  makeDirectories_ok GainsDirectories.refl (fun _ _ _ => GainsDirectories.trans)
    (fun _ _ _ _ => gainsDirectories_makeDirectory) h

theorem gainsDirectories_makePath (h : t.makePath d path = .ok t') : GainsDirectories t t' :=
  gainsDirectories_makeDirectories h

/-- A directory that was made is there. -/
theorem isDirectory_makeDirectory (h : t.makeDirectory d path = .ok t') : t'.isDirectory d path = true := by
  have hg := gainsDirectories_makeDirectory h
  obtain ⟨l, hl, hnone, -, rfl⟩ := makeDirectory_eq_ok.1 h
  have hroot : l ≠ [] := by
    rintro rfl
    simp at hnone
  have hself := t.entry?_put_self hroot (t.newDirectory l)
  refine isDirectory_iff.2 ⟨l, t.newMode l, ?_, hself⟩
  refine resolve_true_of_false (hg.carries.resolve hl) fun target ht => ?_
  rw [hself] at ht
  cases ht

/-- A directory that was made with all that it lies in is there. -/
theorem isDirectory_makePath (hne : path.isEmpty = false) (h : t.makePath d path = .ok t') :
    t'.isDirectory d path = true := by
  unfold makePath Path.ancestors Path.ancestorsUpTo at h
  rw [makeDirectories, hne, if_neg Bool.false_ne_true] at h
  split at h
  · next v hv => exact Except.ok.inj h ▸ isDirectory_makeDirectory hv
  · obtain ⟨v, -, h⟩ := bind_eq_ok.1 h
    unfold ensureDirectory at h
    split at h
    · next v' hv' => exact Except.ok.inj h ▸ isDirectory_makeDirectory hv'
    · split at h
      · next hd => exact Except.ok.inj h ▸ hd
      · cases h
  · split at h
    · next hd => exact Except.ok.inj h ▸ hd
    · cases h

/-- A directory can be made in one that is there only if the path and the name lead into it. -/
theorem resolve_join_of_makePath {base name : String} (hbase : Path.EndsInName base)
    (hn : (FileName.ofText name).Proper) (hd : t.isDirectory d base = true)
    (h : t.makePath d (Path.join base name) = .ok t') : ∃ D, t.resolve true d base = .ok D ∧
      t.resolve false d (Path.join base name) = .ok (D ++ [FileName.ofText name]) := by
  obtain ⟨D, mode, hD, hmode⟩ := isDirectory_iff.1 hd
  have hc := (gainsDirectories_makePath h).carries
  obtain ⟨l, m, hl, -⟩ := isDirectory_iff.1 (isDirectory_makePath (Path.EndsInName.join _ hn).isEmpty_eq h)
  obtain ⟨D', mode', hD', hmode', hx, hlen, -⟩ := resolve_join_ok hbase hn hl
  obtain rfl : D = D' := Except.ok.inj ((hc.resolve hD).symm.trans hD')
  rw [hc.directory _ _ hmode] at hmode'
  obtain rfl : mode = mode' := Entry.directory.inj (Option.some.inj hmode')
  exact ⟨D, hD, resolve_join hn hlen hD hmode hx (checkPath_of_resolve hl) (by simp)⟩

/-- In a directory that is there a directory can be made by itself, or something else is the matter. -/
theorem makeDirectory_join_ne_notFound {base name : String} (hn : (FileName.ofText name).Proper)
    (hd : t.isDirectory d base = true) : t.makeDirectory d (Path.join base name) ≠ .error .notFound := by
  obtain ⟨D, mode, hD, hmode⟩ := isDirectory_iff.1 hd
  unfold makeDirectory
  rcases resolve_join_cases hn hD hmode with hl | ⟨f, hf, hl⟩
  · rw [hl]
    simp only [bind, Except.bind, makeDirectoryAt]
    split
    · simp [throw, throwThe, MonadExceptOf.throw]
    · unfold require
      rw [List.dropLast_concat, hmode]
      by_cases hw : (Entry.directory mode).grants .write = true <;> simp [hw, pure, Except.pure]
  · rw [hl]
    simpa [bind, Except.bind] using hf

/-- In a directory that is there a directory is made by itself, or it is there. -/
theorem makeDirectories_join {base name : String} {outer : List String} (hn : (FileName.ofText name).Proper)
    (hd : t.isDirectory d base = true) (h : t.makeDirectories d (Path.join base name :: outer) = .ok t') :
    t' = t ∨ t.makeDirectory d (Path.join base name) = .ok t' := by
  rw [makeDirectories, (Path.EndsInName.join base hn).isEmpty_eq, if_neg Bool.false_ne_true] at h
  split at h
  · next hv => exact .inr (Except.ok.inj h ▸ hv)
  · next hmissing => exact absurd hmissing (makeDirectory_join_ne_notFound hn hd)
  · split at h
    · exact .inl (Except.ok.inj h).symm
    · cases h

theorem makePath_join {base name : String} (hn : (FileName.ofText name).Proper) (hd : t.isDirectory d base = true)
    (h : t.makePath d (Path.join base name) = .ok t') : t' = t ∨ t.makeDirectory d (Path.join base name) = .ok t' :=
  makeDirectories_join hn hd h

/-- Two names below a directory that is there two directories are made at most. -/
theorem makePath_join_join {base outer name : String} (ho : (FileName.ofText outer).Proper)
    (hn : (FileName.ofText name).Proper) (hd : t.isDirectory d base = true)
    (h : t.makePath d (Path.join (Path.join base outer) name) = .ok t') :
    ∃ u, (u = t ∨ t.makeDirectory d (Path.join base outer) = .ok u) ∧
      (t' = u ∨ u.makeDirectory d (Path.join (Path.join base outer) name) = .ok t') := by
  have hbase := Path.EndsInName.join base ho
  have hpath := Path.EndsInName.join (Path.join base outer) hn
  obtain ⟨k, hk⟩ : ∃ k, (Path.join (Path.join base outer) name).length = k + 1 := by
    refine Nat.exists_eq_succ_of_ne_zero fun hzero => ?_
    have hempty : Path.join (Path.join base outer) name = "" := String.length_eq_zero_iff.1 hzero
    simpa [hempty] using hpath.isEmpty_eq
  have hancestors : ∃ more, Path.ancestors (Path.join (Path.join base outer) name) =
      Path.join (Path.join base outer) name :: Path.join base outer :: more := by
    unfold Path.ancestors Path.ancestorsUpTo
    rw [hbase.parent?_join hn, hk]
    exact ⟨_, rfl⟩
  obtain ⟨more, hmore⟩ := hancestors
  unfold makePath at h
  rw [hmore, makeDirectories, hpath.isEmpty_eq, if_neg Bool.false_ne_true] at h
  split at h
  · next hv => exact ⟨t, .inl rfl, .inr (Except.ok.inj h ▸ hv)⟩
  · obtain ⟨u, hu, h⟩ := bind_eq_ok.1 h
    exact ⟨u, makeDirectories_join ho hd hu, ensureDirectory_ok h⟩
  · split at h
    · exact ⟨t, .inl rfl, .inl (Except.ok.inj h).symm⟩
    · cases h

theorem rooted_makePath (hr : t.Rooted) (h : t.makePath d path = .ok t') : t'.Rooted := by
  refine makeDirectories_ok (R := fun t t' => t.Rooted → t'.Rooted) (fun _ => id) (fun _ _ _ h h' => h' ∘ h)
    (fun p _ t t' hmade hr => ?_) h hr
  obtain ⟨l, hl, -, -, rfl⟩ := makeDirectory_eq_ok.1 hmade
  exact hr.put (hr.resolve_parent hl) (.inr ⟨_, rfl⟩)

/-- A directory that is there is not made again. -/
theorem makePath_of_isDirectory (h : t.isDirectory d path = true) : t.makePath d path = .ok t := by
  obtain ⟨m, mode, hm, hmode⟩ := isDirectory_iff.1 h
  obtain ⟨l, hl, hsome⟩ := exists_resolve_false hm (by simp [hmode])
  obtain ⟨e, he⟩ := Option.ne_none_iff_exists'.1 hsome
  have hmake : t.makeDirectory d path = .error .alreadyExists := by
    unfold makeDirectory makeDirectoryAt
    simp [hl, he, bind, Except.bind, throw, throwThe, MonadExceptOf.throw]
  unfold makePath Path.ancestors Path.ancestorsUpTo
  rw [makeDirectories, hmake]
  simp [h]

/-- A directory that can be made by itself is all that is made. -/
theorem makePath_of_makeDirectory (h : t.makeDirectory d path = .ok t') : t.makePath d path = .ok t' := by
  have hne : path.isEmpty = false := by
    rw [← Bool.not_eq_true]
    intro hempty
    obtain rfl : path = "" := by simpa using hempty
    obtain ⟨l, hl, -⟩ := makeDirectory_eq_ok.1 h
    have hfault : t.resolve false d "" = .error .notFound := by
      simp [resolve, RawPath.ofText, checkPath, bind, Except.bind]
    rw [hfault] at hl
    cases hl
  unfold makePath Path.ancestors Path.ancestorsUpTo
  rw [makeDirectories, hne, h]
  rfl

/-- At the end of a path that leads somewhere a directory is made by itself, or it is there. -/
theorem makePath_of_resolve (hr : t.Rooted) (hl : t.resolve false d path = .ok l) (h : t.makePath d path = .ok t') :
    t.makeDirectory d path = .ok t' ∨ t.isDirectory d path = true := by
  have hne : path.isEmpty = false := by
    rw [← Bool.not_eq_true]
    intro hempty
    obtain rfl : path = "" := by simpa using hempty
    have hfault : t.resolve false d "" = .error .notFound := by
      simp [resolve, RawPath.ofText, checkPath, bind, Except.bind]
    rw [hfault] at hl
    cases hl
  obtain ⟨outer, houter⟩ := hr.resolve_parent hl
  unfold makePath Path.ancestors Path.ancestorsUpTo at h
  rw [makeDirectories, hne, if_neg Bool.false_ne_true] at h
  split at h
  · next hv => exact .inl (Except.ok.inj h ▸ hv)
  · next hmake =>
    -- the directory that it is to lie in is there
    have hrequire : ∀ e, t.require .write l.dropLast = .error e → e = .permissionDenied := by
      intro e he
      unfold require at he
      simp only [houter] at he
      split at he
      · cases he
      · exact (Except.error.inj he).symm
    unfold makeDirectory makeDirectoryAt at hmake
    simp only [hl, bind, Except.bind] at hmake
    split at hmake
    · cases hmake
    · split at hmake
      · next he =>
        cases hmake
        cases hrequire _ he
      · cases hmake
  · split at h
    · next hd => exact .inr hd
    · cases h

/-- A directory that everything is allowed with can be removed if no directories lie in it. -/
theorem requireRemovable_eq {e : Entry} (he : t.entry? l = some e) (hg : ∀ r, e.grants r = true)
    (hr : t.require .write l.dropLast = .ok ()) (hn : ∀ p, l <+: p → p ≠ l → Entry.NoDirectory (t.entry? p)) :
    t.requireRemovable l = .ok () := by
  have hbelow : ∀ x ∈ t.below l, x.2.isDirectory = false := by
    rintro ⟨r, e'⟩ hx
    obtain ⟨he', hne⟩ := t.entry?_of_mem_below hx
    have hno := hn (l ++ r) (List.prefix_append ..) (by simpa using hne)
    cases e' with
    | directory mode => exact absurd he' (hno mode)
    | file | link | pipe => rfl
  unfold requireRemovable
  simp only [hr, bind, Except.bind, he, Option.all_some, hg, Bool.and_self, Bool.true_or, Bool.or_true, Bool.true_and]
  rw [if_pos]
  · rfl
  · simpa only [List.all_eq_true, Bool.or_eq_true, Bool.not_eq_true'] using fun x hx => .inl (hbelow x hx)

end ImageRecipe.FileTree

namespace ImageRecipe

variable {h h' g : Host} {path : String} {data : ByteArray}

/-- A file is written in a directory that can be read. -/
theorem yields_writeBytes_iff {u : Unit} : Yields (Host.writeBytes path data) h u h' ↔
    h.files.isDirectory h.directory (Path.directory path) = true ∧ ∃ l, h.files.resolve false h.directory path = .ok l ∧
      h.files.require .write l.dropLast = .ok () ∧ Entry.NoDirectory (h.files.entry? l) ∧
      (h.files.put l (.file writtenMode data)).openReadable h.directory (Path.directory path) = .ok () ∧
      h' = { h with files := h.files.put l (.file writtenMode data) } := by
  unfold Host.writeBytes Host.replaceFile
  rw [yields_bind]
  simp only [yields_change, FileTree.write_eq_ok, yields_inspect]
  constructor
  · rintro ⟨_, _, ⟨_, ⟨hd, l, hl, hr, hno, rfl⟩, rfl⟩, hopen, rfl⟩
    exact ⟨hd, l, hl, hr, hno, hopen, rfl⟩
  · rintro ⟨hd, l, hl, hr, hno, hopen, rfl⟩
    exact ⟨(), _, ⟨_, ⟨hd, l, hl, hr, hno, rfl⟩, rfl⟩, hopen, rfl⟩

/-- What could be written in one tree can be written with another content in a tree that carries it, unless a directory
has come in its place. -/
theorem FileTree.Carries.yields_writeBytes (hc : Carries h.files g.files) (hd : g.directory = h.directory)
    (hr : h.files.Rooted) {l : Location} (hl : h.files.resolve false h.directory path = .ok l)
    (hlink : ∀ target, h.files.entry? l ≠ some (.link target)) {u : Unit} (hy : Yields (Host.writeBytes path data) h u h')
    (hno : Entry.NoDirectory (g.files.entry? l)) (data' : ByteArray) :
    Yields (Host.writeBytes path data') g () { g with files := g.files.put l (.file writtenMode data') } := by
  obtain ⟨houter, l', hl', hrequire, hnone, hopen, -⟩ := yields_writeBytes_iff.1 hy
  obtain rfl : l' = l := Except.ok.inj (hl'.symm.trans hl)
  obtain ⟨m, mode, hm, hmode⟩ := FileTree.isDirectory_iff.1 houter
  have hput := Carries.of_put_file hnone hlink writtenMode data
  have hreadable : (h.files.put l' (.file writtenMode data)).require .read m = .ok () := by
    unfold openReadable at hopen
    simpa only [hput.resolve hm, bind, Except.bind] using hopen
  have hboth := hc.put_file l' writtenMode data data'
  refine yields_writeBytes_iff.2 ⟨?_, l', ?_, ?_, hno, ?_, rfl⟩
  · rw [hd]
    exact hc.isDirectory houter
  · rw [hd, hc.resolve hl]
  · rw [hc.require_parent hr hl, hrequire]
  · have hmode' := hput.directory _ _ hmode
    unfold openReadable
    rw [hd]
    simp only [hboth.resolve (hput.resolve hm), bind, Except.bind]
    rw [require_congr ((hboth.directory _ _ hmode').trans hmode'.symm), hreadable]

end ImageRecipe
