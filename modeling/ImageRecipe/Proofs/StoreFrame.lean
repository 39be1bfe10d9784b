import ImageRecipe.Proofs.FileNames
import ImageRecipe.Proofs.FileOperations

/-! Stores in a file tree without links of their own, and how the tree around and in a store changes while
only some places are emptied and only some files are written. -/

namespace ImageRecipe

/-- The host has the same working directory and shows the same time. -/
structure Host.SameSetting (h h' : Host) : Prop where
  directory : h'.directory = h.directory
  clock : h'.clock = h.clock

namespace Host.SameSetting

instance : Std.Refl SameSetting where
  refl _ := ⟨rfl, rfl⟩

instance : IsTrans Host SameSetting where
  trans _ _ _ h h' := ⟨h'.directory.trans h.directory, h'.clock.trans h.clock⟩

/-- What is done to the files alone. -/
theorem withFiles (h : Host) (files : FileTree) : SameSetting h { h with files } := ⟨rfl, rfl⟩

end Host.SameSetting

namespace Store

/-- The place of a store, seen from a directory. -/
def place (s : Store) (d : Location) : Location := Path.named d (Path.join s.root "store")

/-- A place on the way to a store or in it. -/
def Around (S l : Location) : Prop := l <+: S ∨ S <+: l

/-- A store that is reached without links and has none in it. -/
structure Plain (s : Store) (h : Host) : Prop where
  staysBelow : Path.StaysBelow s.root
  link_free : ∀ l, Around (s.place h.directory) l → ∀ target, h.files.entry? l ≠ some (.link target)

theorem Around.of_prefix {S l p : Location} (h : Around S l) (hp : p <+: l) : Around S p := by
  rcases h with h | h
  · exact .inl (hp.trans h)
  · exact List.prefix_or_prefix_of_prefix hp h

/-- A path leads from the place of the store through some names. -/
structure Leads (s : Store) (path : String) (ns : List FileName) : Prop where
  named_eq : ∀ d, Path.named d path = s.place d ++ ns
  staysBelow : Path.StaysBelow s.root → Path.StaysBelow path

variable {s : Store}

theorem leads_root : s.Leads (Path.join s.root "store") [] where
  named_eq d := by rw [List.append_nil, place]
  staysBelow h := (Path.staysBelow_join s.root (FileName.proper_of_known (by simp [knownNames]))).2 h

theorem Leads.join {path name : String} {ns : List FileName} (hl : s.Leads path ns)
    (hn : (FileName.ofText name).Proper) : s.Leads (Path.join path name) (ns ++ [FileName.ofText name]) where
  named_eq d := by rw [Path.named_join d path hn, hl.named_eq, List.append_assoc]
  staysBelow h := (Path.staysBelow_join path hn).2 (hl.staysBelow h)

theorem leads_path {name : String} (hn : (FileName.ofText name).Proper) :
    s.Leads (s.path name) [FileName.ofText name] := leads_root.join hn

theorem Leads.unlinked {path : String} {ns : List FileName} (hl : s.Leads path ns) {h : Host}
    (hp : s.Plain h) : h.files.Unlinked h.directory path where
  staysBelow := hl.staysBelow hp.staysBelow
  link_free p hpre := by
    rw [hl.named_eq] at hpre
    apply hp.link_free
    exact Around.of_prefix (.inr (List.prefix_append ..)) hpre

/-- A path names a place around the store. -/
structure NamesAround (s : Store) (path : String) : Prop where
  around : ∀ d, Around (s.place d) (Path.named d path)
  staysBelow : Path.StaysBelow s.root → Path.StaysBelow path

theorem Leads.namesAround {path : String} {ns : List FileName} (hl : s.Leads path ns) : s.NamesAround path where
  around d := by
    rw [hl.named_eq]
    exact .inr (List.prefix_append ..)
  staysBelow := hl.staysBelow

theorem NamesAround.of_mem_ancestors {path outer : String} (hn : s.NamesAround path) (h : outer ∈ Path.ancestors path) :
    s.NamesAround outer where
  around d := Around.of_prefix (hn.around d) (Path.mem_ancestors h d).1
  staysBelow hb := (Path.mem_ancestors h []).2 (hn.staysBelow hb)

theorem NamesAround.unlinked {path : String} (hn : s.NamesAround path) {h : Host} (hp : s.Plain h) :
    h.files.Unlinked h.directory path where
  staysBelow := hn.staysBelow hp.staysBelow
  link_free _ hpre := hp.link_free _ (Around.of_prefix (hn.around _) hpre)

/-- What steps may do at each place, given the place of the store. -/
abbrev Frame := Location → Location → Entry.Leave

/-- The frame in which everything may happen. -/
def Frame.all : Frame := fun _ _ => { makes := True, empties := True, drops := True, writes := fun _ => True }

/-- The name of the directory of repository definitions, which is the only one that builds remove. -/
def repositoriesName : FileName := FileName.ofText "repos"

/-- A place on the way to a store or in it, but in no directory of repository definitions there. -/
def Near (S l : Location) : Prop := l <+: S ∨ ∃ ns, repositoriesName ∉ ns ∧ l = S ++ ns

/-- How the files change around the place of a store. What is near the store is not emptied, unless the store
is lost as a whole and begins anew. -/
structure Changes (f : Frame) (S : Location) (t t' : FileTree) : Prop where
  files : t.Evolves (f S) t'
  rooted : t.Rooted → t'.Rooted
  near : (∀ l, Near S l → Entry.Changes (f S l).kept (t.entry? l) (t'.entry? l)) ∨
    (f S S).empties ∧
      ∀ ns, repositoriesName ∉ ns → Entry.Changes (f S (S ++ ns)).kept none (t'.entry? (S ++ ns))

theorem Near.around {S l : Location} (h : Near S l) : Around S l :=
  h.imp_right fun ⟨_, _, heq⟩ => heq ▸ List.prefix_append ..

theorem near_of_isPrefix {S ns p : Location} (hns : repositoriesName ∉ ns) (h : p <+: S ++ ns) : Near S p := by
  rcases List.prefix_or_prefix_of_prefix h (List.prefix_append S ns) with hp | ⟨ms, rfl⟩
  · exact .inl hp
  · obtain ⟨rest, hrest⟩ := h
    rw [List.append_assoc] at hrest
    refine .inr ⟨ms, fun hm => hns ?_, rfl⟩
    rw [← List.append_cancel_left hrest]
    exact List.mem_append_left _ hm

/-- What is near a store lies in no directory of repository definitions that does not hold the whole store. -/
theorem Near.not_prefix {S l outer : Location} (hn : Near S l) (hl : ¬ outer ++ [repositoriesName] <+: S) :
    ¬ outer ++ [repositoriesName] <+: l := by
  intro hp
  rcases hn with hn | ⟨ns, hns, rfl⟩
  · exact hl (hp.trans hn)
  · rcases List.prefix_or_prefix_of_prefix hp (List.prefix_append S ns) with h | ⟨ms, hms⟩
    · exact hl h
    · rcases List.eq_nil_or_concat ms with rfl | ⟨front, n, rfl⟩
      · rw [List.append_nil] at hms
        exact hl (hms ▸ List.prefix_rfl)
      · rw [List.concat_eq_append, ← List.append_assoc] at hms
        obtain ⟨-, hlast⟩ := List.append_inj' hms rfl
        obtain ⟨rest, hrest⟩ := hp
        rw [← hms, List.append_assoc, List.append_assoc] at hrest
        apply hns
        rw [← List.append_cancel_left hrest, List.singleton_inj.1 hlast]
        simp

namespace Changes

variable {f : Frame} {S l : Location} {t t' t'' : FileTree}

theorem refl (t : FileTree) : Changes f S t t := ⟨.refl t, id, .inl fun _ _ => .same⟩

theorem trans (h : Changes f S t t') (h' : Changes f S t' t'') : Changes f S t t'' where
  files := h.files.trans h'.files
  rooted := h'.rooted ∘ h.rooted
  near := by
    rcases h'.near with hn' | hn'
    · rcases h.near with hn | ⟨he, hn⟩
      · exact .inl fun l hl => (hn l hl).trans (hn' l hl)
      · exact .inr ⟨he, fun ns hns => (hn ns hns).trans (hn' _ (.inr ⟨ns, hns, rfl⟩))⟩
    · exact .inr hn'

/-- Steps that empty no place. -/
theorem of_kept (h : t.Evolves (fun l => (f S l).kept) t') (hr : t.Rooted → t'.Rooted) :
    Changes f S t t' where
  files l := (h l).mono id (by simp [Entry.Leave.kept]) id fun _ => id
  rooted := hr
  near := .inl fun l _ => h l

/-- In a frame that empties no place what is near the store changes within the frame. -/
theorem near_of_not_empties (h : Changes f S t t') (he : ¬ (f S S).empties) :
    ∀ l, Near S l → Entry.Changes (f S l).kept (t.entry? l) (t'.entry? l) :=
  h.near.resolve_right fun hn => he hn.1

theorem put_directory (hm : (f S l).makes) (h : t.entry? l = none) (mode : Nat)
    (hp : t.Rooted → ∃ mode, t.entry? l.dropLast = some (.directory mode)) :
    Changes f S t (t.put l (.directory mode)) :=
  of_kept (.put_directory (a := fun l => (f S l).kept) hm h mode) fun hr => hr.put (hp hr) (.inr ⟨mode, rfl⟩)

theorem put_file {data : ByteArray} (hw : (f S l).writes data) (mode : Nat)
    (h : Entry.NoDirectory (t.entry? l))
    (hp : t.Rooted → ∃ mode, t.entry? l.dropLast = some (.directory mode)) :
    Changes f S t (t.put l (.file mode data)) :=
  of_kept (.put_file (a := fun l => (f S l).kept) hw mode h) fun hr => hr.put (hp hr) (.inl h)

theorem erase (hl : (f S l).drops) (h : Entry.NoDirectory (t.entry? l)) : Changes f S t (t.erase l) :=
  of_kept (.erase (.inr ⟨hl, h⟩)) fun hr => hr.erase h

/-- A directory of repository definitions that is removed with everything in it. -/
theorem eraseBelow {outer : Location}
    (he : ∀ l, outer ++ [repositoriesName] <+: l → (f S l).empties) :
    Changes f S t (t.eraseBelow (outer ++ [repositoriesName])) where
  files := .eraseBelow he
  rooted hr := hr.eraseBelow
  near := by
    by_cases hl : outer ++ [repositoriesName] <+: S
    · refine .inr ⟨he S hl, fun ns _ => ?_⟩
      by_cases hnil : S ++ ns = []
      · simp only [List.append_eq_nil_iff] at hnil
        rw [hnil.1] at hl
        simp at hl
      · rw [t.entry?_eraseBelow_of_prefix (hl.trans (List.prefix_append ..)) hnil]
        exact .same
    · refine .inl fun l hn => ?_
      rw [t.entry?_eraseBelow_of_not_prefix (hn.not_prefix hl)]
      exact .same

/-- A link that is removed from where a directory of repository definitions is to be. -/
theorem erase_link {outer : Location}
    (he : ∀ l, outer ++ [repositoriesName] <+: l → (f S l).empties)
    (hl : ¬ outer ++ [repositoriesName] <+: S)
    (hno : Entry.NoDirectory (t.entry? (outer ++ [repositoriesName]))) :
    Changes f S t (t.erase (outer ++ [repositoriesName])) where
  files := .erase (.inl (he _ List.prefix_rfl))
  rooted hr := hr.erase hno
  near := by
    refine .inl fun l hn => ?_
    have hne : l ≠ outer ++ [repositoriesName] := fun heq => hn.not_prefix hl (heq ▸ List.prefix_rfl)
    rw [t.entry?_erase_of_ne hne]
    exact .same

end Changes

/-- A host comes out of another one by steps within a frame, as long as the store is plain. -/
def Evolves (s : Store) (f : Frame) (h h' : Host) : Prop :=
  s.Plain h → Host.SameSetting h h' ∧ Changes f (s.place h.directory) h.files h'.files

theorem Plain.evolves {f : Frame} {h h' : Host} (hp : s.Plain h) (he : s.Evolves f h h') : s.Plain h' where
  staysBelow := hp.staysBelow
  link_free l hl target hlink := by
    obtain ⟨hsetting, hc⟩ := he hp
    rw [hsetting.directory] at hl
    have := hc.files l
    rw [hlink] at this
    exact hp.link_free l hl target this.link

instance (f : Frame) : Std.Refl (s.Evolves f) where
  refl h _ := ⟨refl h, .refl _⟩

instance (f : Frame) : IsTrans Host (s.Evolves f) where
  trans h h' h'' h₁ h₂ hp := by
    obtain ⟨hs₁, he₁⟩ := h₁ hp
    obtain ⟨hs₂, he₂⟩ := h₂ (hp.evolves h₁)
    rw [hs₁.directory] at he₂
    exact ⟨IsTrans.trans _ _ _ hs₁ hs₂, he₁.trans he₂⟩

section Steps

variable {f : Frame} {path : String}

private theorem keeps_makePath_of (hm : ∀ h p l, s.Plain h → p ∈ Path.ancestors path →
      h.files.resolve false h.directory p = .ok l → (f (s.place h.directory) l).makes) :
    Keeps (s.Evolves f) (Host.makePath path) := by
  apply Keeps.change
  intro h files hok
  refine FileTree.makeDirectories_ok (R := fun t t' => s.Evolves f { h with files := t } { h with files := t' })
    (fun _ => refl _) (fun _ _ _ => IsTrans.trans _ _ _) ?_ hok
  intro p hp t t' hmade hplain
  obtain ⟨l, mode, hl, hnone, rfl⟩ := FileTree.makeDirectory_ok hmade
  exact ⟨.withFiles .., .put_directory (hm _ p l hplain hp hl) hnone mode fun hr => hr.resolve_parent hl⟩

theorem keeps_makePath (hm : ∀ S l, (f S l).makes) : Keeps (s.Evolves f) (Host.makePath path) :=
  keeps_makePath_of fun _ _ _ _ _ _ => hm _ _

/-- The directories on the way to a path that names a place on a way from the store are on that way. -/
theorem NamesAround.keeps_makePath {ns : List FileName} (hn : s.NamesAround path)
    (hpre : ∀ d, Path.named d path <+: s.place d ++ ns) (hm : ∀ S l, l <+: S ++ ns → (f S l).makes) :
    Keeps (s.Evolves f) (Host.makePath path) := by
  apply keeps_makePath_of
  intro h p l hp hmem hl
  rw [((hn.of_mem_ancestors hmem).unlinked hp).resolve_eq hl]
  exact hm _ _ ((Path.mem_ancestors hmem _).1.trans (hpre _))

theorem Leads.keeps_makePath {ns : List FileName} (hl : s.Leads path ns)
    (hm : ∀ S l, l <+: S ++ ns → (f S l).makes) : Keeps (s.Evolves f) (Host.makePath path) :=
  hl.namesAround.keeps_makePath (fun d => hl.named_eq d ▸ List.prefix_rfl) hm

theorem keeps_writeBytes {data : ByteArray}
    (hw : ∀ h l, s.Plain h → h.files.resolve false h.directory path = .ok l →
      (f (s.place h.directory) l).writes data) : Keeps (s.Evolves f) (Host.writeBytes path data) := by
  apply Keeps.writeBytes
  intro h files hok hp
  obtain ⟨l, hl, hno, rfl⟩ := FileTree.write_ok hok
  exact ⟨.withFiles .., .put_file (hw h l hp hl) _ hno fun hr => hr.resolve_parent hl⟩

theorem keeps_openFile
    (hw : ∀ h l, s.Plain h → h.files.resolve true h.directory path = .ok l →
      (f (s.place h.directory) l).writes ByteArray.empty) : Keeps (s.Evolves f) (Host.openFile path) := by
  apply Keeps.change
  intro h files hok hp
  obtain ⟨l, hl, rfl | ⟨hnone, rfl⟩⟩ := FileTree.openFile_ok hok
  · exact ⟨.withFiles .., .refl _⟩
  · have hno : Entry.NoDirectory (h.files.entry? l) := by
      rw [hnone]
      exact Entry.noDirectory_none
    exact ⟨.withFiles .., .put_file (hw h l hp hl) _ hno fun hr => hr.resolve_parent hl⟩

theorem keeps_remove
    (he : ∀ h l, s.Plain h → h.files.resolve false h.directory path = .ok l →
      (f (s.place h.directory) l).drops) : Keeps (s.Evolves f) (Host.remove path) := by
  apply Keeps.change
  intro h files hok hp
  obtain ⟨l, e, hl, hentry, hno, rfl⟩ := FileTree.remove_ok hok
  refine ⟨.withFiles .., .erase (he h l hp hl) ?_⟩
  rintro mode hd
  rw [hentry] at hd
  cases hd
  simp [Entry.isDirectory] at hno

/-- A frame in which directories of repository definitions may be emptied. -/
def Frame.AllowsClearing (f : Frame) : Prop :=
  ∀ S outer l, outer ++ [repositoriesName] <+: l → (f S l).empties

/-- Removing the directory of repository definitions at a path empties what lies where the path leads. -/
theorem evolves_removeTree {h : Host}
    (hl : ∀ l, h.files.resolve false h.directory path = .ok l →
      (∃ outer, l = outer ++ [repositoriesName]) ∧ ∀ l', l <+: l' → (f (s.place h.directory) l').empties) :
    s.Evolves f h (ran (Host.removeTree path) h).2 := by
  intro hp
  unfold Host.removeTree
  rw [ran_change]
  cases hok : h.files.removeTree h.directory path with
  | error e => exact ⟨refl h, .refl _⟩
  | ok files =>
    obtain ⟨l, hres, hor⟩ := FileTree.removeTree_ok hok
    obtain ⟨⟨outer, rfl⟩, hempties⟩ := hl l hres
    rcases hor with ⟨-, rfl⟩ | ⟨⟨target, htarget⟩, rfl⟩
    · exact ⟨.withFiles .., .eraseBelow hempties⟩
    · refine ⟨.withFiles .., .erase_link hempties ?_ ?_⟩
      · exact fun hpre => hp.link_free _ (.inl hpre) target htarget
      · intro mode hd
        rw [htarget] at hd
        cases hd

end Steps

end Store

end ImageRecipe
