import ImageRecipe.Proofs.PreparedStores

/-! Work directories and stores that are got ready once more. In a work directory the repository definitions alone are
cleared away and the other directories are found; a store is found as it is. -/

namespace ImageRecipe

open FileTree (Carries isDirectory_iff)

namespace WorkDirectory

variable {d : WorkDirectory} {h h' g : Host} {dir P : Location} {u : FileTree}

/-- The directories that a work directory needs besides the one of repository definitions. -/
def rooms (d : WorkDirectory) : List String := [d.root, d.context, d.ephemeral, d.packages]

/-- A tree in which repository definitions are cleared away at a place, while the other directories of the work
directory are there. -/
structure Cleared (d : WorkDirectory) (dir : Location) (u : FileTree) (P : Location) : Prop where
  rooms : ∀ path ∈ d.rooms, u.isDirectory dir path = true
  resolve_eq : u.resolve false dir d.repositories = .ok P
  empty : ∀ p, P <+: p → u.entry? p = none
  writable : u.require .write P.dropLast = .ok ()
  rooted : u.Rooted

/-- The directory that the one of repository definitions lies in. -/
def outerRoom (d : WorkDirectory) : String := d.path "ephemeral"

private theorem endsInName_outerRoom : Path.EndsInName d.outerRoom :=
  have hproper : (FileName.ofText "ephemeral").Proper := FileName.proper_of_known (by simp [knownNames])
  .join _ hproper

theorem path_outerRoom {name : String} (hn : RawPath.slash ∉ FileName.ofText name) :
    d.path ("ephemeral/" ++ name) = Path.join d.outerRoom name := by
  have habsolute : Path.isAbsolute ("ephemeral/" ++ name) = false ∧ Path.isAbsolute "ephemeral" = false := by
    unfold Path.isAbsolute
    simp
  rw [endsInName_outerRoom.join_eq hn]
  unfold outerRoom path Path.join
  simp only [habsolute.1, habsolute.2, Bool.false_eq_true, if_false]
  split
  · rw [String.append_assoc, String.append_assoc]
    rfl
  · rw [String.append_assoc, String.append_assoc, String.append_assoc, String.append_assoc]
    rfl

theorem proper_repositories : (FileName.ofText "repos").Proper :=
  FileName.proper_of_known (by simp [knownNames])

theorem repositories_eq (d : WorkDirectory) : d.repositories = Path.join d.outerRoom "repos" :=
  path_outerRoom proper_repositories.slash_notMem

theorem proper_ephemeral : (FileName.ofText "docker").Proper :=
  FileName.proper_of_known (by simp [knownNames])

theorem ephemeral_eq (d : WorkDirectory) : d.ephemeral = Path.join d.outerRoom "docker" :=
  path_outerRoom proper_ephemeral.slash_notMem

theorem proper_packages : (FileName.ofText "packages").Proper := FileName.proper_of_known (by simp [knownNames])

theorem packages_eq (d : WorkDirectory) : d.packages = Path.join d.outerRoom "packages" :=
  path_outerRoom proper_packages.slash_notMem

/-- The outer directory is there if what lies in it is. -/
private theorem exists_outerRoom (hd : u.isDirectory dir d.ephemeral = true) : u.isDirectory dir d.outerRoom = true := by
  rw [ephemeral_eq] at hd
  obtain ⟨l, _, hl, -⟩ := isDirectory_iff.1 hd
  obtain ⟨D, mode, hD, hmode, -⟩ := FileTree.resolve_join_ok endsInName_outerRoom proper_ephemeral hl
  exact isDirectory_iff.2 ⟨D, mode, hD, hmode⟩

/-- The directories are made that have nothing to do with repository definitions. -/
private theorem yields_makeRooms (hr : h.files.Rooted) (hy : Yields d.makeRooms h () g) :
    g.files.Rooted ∧ g.directory = h.directory ∧ g.files.isDirectory g.directory d.ephemeral = true := by
  unfold makeRooms at hy
  obtain ⟨_, _, hcontext, hy⟩ := (yields_bind ..).1 hy
  obtain ⟨_, _, hephemeral, hpackages⟩ := (yields_bind ..).1 hy
  obtain ⟨t₁, ht₁, rfl⟩ := (yields_change ..).1 ((yields_onFiles ..).1 hcontext)
  obtain ⟨t₂, ht₂, rfl⟩ := (yields_change ..).1 ((yields_onFiles ..).1 hephemeral)
  obtain ⟨t₃, ht₃, rfl⟩ := (yields_change ..).1 ((yields_onFiles ..).1 hpackages)
  have hrooted := FileTree.rooted_makePath (FileTree.rooted_makePath (FileTree.rooted_makePath hr ht₁) ht₂) ht₃
  refine ⟨hrooted, rfl, (FileTree.gainsDirectories_makePath ht₃).carries.isDirectory ?_⟩
  exact FileTree.isDirectory_makePath (ephemeral_eq d ▸ (Path.EndsInName.join _ proper_ephemeral).isEmpty_eq) ht₂

/-- Remove the repository definitions of an earlier build. -/
def clear (d : WorkDirectory) : StoreM Unit := do
  if ← Host.pathExists d.repositories then Store.onFiles (Host.removeTree d.repositories)
  Store.onFiles (Host.makePath d.repositories)

/-- Where there is nothing at the place of repository definitions their directory is made, and nothing else. -/
private theorem cleared_of_makePath {t : FileTree} (hr : u.Rooted)
    (hrooms : ∀ path ∈ d.rooms, u.isDirectory dir path = true) (hl : u.resolve false dir d.repositories = .ok P)
    (hn : ∀ p, P <+: p → u.entry? p = none) (h : u.makePath dir d.repositories = .ok t) :
    d.Cleared dir u P ∧ t = u.put P (u.newDirectory P) := by
  rcases FileTree.makePath_of_resolve hr hl h with hmake | hd
  · obtain ⟨l, hl', -, hwrite, rfl⟩ := FileTree.makeDirectory_eq_ok.1 hmake
    obtain rfl : l = P := Except.ok.inj (hl'.symm.trans hl)
    exact ⟨⟨hrooms, hl, hn, hwrite, hr⟩, rfl⟩
  · obtain ⟨l, mode, hl', hmode⟩ := isDirectory_iff.1 hd
    rw [FileTree.resolve_true_of_false hl (by simp [hn P List.prefix_rfl])] at hl'
    rw [← Except.ok.inj hl', hn P List.prefix_rfl] at hmode
    cases hmode

private theorem yields_clear (hr : g.files.Rooted) (hd : g.files.isDirectory g.directory d.ephemeral = true)
    (hy : Yields d.clear g () h') : ∃ P, g.files.resolve false g.directory d.repositories = .ok P ∧
      ((∀ path ∈ d.rooms, (g.files.eraseBelow P).isDirectory g.directory path = true) →
        d.Cleared g.directory (g.files.eraseBelow P) P ∧ h' = { g with
          files := (g.files.eraseBelow P).put P ((g.files.eraseBelow P).newDirectory P) }) := by
  obtain ⟨b, _, hlook, hy⟩ := (yields_bind ..).1 hy
  obtain ⟨hb, rfl⟩ := (yields_look ..).1 hlook
  split at hy
  · -- what is removed is a directory with all that lies in it, or a link, in which nothing lies
    obtain ⟨_, _, hremove, hmake⟩ := (yields_bind ..).1 hy
    obtain ⟨t, ht, rfl⟩ := (yields_change ..).1 ((yields_onFiles ..).1 hremove)
    obtain ⟨t', ht', rfl⟩ := (yields_change ..).1 ((yields_onFiles ..).1 hmake)
    obtain ⟨P, hP, hor⟩ := FileTree.removeTree_ok ht
    obtain rfl : t = g.files.eraseBelow P := by
      rcases hor with ⟨-, rfl⟩ | ⟨⟨target, htarget⟩, rfl⟩
      · rfl
      · refine (g.files.eraseBelow_eq_erase fun l ⟨rest, hrest⟩ hne => ?_).symm
        by_contra hsome
        subst hrest
        obtain ⟨mode, hmode⟩ := hr.of_prefix (by simpa using hne) hsome
        rw [htarget] at hmode
        cases hmode
    refine ⟨P, hP, fun hrooms => ?_⟩
    have houter := exists_outerRoom (hrooms d.ephemeral (by simp [rooms]))
    obtain ⟨D, hD, hl⟩ := FileTree.resolve_join_of_makePath endsInName_outerRoom proper_repositories houter
      (d.repositories_eq ▸ ht')
    obtain ⟨D', mode, hD', -, -, -, heq⟩ := FileTree.resolve_join_ok endsInName_outerRoom proper_repositories
      (d.repositories_eq ▸ hP)
    obtain rfl := heq rfl
    have hsubset : ∀ p e, FileTree.entry? (g.files.eraseBelow (D' ++ [FileName.ofText "repos"])) p = some e →
        g.files.entry? p = some e := by
      intro p e he
      by_cases hp : D' ++ [FileName.ofText "repos"] <+: p
      · rw [g.files.entry?_eraseBelow_of_prefix hp (hp.ne_nil (by simp))] at he
        cases he
      · rwa [g.files.entry?_eraseBelow_of_not_prefix hp] at he
    obtain ⟨D₁, mode₁, hD₁, hmode₁⟩ := isDirectory_iff.1 houter
    obtain rfl : D₁ = D := Except.ok.inj (hD₁.symm.trans hD)
    obtain rfl : D₁ = D' := Except.ok.inj ((FileTree.resolve_of_subset hsubset (by simp [hmode₁]) hD₁).symm.trans hD')
    rw [← repositories_eq] at hl
    have hn : ∀ p, D₁ ++ [FileName.ofText "repos"] <+: p →
        FileTree.entry? (g.files.eraseBelow (D₁ ++ [FileName.ofText "repos"])) p = none := fun p hp =>
      g.files.entry?_eraseBelow_of_prefix hp (hp.ne_nil (by simp))
    obtain ⟨hcleared, rfl⟩ := cleared_of_makePath hr.eraseBelow hrooms hl hn ht'
    exact ⟨hcleared, rfl⟩
  · next hmissing =>
    obtain ⟨t, ht, rfl⟩ := (yields_change ..).1 ((yields_onFiles ..).1 hy)
    obtain ⟨D, -, hl⟩ := FileTree.resolve_join_of_makePath endsInName_outerRoom proper_repositories
      (exists_outerRoom hd) (d.repositories_eq ▸ ht)
    rw [← repositories_eq] at hl
    have hnone : g.files.entry? (D ++ [FileName.ofText "repos"]) = none := by
      rcases FileTree.makePath_of_resolve hr hl ht with hmake | hthere
      · obtain ⟨l, hl', hnone, -⟩ := FileTree.makeDirectory_eq_ok.1 hmake
        rwa [Except.ok.inj (hl'.symm.trans hl)] at hnone
      · rw [← hb] at hmissing
        exact absurd (FileTree.pathExists_of_isDirectory hthere) hmissing
    have hn : ∀ p, D ++ [FileName.ofText "repos"] <+: p → g.files.entry? p = none := by
      rintro p ⟨rest, rfl⟩
      by_contra hsome
      by_cases hrest : rest = []
      · rw [hrest, List.append_nil] at hsome
        exact hsome hnone
      · obtain ⟨mode, hmode⟩ := hr.of_prefix hrest hsome
        rw [hnone] at hmode
        cases hmode
    have hsame : g.files.eraseBelow (D ++ [FileName.ofText "repos"]) = g.files := by
      rw [g.files.eraseBelow_eq_erase fun p hp _ => hn p hp, g.files.erase_of_none hnone]
    refine ⟨_, hl, fun hrooms => ?_⟩
    rw [hsame] at hrooms ⊢
    obtain ⟨hcleared, rfl⟩ := cleared_of_makePath hr hrooms hl hn ht
    exact ⟨hcleared, rfl⟩

/-- What getting a work directory ready does to the files: its directories are made, and the one of repository
definitions is made anew, unless other directories are gone with it. -/
theorem yields_prepare (hr : h.files.Rooted) (hy : Yields d.prepare h () h') :
    ∃ g P, Yields d.makeRooms h () g ∧ g.directory = h.directory ∧
      g.files.resolve false g.directory d.repositories = .ok P ∧
      ((∀ path ∈ d.rooms, (g.files.eraseBelow P).isDirectory g.directory path = true) →
        d.Cleared g.directory (g.files.eraseBelow P) P ∧ h' = { g with
          files := (g.files.eraseBelow P).put P ((g.files.eraseBelow P).newDirectory P) }) := by
  rw [prepare_eq] at hy
  obtain ⟨b, _, hlook, hy⟩ := (yields_bind ..).1 hy
  obtain ⟨-, rfl⟩ := (yields_look ..).1 hlook
  split at hy
  · obtain ⟨_, _, hthrow, -⟩ := (yields_bind ..).1 hy
    exact (yields_throw _ _ _ _ hthrow).elim
  · obtain ⟨_, g, hrooms, hclear⟩ := (yields_bind ..).1 hy
    obtain ⟨hrooted, hdir, hephemeral⟩ := yields_makeRooms hr hrooms
    obtain ⟨P, hP, hcleared⟩ := yields_clear hrooted hephemeral hclear
    exact ⟨g, P, hrooms, hdir, hP, hcleared⟩

/-- To get a work directory ready once more finds its directories and makes the one of repository definitions anew. -/
theorem Cleared.yields_prepare (hu : d.Cleared dir u P) (hdir : h.directory = dir) (hc : Carries u h.files)
    (he : h.files.entry? P = some (u.newDirectory P))
    (hno : ∀ p, P <+: p → p ≠ P → Entry.NoDirectory (h.files.entry? p)) :
    Yields d.prepare h () { h with files := (h.files.eraseBelow P).put P (u.newDirectory P) } := by
  subst hdir
  have hroot : P ≠ [] := by
    rintro rfl
    simpa using hu.empty [] List.prefix_rfl
  have hmade : ∀ path ∈ d.rooms, Yields (Store.onFiles (Host.makePath path)) h () h := fun path hpath =>
    (yields_onFiles ..).2 ((yields_change ..).2
      ⟨_, FileTree.makePath_of_isDirectory (hc.isDirectory (hu.rooms path hpath)), rfl⟩)
  have hrequire : ∀ {t : FileTree}, Carries u t → t.require .write P.dropLast = .ok () := fun hct => by
    rw [hct.require_parent hu.rooted hu.resolve_eq, hu.writable]
  have hexists : h.files.pathExists h.directory d.repositories = true := by
    refine FileTree.pathExists_iff.2 ⟨P, _, ?_, he⟩
    exact FileTree.resolve_true_of_false (hc.resolve hu.resolve_eq) (by simp [he, FileTree.newDirectory])
  have hremove : h.files.removeTree h.directory d.repositories = .ok (h.files.eraseBelow P) := by
    have hremovable := FileTree.requireRemovable_eq he (u.newDirectory_grants P) (hrequire hc) hno
    unfold FileTree.removeTree
    simp only [hc.resolve hu.resolve_eq, bind, Except.bind, he, FileTree.newDirectory, hremovable]
    rfl
  have herased := hc.eraseBelow hu.empty
  have hmake : (h.files.eraseBelow P).makeDirectory h.directory d.repositories =
      .ok ((h.files.eraseBelow P).put P (u.newDirectory P)) := by
    refine FileTree.makeDirectory_eq_ok.2 ⟨P, herased.resolve hu.resolve_eq,
      h.files.entry?_eraseBelow_of_prefix List.prefix_rfl hroot, hrequire herased, ?_⟩
    obtain ⟨outer, houter⟩ := hu.rooted.resolve_parent hu.resolve_eq
    rw [FileTree.newDirectory_congr ((herased.directory _ _ houter).trans houter.symm)]
  rw [prepare_eq]
  refine (yields_bind ..).2 ⟨true, h, (yields_look ..).2 ⟨hc.isDirectory (hu.rooms d.root (by simp [WorkDirectory.rooms])), rfl⟩, ?_⟩
  refine (yields_bind ..).2 ⟨(), h, ?_, ?_⟩
  · exact (yields_bind ..).2 ⟨(), h, hmade d.context (by simp [WorkDirectory.rooms]), (yields_bind ..).2
      ⟨(), h, hmade d.ephemeral (by simp [WorkDirectory.rooms]), hmade d.packages (by simp [WorkDirectory.rooms])⟩⟩
  · refine (yields_bind ..).2 ⟨true, h, (yields_look ..).2 ⟨hexists, rfl⟩, ?_⟩
    refine (yields_bind ..).2 ⟨(), { h with files := h.files.eraseBelow P }, ?_, ?_⟩
    · exact (yields_onFiles ..).2 ((yields_change ..).2 ⟨_, hremove, rfl⟩)
    · exact (yields_onFiles ..).2 ((yields_change ..).2 ⟨_, FileTree.makePath_of_makeDirectory hmake, rfl⟩)

end WorkDirectory

namespace Store

variable {s : Store} {h h' g : Host}

/-- A store whose directories are there, with the version of its format that is supported. -/
structure Ready (s : Store) (h : Host) : Prop where
  rooms : ∀ name ∈ roomNames, h.files.isDirectory h.directory (s.path name) = true
  version : Yields s.verifyVersion h () h

/-- The place of the file that tells the version of the store's format. -/
def versionPlace (s : Store) (h : Host) : Location := s.place h.directory ++ versionNames

private theorem readBack?_version :
    readBack? versionOfDocument? (Text.bytes (Json.pretty versionDocument)) = some storeFormatVersion := by
  decide +kernel

private theorem yields_verifyVersion : Yields s.verifyVersion h () h' ↔ h = h' ∧ ∃ data,
    h.files.read h.directory s.versionFile = .ok data ∧
      readBack? versionOfDocument? data = some storeFormatVersion := by
  unfold verifyVersion
  rw [yields_bind]
  simp only [yields_readDocument]
  constructor
  · rintro ⟨found, _, ⟨rfl, data, hread, hfound⟩, hy⟩
    split at hy
    · exact (yields_throw _ _ _ _ hy).elim
    · next heq =>
      obtain ⟨-, rfl⟩ := (yields_pure ..).1 hy
      exact ⟨rfl, data, hread, by rw [hfound, not_not.1 heq]⟩
  · rintro ⟨rfl, data, hread, hfound⟩
    exact ⟨_, _, ⟨rfl, data, hread, hfound⟩, by simp⟩

theorem near_version {S p : Location} (hp : p <+: S ++ versionNames) : Near S p :=
  near_of_isPrefix (fun hmem => absurd (FileName.ofText_injective (List.mem_singleton.1 hmem)) (by decide)) hp

/-- A store that is ready stays so while its directories and its version stay. -/
theorem Ready.kept (hr : s.Ready h) (hp : s.Plain h) (hp' : s.Plain g) (hd : g.directory = h.directory)
    (hdirectories : ∀ l mode, Near (s.place h.directory) l → h.files.entry? l = some (.directory mode) →
      g.files.entry? l = some (.directory mode))
    (hversion : g.files.entry? (s.versionPlace h) = h.files.entry? (s.versionPlace h)) : s.Ready g where
  rooms name hname := by
    have hleads := s.leads_path (FileName.proper_of_known (known_of_mem_roomNames hname))
    obtain ⟨hl, mode, he⟩ := (hleads.unlinked hp).isDirectory_iff.1 (hr.rooms name hname)
    have hnear : ∀ p, p <+: Path.named h.directory (s.path name) → Near (s.place h.directory) p := fun p hpre =>
      near_room hname (hleads.named_eq h.directory ▸ hpre)
    have hunlinked := hleads.unlinked hp'
    rw [hd] at hunlinked ⊢
    refine hunlinked.isDirectory_iff.2 ⟨?_, mode, hdirectories _ mode (hnear _ List.prefix_rfl) he⟩
    exact (hleads.unlinked hp).resolve_kept hunlinked (fun p hpre mode => hdirectories p mode (hnear p hpre)) hl
  version := by
    obtain ⟨-, data, hread, hfound⟩ := yields_verifyVersion.1 hr.version
    obtain ⟨l, mode, hl, -⟩ := FileTree.read_ok hread
    have hunlinked := leads_versionFile.unlinked hp'
    have hl' : g.files.resolve true h.directory s.versionFile = .ok l := by
      rw [hd] at hunlinked
      refine (leads_versionFile.unlinked hp).resolve_kept hunlinked (fun p hpre mode => hdirectories p mode ?_) hl
      exact near_version (leads_versionFile.named_eq h.directory ▸ hpre)
    refine yields_verifyVersion.2 ⟨rfl, data, ?_, hfound⟩
    rw [hd, ← hread]
    refine FileTree.read_congr (hl'.trans hl.symm) fun l' hl'' => ?_
    obtain rfl : l' = l := Except.ok.inj (hl''.symm.trans hl')
    rw [leads_versionFile.resolve_eq hp hl]
    exact hversion

/-- The version of a store that is ready is in a file. -/
theorem Ready.exists_version (hr : s.Ready h) (hp : s.Plain h) :
    ∃ mode data, h.files.entry? (s.versionPlace h) = some (.file mode data) := by
  obtain ⟨-, data, hread, -⟩ := yields_verifyVersion.1 hr.version
  obtain ⟨l, mode, hl, he⟩ := FileTree.read_ok hread
  rw [leads_versionFile.resolve_eq hp hl] at he
  exact ⟨mode, data, he⟩

/-- A store that is ready is a directory. -/
theorem Ready.exists_place (hr : s.Ready h) (hp : s.Plain h) (hrooted : h.files.Rooted) :
    ∃ mode, h.files.entry? (s.place h.directory) = some (.directory mode) := by
  have hleads := s.leads_path (FileName.proper_of_known (show "objects" ∈ knownNames by simp [knownNames]))
  obtain ⟨-, mode, he⟩ := (hleads.unlinked hp).isDirectory_iff.1 (hr.rooms "objects" (by decide))
  rw [hleads.named_eq] at he
  exact hrooted _ (FileName.ofText "objects") (by simp [he])

/-- A store that is ready is not changed to get it ready. -/
theorem Ready.yields_prepare (hr : s.Ready h) : Yields s.prepare h () h := by
  have hmade : ∀ name ∈ roomNames, Yields (onFiles (Host.makePath (s.path name))) h () h := fun name hname =>
    (yields_onFiles ..).2 ((yields_change ..).2 ⟨_, FileTree.makePath_of_isDirectory (hr.rooms name hname), rfl⟩)
  obtain ⟨-, data, hread, -⟩ := yields_verifyVersion.1 hr.version
  refine (yields_bind ..).2 ⟨(), h, hmade "objects" (by simp [roomNames]), ?_⟩
  refine (yields_bind ..).2 ⟨(), h, hmade "images" (by simp [roomNames]), ?_⟩
  refine (yields_bind ..).2 ⟨(), h, hmade "tags" (by simp [roomNames]), ?_⟩
  refine (yields_bind ..).2 ⟨(), h, hmade "cache" (by simp [roomNames]), ?_⟩
  refine (yields_bind ..).2 ⟨true, h, (yields_look ..).2 ⟨FileTree.pathExists_of_read hread, rfl⟩, ?_⟩
  exact hr.version

private theorem yields_makeRoom {name : String} (hname : name ∈ roomNames)
    (hy : Yields (onFiles (Host.makePath (s.path name))) h () h') : Carries h.files h'.files ∧
      h'.directory = h.directory ∧ h'.files.isDirectory h'.directory (s.path name) = true := by
  obtain ⟨t, ht, rfl⟩ := (yields_change ..).1 ((yields_onFiles ..).1 hy)
  have hproper := FileName.proper_of_known (known_of_mem_roomNames hname)
  exact ⟨(FileTree.gainsDirectories_makePath ht).carries, rfl,
    FileTree.isDirectory_makePath (Path.EndsInName.join _ hproper).isEmpty_eq ht⟩

/-- Where the version of a new store's format is noted it is read. -/
private theorem yields_verifyVersion_of_write (hp : s.Plain h)
    (hy : Yields (writeDocument s.versionFile versionDocument) h () h') :
    Carries h.files h'.files ∧ h'.directory = h.directory ∧ Yields s.verifyVersion h' () h' := by
  obtain ⟨l, hl, hno, rfl⟩ := yields_writeBytes ((yields_onFiles ..).1 hy)
  have hlink : ∀ target, h.files.entry? l ≠ some (.link target) := by
    rw [leads_versionFile.resolve_eq hp hl]
    exact hp.link_free _ (.inr (List.prefix_append ..))
  have hroot : l ≠ [] := by
    rintro rfl
    exact hno _ h.files.entry?_root
  refine ⟨Carries.of_put_file hno hlink .., rfl, yields_verifyVersion.2 ⟨rfl, _, ?_, readBack?_version⟩⟩
  exact FileTree.read_eq (FileTree.resolve_put_file hno hlink hl ..) (h.files.entry?_put_self hroot _)
    (FileTree.grants_written _)

theorem Plain.carries (hp : s.Plain h) (hc : Carries h.files g.files) (hd : g.directory = h.directory) : s.Plain g where
  staysBelow := hp.staysBelow
  link_free l hl target ht := by
    rw [hd] at hl
    exact hp.link_free l hl target ((hc.link l target).2 ht)

/-- A store that was got ready is ready. -/
theorem ready_of_prepare (hp : s.Plain h) (hy : Yields s.prepare h () h') :
    s.Ready h' ∧ Carries h.files h'.files ∧ h'.directory = h.directory := by
  obtain ⟨_, h₁, hobjects, hy⟩ := (yields_bind ..).1 hy
  obtain ⟨_, h₂, himages, hy⟩ := (yields_bind ..).1 hy
  obtain ⟨_, h₃, htags, hy⟩ := (yields_bind ..).1 hy
  obtain ⟨_, h₄, hcache, hy⟩ := (yields_bind ..).1 hy
  obtain ⟨found, _, hlook, hy⟩ := (yields_bind ..).1 hy
  obtain ⟨hfound, rfl⟩ := (yields_look ..).1 hlook
  obtain ⟨hc₁, hd₁, hroom₁⟩ := yields_makeRoom (by simp [roomNames]) hobjects
  obtain ⟨hc₂, hd₂, hroom₂⟩ := yields_makeRoom (by simp [roomNames]) himages
  obtain ⟨hc₃, hd₃, hroom₃⟩ := yields_makeRoom (by simp [roomNames]) htags
  obtain ⟨hc₄, hd₄, hroom₄⟩ := yields_makeRoom (by simp [roomNames]) hcache
  have hc := hc₁.trans (hc₂.trans (hc₃.trans hc₄))
  have hd : h₄.directory = h.directory := by rw [hd₄, hd₃, hd₂, hd₁]
  have hrooms : ∀ name ∈ roomNames, h₄.files.isDirectory h₄.directory (s.path name) = true := by
    rw [hd₁] at hroom₁
    rw [hd₂, hd₁] at hroom₂
    rw [hd₃, hd₂, hd₁] at hroom₃
    rw [hd₄, hd₃, hd₂, hd₁] at hroom₄ ⊢
    intro name hname
    simp only [roomNames, List.mem_cons, List.not_mem_nil, or_false] at hname
    rcases hname with rfl | rfl | rfl | rfl
    · exact (hc₂.trans (hc₃.trans hc₄)).isDirectory hroom₁
    · exact (hc₃.trans hc₄).isDirectory hroom₂
    · exact hc₄.isDirectory hroom₃
    · exact hroom₄
  split at hy
  · obtain ⟨rfl, hread⟩ := yields_verifyVersion.1 hy
    exact ⟨⟨hrooms, yields_verifyVersion.2 ⟨rfl, hread⟩⟩, hc, hd⟩
  · obtain ⟨hc', hd', hversion⟩ := yields_verifyVersion_of_write (hp.carries hc hd) hy
    refine ⟨⟨fun name hname => ?_, hversion⟩, hc.trans hc', hd'.trans hd⟩
    rw [hd']
    exact hc'.isDirectory (hrooms name hname)

end Store

end ImageRecipe
