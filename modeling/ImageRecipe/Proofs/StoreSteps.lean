import ImageRecipe.Proofs.FileNames
import ImageRecipe.Proofs.StoreFrame

/-! The frames of what a build does with its work directory and with the store: which files each step may
write and which places it may empty. -/

namespace ImageRecipe

namespace Store

/-- The names that lead from a store to the result of a key, to a tag and to the objects and records. -/
def cacheNames (key : String) : List FileName := ["cache", key ++ ".json"].map FileName.ofText

def tagNames (tag : String) : List FileName := ["tags", Blake3.hexOfText tag].map FileName.ofText

def objectNames : List FileName := [FileName.ofText "objects"]

def imageNames : List FileName := [FileName.ofText "images"]

theorem cacheNames_injective {key key' : String} (h : cacheNames key = cacheNames key') :
    key = key' := by
  simp only [cacheNames, List.map_cons, List.map_nil, List.cons.injEq, true_and, and_true] at h
  have := congrArg String.toList (FileName.ofText_injective h)
  simpa [String.toList_inj] using this

theorem append_ne_cacheNames {S ns : Location} {n : FileName} (hn : n ≠ FileName.ofText "cache")
    (key : String) : S ++ n :: ns ≠ S ++ cacheNames key := by
  intro h
  have := List.append_cancel_left h
  simp only [cacheNames, List.map_cons, List.cons.injEq] at this
  exact hn this.1

theorem last_eq_of_cacheNames {S outer : Location} {n : FileName} {key : String}
    (h : outer ++ [n] = S ++ cacheNames key) : n = FileName.ofText (key ++ ".json") := by
  have := congrArg List.getLast? h
  simpa [cacheNames] using this

private theorem ne_repositoriesName {text : String} (hl : 5 < text.toList.length) :
    FileName.ofText text ≠ repositoriesName := by
  intro heq
  have := FileName.ofText_injective heq
  subst this
  simp at hl

theorem repositoriesName_notMem_tagNames (tag : String) : repositoriesName ∉ tagNames tag := by
  simp only [tagNames, List.map_cons, List.map_nil, List.mem_cons, List.not_mem_nil, or_false, not_or]
  refine ⟨mt FileName.ofText_injective (by decide), Ne.symm (ne_repositoriesName ?_)⟩
  rw [(isDigest_hexOfText tag).length_eq]
  omega

theorem repositoriesName_notMem_cacheNames {key : String} (hkey : IsDigest key) :
    repositoriesName ∉ cacheNames key := by
  simp only [cacheNames, List.map_cons, List.map_nil, List.mem_cons, List.not_mem_nil, or_false, not_or]
  refine ⟨mt FileName.ofText_injective (by decide), Ne.symm (ne_repositoriesName ?_)⟩
  rw [String.toList_append, List.length_append, hkey.length_eq]
  omega

/-- The names that lead from a store to the file that tells the version of its format, and to its lock. -/
def versionNames : List FileName := [FileName.ofText "version"]

def lockNames : List FileName := [FileName.ofText ".lock"]

/-- The document of the version that is supported. -/
def versionDocument : Document := .table [("format_version", .ofNat storeFormatVersion)]

/-- The names of the directories of a store. -/
def roomNames : List String := ["objects", "images", "tags", "cache"]

theorem known_of_mem_roomNames {name : String} (h : name ∈ roomNames) : name ∈ knownNames := by
  simp only [roomNames, List.mem_cons, List.not_mem_nil, or_false] at h
  rcases h with rfl | rfl | rfl | rfl <;> simp [knownNames]

/-- A frame in which the directories of the store may be made, and in it the version of its format and the lock. -/
structure Frame.AllowsStore (f : Frame) : Prop where
  makes : ∀ S name l, name ∈ roomNames → l <+: S ++ [FileName.ofText name] → (f S l).makes
  version : ∀ S, (f S (S ++ versionNames)).writes (Text.bytes (Json.pretty versionDocument))
  lock : ∀ S, (f S (S ++ lockNames)).writes ByteArray.empty

/-- A frame in which files may be written with the names that all builds use. -/
def Frame.AllowsNames (f : Frame) : Prop :=
  ∀ S outer n data, FileName.IsPlain n → (f S (outer ++ [n])).writes data

/-- A frame in which directories may be made and files written with the names that all builds use. -/
structure Frame.AllowsPlain (f : Frame) : Prop where
  makes : ∀ S l, (f S l).makes
  writes : f.AllowsNames

/-- A frame in which the results of builds may be written into work directories. -/
def Frame.AllowsResult (f : Frame) : Prop := ∀ S outer data, (f S (outer ++ [resultName])).writes data

variable {s : Store} {f : Frame}

theorem near_room {name : String} (hname : name ∈ roomNames) {S l : Location}
    (hl : l <+: S ++ [FileName.ofText name]) : Near S l := by
  refine near_of_isPrefix (fun hmem => ?_) hl
  obtain rfl := FileName.ofText_injective (List.mem_singleton.1 hmem)
  simp [roomNames] at hname

theorem Frame.AllowsStore.makes_place (hf : f.AllowsStore) {S l : Location} (hl : l <+: S) : (f S l).makes :=
  hf.makes S "objects" l (by simp [roomNames]) (hl.trans (List.prefix_append ..))

theorem Frame.AllowsPlain.store (hf : f.AllowsPlain) : f.AllowsStore where
  makes S _ l _ _ := hf.makes S l
  version S := hf.writes S S _ _ (FileName.isPlain_ofText (by simp [fixedNames]))
  lock S := hf.writes S S _ _ (FileName.isPlain_ofText (by simp [fixedNames]))

theorem leads_resultPath {key : String} (h : IsDigest key) : s.Leads (s.resultPath key) (cacheNames key) :=
  (leads_path (FileName.proper_of_known (by simp [knownNames]))).join h.proper_json

theorem leads_tagPath (tag : String) : s.Leads (s.tagPath tag) (tagNames tag) :=
  (leads_path (FileName.proper_of_known (by simp [knownNames]))).join (isDigest_hexOfText tag).proper

theorem Leads.resolve_eq {path : String} {ns : List FileName} (hl : s.Leads path ns) {h : Host}
    (hp : s.Plain h) {last : Bool} {l : Location} (hr : h.files.resolve last h.directory path = .ok l) :
    l = s.place h.directory ++ ns := by
  rw [(hl.unlinked hp).resolve_eq hr, hl.named_eq]

end Store

/-- A path that ends in a name, taken from a base, leads to a place with that name. -/
private theorem resolve_join {t : FileTree} {d l : Location} {base path : String} {n : FileName}
    (hn : n.Proper) (hp : ∃ front, Path.rawNames path = front ++ [n])
    (h : t.resolve false d (Path.join base path) = .ok l) : ∃ outer, l = outer ++ [n] :=
  FileTree.resolve_last hn (by simp) (Path.exists_rawNames_join base hp) h

namespace WorkDirectory

variable {s : Store} {f : Store.Frame} {w : WorkDirectory}

/-- Make the directories beside the one of repository definitions. -/
def makeRooms (w : WorkDirectory) : StoreM Unit := do
  Store.onFiles (Host.makePath w.context)
  Store.onFiles (Host.makePath w.ephemeral)
  Store.onFiles (Host.makePath w.packages)

/-- A place is emptied when a work directory is got ready: there the repository definitions of an earlier build
are, once the other directories are made. -/
def Clears (w : WorkDirectory) (h : Host) (l : Location) : Prop :=
  ∃ h', Yields w.makeRooms h () h' ∧ h'.files.pathExists h'.directory w.repositories = true ∧
    h'.files.resolve false h'.directory w.repositories = .ok l

theorem prepare_eq (w : WorkDirectory) : w.prepare = (do
    if !(← Host.isDirectory w.root) then throw (.missingWorkDirectory w.root)
    w.makeRooms
    if ← Host.pathExists w.repositories then Store.onFiles (Host.removeTree w.repositories)
    Store.onFiles (Host.makePath w.repositories)) := by
  unfold prepare makeRooms
  simp only [bind_assoc]

/-- The path of repository definitions leads to a place with their name. -/
theorem named_repositories {t : FileTree} {d l : Location}
    (hl : t.resolve false d w.repositories = .ok l) : ∃ outer, l = outer ++ [Store.repositoriesName] :=
  resolve_join (FileName.proper_of_known (by simp [knownNames])) ⟨[FileName.ofText "ephemeral"], by decide +kernel⟩ hl

/-- A work directory is got ready within a frame if its directories are made within it, at first and once the
repository definitions are cleared, and what is cleared may be emptied. -/
theorem evolves_prepare_of {h : Host}
    (hrooms : h.files.isDirectory h.directory w.root = true → s.Evolves f h (ran w.makeRooms h).2)
    (hf : ∀ l l', w.Clears h l → l <+: l' → (f (s.place h.directory) l').empties)
    (hmake : h.files.isDirectory h.directory w.root = true → ∀ h₁ h₂, Yields w.makeRooms h () h₁ →
      (h₂ = h₁ ∨ Yields (Host.removeTree w.repositories) h₁ () h₂) →
        s.Evolves f h₂ (ran (Host.makePath w.repositories) h₂).2) : s.Evolves f h (ran w.prepare h).2 := by
  have hfiles : ∀ {x : HostM Fault Unit} {h : Host}, s.Evolves f h (ran x h).2 →
      s.Evolves f h (ran (Store.onFiles x) h).2 := by
    intro x h hx
    unfold Store.onFiles
    rwa [ran_failingAs]
  rw [prepare_eq, ran_bind]
  simp only [Host.isDirectory, ran_look]
  split
  · exact refl h
  · next hroot =>
    have hroot : h.files.isDirectory h.directory w.root = true := by simpa using hroot
    intro hp
    refine Keeps.bind_at (R := s.Evolves f) (hrooms hroot) (fun _ h₁ hy => ?_) hp
    rw [ran_bind]
    simp only [Host.pathExists, ran_look]
    split
    · next hexists =>
      refine Keeps.bind_at (R := s.Evolves f) (hfiles ?_) fun _ h₂ hy₂ =>
        hfiles (hmake hroot h₁ h₂ hy (.inr ((yields_onFiles ..).1 hy₂)))
      refine Store.evolves_removeTree fun l hl => ⟨named_repositories hl, fun l' hpre => ?_⟩
      have he := hrooms hroot
      rw [show ran w.makeRooms h = (.ok (), h₁) from hy] at he
      rw [(he hp).1.directory]
      exact hf l l' ⟨h₁, hy, hexists, hl⟩ hpre
    · exact hfiles (hmake hroot h₁ h₁ hy (.inl rfl))

theorem evolves_prepare {h : Host} (hw : f.AllowsPlain)
    (hf : ∀ l l', w.Clears h l → l <+: l' → (f (s.place h.directory) l').empties) :
    s.Evolves f h (ran w.prepare h).2 := by
  have hmake : ∀ path, Keeps (s.Evolves f) (Host.makePath path) := fun path => Store.keeps_makePath hw.makes
  have hrooms : Keeps (s.Evolves f) w.makeRooms :=
    (hmake _).onFiles.bind fun _ => (hmake _).onFiles.bind fun _ => (hmake _).onFiles
  exact evolves_prepare_of (fun _ => hrooms.run h) hf fun _ _ h₂ _ _ => (hmake _).run h₂

theorem keeps_prepare (hf : f.AllowsClearing) (hw : f.AllowsPlain) : Keeps (s.Evolves f) w.prepare := by
  refine ⟨fun h => evolves_prepare hw fun l l' ⟨h', _, _, hl⟩ hpre => ?_⟩
  obtain ⟨outer, rfl⟩ := named_repositories hl
  exact hf _ outer l' hpre

end WorkDirectory

/-- A file with a name, at the end of a path. -/
theorem Store.keeps_writeNamed {s : Store} {f : Store.Frame} {base path text : String} {n : FileName}
    (hf : ∀ S outer, (f S (outer ++ [n])).writes (Text.bytes text)) (hn : n.Proper)
    (hp : ∃ front, Path.rawNames path = front ++ [n]) :
    Keeps (s.Evolves f) (Store.onFiles (Host.writeText (Path.join base path) text)) := by
  apply Keeps.onFiles
  apply Store.keeps_writeBytes
  intro h l _ hl
  obtain ⟨outer, rfl⟩ := resolve_join hn hp hl
  exact hf _ outer

/-- A file with a name that all builds use, at the end of a path. -/
theorem Store.keeps_writePlain {s : Store} {f : Store.Frame} (hf : f.AllowsNames) {base path text : String}
    {n : FileName} (hn : n.Proper) (hplain : n.IsPlain) (hp : ∃ front, Path.rawNames path = front ++ [n]) :
    Keeps (s.Evolves f) (Store.onFiles (Host.writeText (Path.join base path) text)) :=
  Store.keeps_writeNamed (fun S outer => hf S outer n _ hplain) hn hp

private theorem rawNames_of_proper {name : String} (hn : (FileName.ofText name).Proper) :
    ∃ front, Path.rawNames name = front ++ [FileName.ofText name] :=
  ⟨[], RawPath.names_of_slash_notMem hn.slash_notMem⟩

/-- A file with one of the fixed names in a directory. -/
theorem Store.keeps_writeFixed {s : Store} {f : Store.Frame} (hf : f.AllowsNames) {base name text : String}
    (hfixed : name ∈ fixedNames) : Keeps (s.Evolves f) (Store.onFiles (Host.writeText (Path.join base name) text)) :=
  have hn := FileName.proper_of_fixed hfixed
  Store.keeps_writePlain hf hn (FileName.isPlain_ofText hfixed) (rawNames_of_proper hn)

namespace WorkDirectory

variable {s : Store} {f : Store.Frame} {w : WorkDirectory}

theorem keeps_writeBuildFile (hf : f.AllowsNames) (text : String) :
    Keeps (s.Evolves f) (w.writeBuildFile text) :=
  Store.keeps_writeFixed hf (by simp [fixedNames])

theorem keeps_writeIgnoreFile (hf : f.AllowsNames) (text : String) :
    Keeps (s.Evolves f) (w.writeIgnoreFile text) :=
  Store.keeps_writeFixed hf (by simp [fixedNames])

theorem keeps_writeResult (hf : f.AllowsResult) (r : BuildResult) :
    Keeps (s.Evolves f) (w.writeResult r) :=
  Store.keeps_writeNamed (hf · · _) proper_resultName (rawNames_of_proper proper_resultName)

/-- A repository definition goes to a file with one of two names, whatever the name of the repository. -/
theorem exists_repositoryName {d : Distribution} {name : String} {x : RepositoryDefinition}
    (hx : d.localRepository name = .ok x) : ∃ n : FileName, n.Proper ∧
      (n = FileName.ofText "sources.list" ∨ FileName.ofText ".repo" <:+ n) ∧
        ∃ front, Path.rawNames x.fileName = front ++ [n] := by
  unfold Distribution.localRepository at hx
  split at hx
  · cases hx
    have hproper : (FileName.ofText "sources.list").Proper := FileName.proper_of_fixed (by simp [fixedNames])
    exact ⟨_, hproper, .inl rfl, rawNames_of_proper hproper⟩
  · cases hx
    have hslash : RawPath.slash ∉ FileName.ofText ".repo" := by decide +kernel
    obtain ⟨front, n, hn, hs⟩ := RawPath.names_append_last (FileName.ofText name) hslash
    refine ⟨n ++ FileName.ofText ".repo", ?_, .inr (List.suffix_append ..), front, ?_⟩
    · have hr : (0x72 : UInt8) ∈ FileName.ofText ".repo" := by decide +kernel
      apply FileName.Proper.of_mem _ (List.mem_append_right n hr) (by decide)
      rw [List.mem_append, not_or]
      exact ⟨hs, hslash⟩
    · rw [← hn, ← FileName.ofText_append]
      rfl
  · cases hx

/-- A repository definition goes to a file with a plain name. -/
theorem keeps_writeRepository (hf : f.AllowsNames) {d : Distribution} {name : String}
    {x : RepositoryDefinition} (hx : d.localRepository name = .ok x) :
    Keeps (s.Evolves f) (w.writeRepository x.fileName x.contents) := by
  obtain ⟨n, hn, hor, hfront⟩ := exists_repositoryName hx
  have hplain : n.IsPlain := hor.imp_left fun h => by simp [h, fixedNames]
  unfold writeRepository
  exact (Store.keeps_writePlain hf hn hplain hfront).bind fun _ => Keeps.pure _

end WorkDirectory

namespace Store

variable {s : Store} {f : Frame}

theorem leads_versionFile : s.Leads s.versionFile versionNames :=
  leads_path (FileName.proper_of_fixed (by simp [fixedNames]))

theorem leads_lockFile : s.Leads s.lockFile lockNames := leads_path (FileName.proper_of_fixed (by simp [fixedNames]))

theorem keeps_writeVersion (hf : f.AllowsStore) : Keeps (s.Evolves f) (writeDocument s.versionFile versionDocument) := by
  apply Keeps.onFiles
  apply keeps_writeBytes
  intro h l hp hl
  rw [leads_versionFile.resolve_eq hp hl]
  exact hf.version _

theorem keeps_verifyVersion : Keeps Eq s.verifyVersion := by
  unfold verifyVersion
  refine (Keeps.readDocument ..).bind fun found => ?_
  split
  · exact Keeps.throw _
  · exact Keeps.pure _

theorem keeps_prepare (hf : f.AllowsStore) : Keeps (s.Evolves f) s.prepare := by
  have hmake : ∀ name ∈ roomNames, Keeps (s.Evolves f) (Store.onFiles (Host.makePath (s.path name))) :=
    fun name hn => ((leads_path (FileName.proper_of_known (known_of_mem_roomNames hn))).keeps_makePath fun S l =>
      hf.makes S name l hn).onFiles
  unfold prepare
  refine (hmake "objects" (by simp [roomNames])).bind fun _ => (hmake "images" (by simp [roomNames])).bind fun _ =>
    (hmake "tags" (by simp [roomNames])).bind fun _ => (hmake "cache" (by simp [roomNames])).bind fun _ =>
      (Keeps.look ..).bind fun b => ?_
  split
  · exact keeps_verifyVersion.of_eq
  · exact keeps_writeVersion hf

theorem keeps_getResult {key : String} (hkey : IsDigest key)
    (he : ∀ S, (f S (S ++ cacheNames key)).drops) : Keeps (s.Evolves f) (s.getResult key) := by
  have hremove : Keeps (s.Evolves f) (Store.onFiles (Host.remove (s.resultPath key))) := by
    apply Keeps.onFiles
    apply keeps_remove
    intro h l hp hl
    rw [(leads_resultPath hkey).resolve_eq hp hl]
    exact he _
  unfold getResult
  refine (Keeps.look ..).bind fun b => ?_
  split
  · exact Keeps.pure _
  · refine (Keeps.readText _).onFiles.bind fun text => ?_
    split
    · exact Keeps.pure _
    · exact hremove.bind fun _ => Keeps.pure _

theorem keeps_dropResult {key : String} (hkey : IsDigest key)
    (he : ∀ S, (f S (S ++ cacheNames key)).drops) : Keeps (s.Evolves f) (s.dropResult key) := by
  unfold dropResult
  refine (Keeps.look ..).bind fun b => ?_
  split
  · apply Keeps.onFiles
    apply keeps_remove
    intro h l hp hl
    rw [(leads_resultPath hkey).resolve_eq hp hl]
    exact he _
  · exact Keeps.pure _

theorem keeps_putResult {key : String} (hkey : IsDigest key) {r : BuildResult}
    (hw : ∀ S, (f S (S ++ cacheNames key)).writes (Text.bytes (Json.pretty r.toDocument))) :
    Keeps (s.Evolves f) (s.putResult key r) := by
  unfold putResult writeDocument
  apply Keeps.onFiles
  apply keeps_writeBytes
  intro h l hp hl
  rw [(leads_resultPath hkey).resolve_eq hp hl]
  exact hw _

/-- The lock lies in the store itself. -/
theorem parent?_lockFile : Path.parent? s.lockFile = some (Path.join s.root "store") :=
  (Path.EndsInName.join s.root (FileName.proper_of_known (by simp [knownNames]))).parent?_join
    (FileName.proper_of_fixed (by simp [fixedNames]))

theorem keeps_openLock (hm : ∀ S l, l <+: S → (f S l).makes)
    (hw : ∀ S, (f S (S ++ lockNames)).writes ByteArray.empty) : Keeps (s.Evolves f) s.openLock := by
  have hopen : Keeps (s.Evolves f) (Host.openFile s.lockFile) := by
    apply keeps_openFile
    intro h l hp hl
    rw [leads_lockFile.resolve_eq hp hl]
    exact hw _
  unfold openLock
  rw [parent?_lockFile]
  exact (leads_root.keeps_makePath fun S l hpre => hm S l (by simpa using hpre)).bind fun _ => hopen

/-- A frame in which contents may be kept under their digests. -/
structure Frame.AllowsObjects (f : Frame) : Prop where
  fans : ∀ S hash l, IsDigest hash → l <+: S ++ (objectNames ++ [FileName.ofText (fan hash)]) → (f S l).makes
  objects : ∀ S ns hash data, IsDigest hash → (f S (S ++ objectNames ++ ns ++ [FileName.ofText hash])).writes data

/-- A frame in which images may be kept: objects and records under their digests, and the file of one tag. -/
structure Frame.AllowsImages (f : Frame) (tag : String) : Prop extends f.AllowsObjects where
  records : ∀ S hash data, IsDigest hash →
    (f S (S ++ imageNames ++ [FileName.ofText (hash ++ ".json")])).writes data
  tag : ∀ S data, (f S (S ++ tagNames tag)).writes data

theorem allowsClearing_all : Frame.all.AllowsClearing := fun _ _ _ _ => trivial

theorem allowsPlain_all : Frame.all.AllowsPlain := ⟨fun _ _ => trivial, fun _ _ _ _ _ => trivial⟩

theorem allowsResult_all : Frame.all.AllowsResult := fun _ _ _ => trivial

theorem allowsImages_all (tag : String) : Frame.all.AllowsImages tag :=
  ⟨⟨fun _ _ _ _ _ => trivial, fun _ _ _ _ _ => trivial⟩, fun _ _ _ _ => trivial, fun _ _ => trivial⟩

/-- Objects lie in directories with the first two digits of their digests. -/
theorem fan_eq {hash : String} (h : IsDigest hash) :
    ∃ a b, a ∈ hexDigits ∧ b ∈ hexDigits ∧ fan hash = String.ofList [a, b] := by
  have hl := h.length_eq
  have hmem := h.mem_hexDigits
  cases hc : hash.toList with
  | nil => simp [hc] at hl
  | cons a r =>
    cases r with
    | nil => simp [hc] at hl
    | cons b r =>
      rw [hc] at hmem
      have ha := hmem a (by simp)
      have hb := hmem b (by simp)
      have hall : hexDigits.all (fun c => decide (c.utf8Size = 1)) = true := by decide
      have hsize c (hc : c ∈ hexDigits) := of_decide_eq_true (List.all_eq_true.1 hall c hc)
      refine ⟨a, b, ha, hb, ?_⟩
      unfold fan
      rw [hc]
      simp [hsize a ha, hsize b hb]

theorem fan_proper {hash : String} (h : IsDigest hash) : (FileName.ofText (fan hash)).Proper := by
  obtain ⟨a, b, ha, hb, hfan⟩ := fan_eq h
  have hall : hexDigits.all (fun c => decide (c ≠ '/' ∧ c ≠ '.')) = true := by decide
  have hne c (hc : c ∈ hexDigits) := of_decide_eq_true (List.all_eq_true.1 hall c hc)
  rw [hfan]
  apply FileName.proper_ofText (c := a)
  · rw [String.toList_ofList]
    simp [Ne.symm (hne a ha).1, Ne.symm (hne b hb).1]
  · simp
  · exact (hne a ha).2

theorem leads_fan {hash : String} (h : IsDigest hash) :
    s.Leads (Path.join s.objects (fan hash)) (objectNames ++ [FileName.ofText (fan hash)]) :=
  (leads_path (FileName.proper_of_known (by simp [knownNames]))).join (fan_proper h)

theorem leads_objectPath {hash : String} (h : IsDigest hash) :
    s.Leads (s.objectPath hash)
      (objectNames ++ [FileName.ofText (fan hash)] ++ [FileName.ofText hash]) :=
  (leads_fan h).join h.proper

theorem parent?_objectPath {hash : String} (h : IsDigest hash) :
    Path.parent? (s.objectPath hash) = some (Path.join s.objects (fan hash)) :=
  (Path.EndsInName.join s.objects (fan_proper h)).parent?_join h.proper

/-- The digest that an id is made of. -/
theorem digest_id (r : ImageRecord) :
    ((Text.dropStart? ImageRecord.idAlgorithm.toList r.id.toList).map String.ofList).getD r.id =
      Blake3.hexOfText r.contentText := by
  unfold ImageRecord.id
  rw [String.toList_append, Text.dropStart?_append]
  simp

theorem recordPath_id (r : ImageRecord) :
    s.recordPath r.id = Path.join s.images (Blake3.hexOfText r.contentText ++ ".json") := by
  unfold recordPath
  simp only [digest_id]

theorem leads_recordPath (r : ImageRecord) :
    s.Leads (s.recordPath r.id)
      (imageNames ++ [FileName.ofText (Blake3.hexOfText r.contentText ++ ".json")]) := by
  rw [recordPath_id]
  exact (leads_path (FileName.proper_of_known (by simp [knownNames]))).join (isDigest_hexOfText _).proper_json

variable {tag : String}

theorem repositoriesName_notMem_objectPath {hash : String} (h : IsDigest hash) :
    repositoriesName ∉ objectNames ++ [FileName.ofText (fan hash)] ++ [FileName.ofText hash] := by
  obtain ⟨a, b, -, -, hfan⟩ := fan_eq h
  have hhash : FileName.ofText hash ≠ repositoriesName := ne_repositoriesName (by rw [h.length_eq]; omega)
  have hobjects : FileName.ofText "objects" ≠ repositoriesName := mt FileName.ofText_injective (by decide)
  have htwo : FileName.ofText (fan hash) ≠ repositoriesName := by
    intro heq
    have := congrArg (fun t : String => t.toList.length) (FileName.ofText_injective heq)
    simp [hfan] at this
  simp [objectNames, Ne.symm hhash, Ne.symm hobjects, Ne.symm htwo]

theorem repositoriesName_notMem_recordPath {hash : String} (h : IsDigest hash) :
    repositoriesName ∉ imageNames ++ [FileName.ofText (hash ++ ".json")] := by
  simp only [imageNames, List.singleton_append, List.mem_cons, List.not_mem_nil, or_false, not_or]
  refine ⟨mt FileName.ofText_injective (by decide), Ne.symm (ne_repositoriesName ?_)⟩
  rw [String.toList_append, List.length_append, h.length_eq]
  omega

theorem near_of_fan {hash : String} (h : IsDigest hash) {S l : Location}
    (hl : l <+: S ++ (objectNames ++ [FileName.ofText (fan hash)])) : Near S l :=
  near_of_isPrefix (fun hmem => repositoriesName_notMem_objectPath h (List.mem_append_left _ hmem)) hl

theorem keeps_putObject (hf : f.AllowsObjects) (data : ByteArray) :
    Keeps (s.Evolves f) (s.putObject data) := by
  have hd := isDigest_hex data
  have hwrite : Keeps (s.Evolves f)
      (Store.onFiles (Host.writeBytes (s.objectPath (Blake3.hex data)) data)) := by
    apply Keeps.onFiles
    apply keeps_writeBytes
    intro h l hp hl
    rw [(leads_objectPath hd).resolve_eq hp hl, ← List.append_assoc, ← List.append_assoc]
    exact hf.objects _ _ _ _ hd
  unfold putObject
  refine (Keeps.look ..).bind fun b => ?_
  split
  · rw [parent?_objectPath hd]
    have hmake := (leads_fan (s := s) hd).keeps_makePath fun S l => hf.fans S _ l hd
    exact hmake.onFiles.bind fun _ => hwrite.bind fun _ => Keeps.pure _
  · exact Keeps.pure _

/-- Keeping an image writes its record and its tag. -/
theorem keeps_putImage_of {r : ImageRecord}
    (hrecord : ∀ S, (f S (S ++ (imageNames ++ [FileName.ofText (Blake3.hexOfText r.contentText ++ ".json")]))).writes
      (Text.bytes (Json.pretty r.toDocument)))
    (htag : ∀ S, (f S (S ++ tagNames tag)).writes (Text.bytes (Json.pretty (TagEntry.toDocument ⟨tag, r.id⟩)))) :
    Keeps (s.Evolves f) (s.putImage r tag) := by
  have hrecord : Keeps (s.Evolves f) (writeDocument (s.recordPath r.id) r.toDocument) := by
    apply Keeps.onFiles
    apply keeps_writeBytes
    intro h l hp hl
    rw [(leads_recordPath r).resolve_eq hp hl]
    exact hrecord _
  have htag : Keeps (s.Evolves f) (writeDocument (s.tagPath tag) (TagEntry.toDocument ⟨tag, r.id⟩)) := by
    apply Keeps.onFiles
    apply keeps_writeBytes
    intro h l hp hl
    rw [(leads_tagPath tag).resolve_eq hp hl]
    exact htag _
  unfold putImage
  refine (Keeps.look ..).bind fun b => ?_
  exact Keeps.when hrecord (fun _ => htag.bind fun _ => Keeps.pure _) (htag.bind fun _ => Keeps.pure _)

theorem keeps_putImage (hf : f.AllowsImages tag) (r : ImageRecord) : Keeps (s.Evolves f) (s.putImage r tag) :=
  keeps_putImage_of (fun S => by
    rw [← List.append_assoc]
    exact hf.records S _ _ (isDigest_hexOfText _)) fun S => hf.tag S _

theorem keeps_resolveTag : Keeps (s.Evolves f) (s.resolveTag tag) := by
  unfold resolveTag
  refine (Keeps.look ..).bind fun b => ?_
  split
  · exact Keeps.pure _
  · exact (Keeps.readDocument ..).bind fun _ => Keeps.pure _

theorem keeps_untag (he : ∀ S, (f S (S ++ tagNames tag)).drops) : Keeps (s.Evolves f) (s.untag tag) := by
  unfold untag
  refine (Keeps.look ..).bind fun b => ?_
  split
  · refine Keeps.bind (Keeps.onFiles (keeps_remove ?_)) fun _ => Keeps.pure _
    intro h l hp hl
    rw [(leads_tagPath tag).resolve_eq hp hl]
    exact he _
  · exact Keeps.pure _

end Store

namespace Direct

variable {s : Store} {f : Store.Frame} {tag : String}

theorem keeps_putLayer (hf : f.AllowsObjects) (w : WorkDirectory) (l : Layer) : Keeps (s.Evolves f) (putLayer s w l) := by
  have hrest : Keeps (s.Evolves f) (do
      let options ← HostM.ofExcept (layerOptions l)
      let archive ← Store.onFiles
        (Host.inspect (fun t d p => Archive.packDirectory t d p options) (Path.join w.root l.source))
      let data : ByteArray := ⟨archive.toArray⟩
      let digest ← s.putObject data
      pure (⟨l.ordinal, digest, data.size, l.destination⟩ : LayerRecord)) :=
    (Keeps.ofExcept _).bind fun _ => (Keeps.inspect ..).onFiles.bind fun _ =>
      (Store.keeps_putObject hf _).bind fun _ => Keeps.pure _
  unfold putLayer
  exact (Keeps.look ..).bind fun b => Keeps.when (Keeps.throw _) (fun _ => hrest) hrest

theorem keeps_putPlan (hs : f.AllowsStore) (hf : f.AllowsImages tag) (p : DirectPlan) (w : WorkDirectory) :
    Keeps (s.Evolves f) (putPlan s p w tag) := by
  unfold putPlan
  exact (Store.keeps_prepare hs).bind fun _ =>
    (Keeps.mapM _ fun l _ => keeps_putLayer hf.toAllowsObjects w l).bind fun _ => Store.keeps_putImage hf _

end Direct

end ImageRecipe
