import ImageRecipe.Proofs.MockImages
import ImageRecipe.Proofs.SettledJobs
import ImageRecipe.Proofs.StoreContents

/-! The stages of a build with a backend other than the daemon, told by what each of them does to the files: the work
directory and the store are got ready, the mirror is defined, the image is made, and the result is noted. -/

namespace ImageRecipe

open Workshop
open Store (Contents Frame.within Frame.anywhere)
open WorkDirectory (Writes)

namespace Workshop

variable {w w' : Workshop} {k : BackendKind} {s : Store} {id : String}

/-- A backend other than the daemon has an image. -/
def HasImage (w : Workshop) (id : String) : BackendKind → Prop
  | .mock => ∃ tag, w.mockImage? tag = some id
  | .direct => w.host.files.pathExists w.host.directory (w.store.recordPath id) = true
  | .daemon => False

theorem Alike.hasImage_iff (h : Alike w w') : w'.HasImage id k ↔ w.HasImage id k := by
  cases k with
  | mock => simp only [HasImage, h.mockImage]
  | direct => simp only [HasImage, h.host, h.store]
  | daemon => rfl


/-- A backend other than the daemon tells whether it has an image. -/
theorem exists_imageExists (hk : k ≠ .daemon) (hs : w.Uses s) (id : String) :
    ∃ b w', Yields (withOpen k (Backend.imageExists id)) w b w' ∧ Alike w w' ∧ (b = true ↔ w.HasImage id k) := by
  obtain ⟨b, w₁, hopen, hb, halike⟩ := exists_openBackend hk w
  have hanswer : ∃ found, Yields (Backend.imageExists id b) w₁.host found w₁.host ∧
      (found = true ↔ w₁.HasImage id k) := by
    cases k with
    | daemon => exact absurd rfl hk
    | direct =>
      obtain rfl := (halike.uses s hs).direct hb
      refine ⟨_, (yields_look ..).2 ⟨rfl, rfl⟩, ?_⟩
      simp only [HasImage, (halike.uses s hs).store_eq]
    | mock =>
      obtain ⟨m, rfl⟩ := Backend.eq_mock (kind_of_backend? hb)
      refine ⟨m.imageExists id, rfl, ?_⟩
      simp only [HasImage, mockImage?_of_backend? hb, Mock.imageExists, SortedMap.mem_values_iff, List.contains_iff_mem]
  obtain ⟨found, hyields, hiff⟩ := hanswer
  refine ⟨found, w₁, ?_, halike, hiff.trans halike.hasImage_iff⟩
  exact (yields_bind ..).2 ⟨b, w₁, hopen, (yields_onHost ..).2 ⟨w₁.host, hyields, rfl⟩⟩

end Workshop

/-- A mock image comes with a build file and an ignore file. -/
theorem Mock.writes_materialize {m m' : Mock} {p : Plan} {d : WorkDirectory} {tag : String} {a : Architecture}
    {h h' : Host} {x : BuildResult} {S : Location} {paths : List String} (hbuild : d.buildFile ∈ paths)
    (hignore : d.ignoreFile ∈ paths) (hy : Yields (m.materialize p d tag a) h (x, m') h') :
    Writes h.directory S paths h.files h'.files ∧ h'.directory = h.directory ∧ m'.user = m.user := by
  unfold materialize at hy
  split at hy
  · exact (yields_throw _ _ _ _ hy).elim
  · obtain ⟨_, h₁, hfirst, hy⟩ := (yields_bind ..).1 hy
    obtain ⟨_, h₂, hsecond, hy⟩ := (yields_bind ..).1 hy
    obtain ⟨_, _, hnow, hpure⟩ := (yields_bind ..).1 hy
    obtain ⟨-, rfl⟩ := yields_now.1 hnow
    obtain ⟨heq, rfl⟩ := (yields_pure ..).1 hpure
    cases heq
    obtain ⟨hw₁, hd₁⟩ := Writes.of_yields (S := S) hbuild ((yields_onFiles ..).1 ((yields_failingAs ..).1 hfirst))
    obtain ⟨hw₂, hd₂⟩ := Writes.of_yields (S := S) hignore ((yields_onFiles ..).1 ((yields_failingAs ..).1 hsecond))
    rw [hd₁] at hw₂
    exact ⟨hw₁.trans hw₂, hd₂.trans hd₁, rfl⟩

namespace Recipe

variable {r : Recipe} {s : Store} {w w' : Workshop} {key : String} {hit x : BuildResult} {j : Job}

/-- A result is found in the cache if the cache has it and the backend has its image. -/
theorem exists_cached? (hk : r.backend ≠ .daemon) (hs : w.Uses s)
    (hget : Yields (s.getResult key) w.host (some hit) w.host) (himage : w.HasImage hit.imageId r.backend) :
    ∃ w', Yields (r.cached? key) w (some hit) w' ∧ Alike w w' := by
  obtain ⟨found, w₁, hlook, halike, hfound⟩ := exists_imageExists hk hs hit.imageId
  refine ⟨w₁, ?_, halike⟩
  refine (yields_bind ..).2 ⟨w, w, (yields_get ..).2 ⟨rfl, rfl⟩, (yields_bind ..).2 ⟨some hit, w, ?_, ?_⟩⟩
  · rw [hs.store_eq]
    exact (yields_onHost ..).2 ⟨w.host, hget, rfl⟩
  · refine (yields_bind ..).2 ⟨found, w₁, hlook, ?_⟩
    rw [if_pos (hfound.2 himage)]
    exact (yields_pure ..).2 ⟨rfl, rfl⟩

/-- A result that is found in the cache is there, and the backend has its image. -/
theorem hit_of_cached? (hk : r.backend ≠ .daemon) (hs : w.Uses s) (hy : Yields (r.cached? key) w (some hit) w') :
    Yields (s.getResult key) w.host (some hit) w.host ∧ w.HasImage hit.imageId r.backend ∧ Alike w w' := by
  unfold cached? at hy
  obtain ⟨_, _, hstore, hy⟩ := (yields_bind ..).1 hy
  obtain ⟨rfl, rfl⟩ := (yields_get ..).1 hstore
  obtain ⟨hit', _, hfetch, hy⟩ := (yields_bind ..).1 hy
  obtain ⟨host, hget, rfl⟩ := (yields_onHost ..).1 hfetch
  rw [hs.store_eq] at hget
  split at hy
  · simp at hy
  · next hit' =>
    obtain ⟨rfl, -⟩ := Store.yields_getResult.1 hget
    obtain ⟨found, w₁, hlook, halike, hfound⟩ := exists_imageExists hk hs hit'.imageId
    obtain ⟨found', w₂, hlook', hy⟩ := (yields_bind ..).1 hy
    obtain ⟨rfl, rfl⟩ := hlook.unique hlook'
    split at hy
    · next hthere =>
      obtain ⟨heq, rfl⟩ := (yields_pure ..).1 hy
      cases heq
      exact ⟨hget, hfound.1 hthere, halike⟩
    · obtain ⟨_, _, -, hy⟩ := (yields_bind ..).1 hy
      simp at hy

/-- Where nothing is found in the cache at most its file is removed. -/
theorem evolves_cached?_none (hk : r.backend ≠ .daemon) (hs : w.Uses s) (hkey : IsDigest key)
    (hy : Yields (r.cached? key) w none w') :
    s.Evolves (Frame.within Contents) w.host w'.host ∧ Alike { w with host := w'.host } w' := by
  unfold cached? at hy
  obtain ⟨_, _, hstore, hy⟩ := (yields_bind ..).1 hy
  obtain ⟨rfl, rfl⟩ := (yields_get ..).1 hstore
  obtain ⟨found, _, hfetch, hy⟩ := (yields_bind ..).1 hy
  obtain ⟨host, hget, rfl⟩ := (yields_onHost ..).1 hfetch
  rw [hs.store_eq] at hget
  have hevolves := (Store.keeps_getResult (s := s) hkey (Store.drops_contents hkey)).yields hget
  split at hy
  · obtain ⟨-, rfl⟩ := (yields_pure ..).1 hy
    exact ⟨hevolves, .refl _⟩
  · next hit =>
    have hs' : ({ w with host } : Workshop).Uses s := ⟨hs.store_eq, hs.backends⟩
    obtain ⟨found, w₁, hlook, halike, -⟩ := exists_imageExists (w := { w with host }) hk hs' hit.imageId
    obtain ⟨found', w₂, hlook', hy⟩ := (yields_bind ..).1 hy
    obtain ⟨rfl, rfl⟩ := hlook.unique hlook'
    split at hy
    · simp at hy
    · obtain ⟨_, _, hforget, hpure⟩ := (yields_bind ..).1 hy
      obtain ⟨host', hdrop, rfl⟩ := (yields_onHost ..).1 hforget
      obtain ⟨-, rfl⟩ := (yields_pure ..).1 hpure
      rw [hs.store_eq, halike.host] at hdrop
      have hdropped := (Store.keeps_dropResult (s := s) hkey (Store.drops_contents hkey)).yields hdrop
      exact ⟨IsTrans.trans _ _ _ hevolves hdropped, halike.withHost host'⟩

/-- The paths of the files that a build leaves in its work directory. -/
def generatedPaths (r : Recipe) : List String :=
  let d : WorkDirectory := ⟨r.workDirectory⟩
  match r.backend.builder with
  | .daemon => [d.buildFile, d.ignoreFile, d.resultFile]
  | .direct => [d.resultFile]

/-- An image is made by an open backend, after additions to the store at most. -/
private theorem exists_makeImage (hk : r.backend ≠ .daemon) (hs : w.Uses s) (hy : Yields (r.makeImage j) w x w') :
    ∃ host b b' w₁ host', s.Evolves (Frame.within Contents) w.host host ∧ w₁.backend? r.backend = some b ∧
      Alike { w with host } w₁ ∧
        Yields (Backend.materialize j.plan j.directory r.tag r.architecture b) host (x, b') host' ∧
          w' = ({ w₁ with host := host' } : Workshop).withBackend b' := by
  obtain ⟨w₀, hlock, hchange⟩ := yields_makeImage hy
  have hopened : ∃ host, w₀ = { w with host } ∧ s.Evolves (Frame.within Contents) w.host host := by
    rcases hlock with rfl | hopen
    · exact ⟨w₀.host, rfl, Std.Refl.refl _⟩
    · obtain ⟨host, hlock, rfl⟩ := (yields_onHost ..).1 hopen
      rw [hs.store_eq] at hlock
      exact ⟨host, rfl, Store.keeps_openLock_contents.yields hlock⟩
  obtain ⟨host, rfl, hevolves⟩ := hopened
  obtain ⟨b, b', w₁, host', hb, halike, hrun, heq⟩ := exists_of_changing hk hchange
  exact ⟨host, b, b', w₁, host', hevolves, hb, halike, hrun, heq⟩

theorem slash_notMem_makeImage (hk : r.backend ≠ .daemon) (hs : w.Uses s) (hy : Yields (r.makeImage j) w x w') :
    '/' ∉ x.imageId.toList := by
  cases hkind : r.backend with
  | daemon => exact absurd hkind hk
  | direct =>
    obtain ⟨host, -, hmake⟩ := yields_makeImage_direct Store.allowsPlain_all.store hkind hs hy
    obtain ⟨record, hid⟩ := Direct.exists_record hmake
    exact hid ▸ record.slash_notMem_id
  | mock =>
    have hhex := (isDigest_hexOfText (Mock.imageIdText j.plan r.architecture)).notMem (c := '/') (by decide)
    rw [(yields_makeImage_mock hkind hy).1]
    simp [Mock.imageId, hhex]

/-- The image of a job is made by writing the build's files, or by additions to the store. -/
theorem writes_makeImage (hk : r.backend ≠ .daemon) (hs : w.Uses s) (hready : r.backend = .direct → s.Ready w.host)
    (hp : s.Plain w.host)
    (hd : j.directory = ⟨r.workDirectory⟩) (hy : Yields (r.makeImage j) w x w') :
    Writes w.host.directory (s.place w.host.directory) r.generatedPaths w.host.files w'.host.files ∧
      w'.host.directory = w.host.directory ∧ w'.userOf r.backend = w.userOf r.backend ∧
        w'.HasImage x.imageId r.backend := by
  obtain ⟨host, b, b', w₁, host', hevolves, hb, halike, hrun, rfl⟩ := exists_makeImage hk hs hy
  obtain ⟨hsame, hchanges⟩ := hevolves hp
  have huses := halike.uses s ⟨hs.store_eq, hs.backends⟩
  cases hkind : r.backend with
  | daemon => exact absurd hkind hk
  | direct =>
    rw [hkind] at hb
    obtain rfl := huses.direct hb
    obtain ⟨x', host'', hmake, hpure⟩ := (yields_bind ..).1 hrun
    obtain ⟨heq, rfl⟩ := (yields_pure ..).1 hpure
    cases heq
    obtain ⟨hadds, hexists⟩ := Direct.evolves_materialize ((hready hkind).evolves hp hevolves) (hp.evolves hevolves) hmake
    obtain ⟨hsame', hchanges'⟩ := IsTrans.trans _ _ _ hevolves hadds hp
    refine ⟨.store hchanges'.files (.done _), hsame'.directory, rfl, ?_⟩
    change host''.files.pathExists host''.directory (w₁.store.recordPath x.imageId) = true
    rw [huses.store_eq]
    exact hexists
  | mock =>
    rw [hkind] at hb
    obtain ⟨m, rfl⟩ := Backend.eq_mock (kind_of_backend? hb)
    obtain ⟨⟨x', m'⟩, host'', hmake, hpure⟩ := (yields_bind ..).1 hrun
    obtain ⟨heq, rfl⟩ := (yields_pure ..).1 hpure
    cases heq
    rw [hd] at hmake
    have hpaths : r.generatedPaths = [WorkDirectory.buildFile ⟨r.workDirectory⟩, WorkDirectory.ignoreFile ⟨r.workDirectory⟩,
        WorkDirectory.resultFile ⟨r.workDirectory⟩] := by
      unfold generatedPaths
      rw [hkind]
      rfl
    obtain ⟨hwrites, hdirectory, huser⟩ := Mock.writes_materialize (S := s.place w.host.directory)
      (show _ ∈ r.generatedPaths by simp [hpaths]) (by simp [hpaths]) hmake
    rw [hsame.directory] at hwrites
    have hbackend : (({ w₁ with host := host'' } : Workshop).withBackend (.mock m')).backend? .mock = some (.mock m') := by
      rw [backend?_withBackend]
      rfl
    refine ⟨.store hchanges.files hwrites, hdirectory.trans hsame.directory, ?_, r.tag, ?_⟩
    · have hbefore : m.user = w.mockUser := (mockUser_of_backend? hb).symm.trans halike.mockUser
      exact (mockUser_of_backend? hbackend).trans (huser.trans hbefore)
    · obtain ⟨-, -, hget⟩ := Mock.yields_materialize hmake
      rw [mockImage?_of_backend? hbackend, hget, if_pos rfl]

/-- The stages of a build that came to an outcome, by the hosts that they leave. -/
structure Stages (r : Recipe) (s : Store) (w w' : Workshop) (o : Outcome) (j : Job) (h₁ h₂ h₃ h₄ h₅ : Host) : Prop where
  cleared : Yields (⟨r.workDirectory⟩ : WorkDirectory).prepare w.host () h₁
  ready : Yields s.prepare h₁ () h₂
  settled : r.SettlesOn { w with host := h₂ } j h₃
  planHash : o.planHash = j.plan.contentHash
  made : Writes w.host.directory (s.place w.host.directory) r.generatedPaths h₃.files h₄.files
  directory : h₄.directory = w.host.directory
  noted : Yields ((⟨r.workDirectory⟩ : WorkDirectory).writeResult o.result) h₄ () h₅
  kept : s.Evolves (Frame.within Contents) h₅ w'.host
  cache : Yields (s.getResult (r.key j)) w'.host (some o.result) w'.host
  image : w'.HasImage o.result.imageId r.backend
  user : w'.userOf r.backend = w.userOf r.backend
  rooted : w.host.files.Rooted → h₂.files.Rooted ∧ h₄.files.Rooted

/-- An image is not lost while files are written. -/
private theorem hasImage_anywhere {k : BackendKind} {id : String} (hs : w.Uses s) (hs' : w'.Uses s) (hp : s.Plain w.host)
    (hid : '/' ∉ id.toList) (hmock : w'.mockImage? = w.mockImage?) (hd : w'.host.directory = w.host.directory)
    (he : w.host.files.Evolves (Frame.anywhere (s.place w.host.directory)) w'.host.files) (h : w.HasImage id k) :
    w'.HasImage id k := by
  cases k with
  | daemon => exact h
  | mock => simpa only [HasImage, hmock] using h
  | direct =>
    obtain ⟨n, -, hleads⟩ := s.leads_recordPath_of_slash hid
    simp only [HasImage, hs.store_eq, hs'.store_eq] at h ⊢
    refine hleads.pathExists_anywhere (fun S key => ?_) hp hd he h
    rw [Store.imageNames, List.singleton_append]
    exact Store.append_ne_cacheNames (mt FileName.ofText_injective (by decide)) key

private theorem avoidedBy_path {d : WorkDirectory} {name : String} (hn : (FileName.ofText name).Proper)
    (hversion : name ≠ "version") (hkey : ∀ key, IsDigest key → FileName.ofText name ≠ FileName.ofText (key ++ ".json")) :
    Store.AvoidedBy (d.path name) :=
  Store.avoidedBy_join hn ⟨[], RawPath.names_of_slash_notMem hn.slash_notMem⟩ (mt FileName.ofText_injective hversion) hkey

/-- The files that a build leaves in its work directory are no part of what a store needs. -/
theorem avoidedBy_generatedPaths {path : String} (h : path ∈ r.generatedPaths) : Store.AvoidedBy path := by
  have hfixed : ∀ name ∈ fixedNames, name ≠ "version" → Store.AvoidedBy (WorkDirectory.path ⟨r.workDirectory⟩ name) :=
    fun name hname hversion => avoidedBy_path (FileName.proper_of_fixed hname) hversion fun key hkey heq =>
      hkey.not_isPlain_json (heq ▸ FileName.isPlain_ofText hname)
  have hresult : Store.AvoidedBy (WorkDirectory.path ⟨r.workDirectory⟩ "image-build.json") :=
    avoidedBy_path proper_resultName (by decide) fun key hkey => hkey.ne_resultName_json.symm
  unfold generatedPaths at h
  split at h
  · simp only [List.mem_cons, List.not_mem_nil, or_false] at h
    rcases h with rfl | rfl | rfl
    · exact hfixed _ (by simp [fixedNames]) (by decide)
    · exact hfixed _ (by simp [fixedNames]) (by decide)
    · exact hresult
  · obtain rfl := List.mem_singleton.1 h
    exact hresult

theorem resultFile_mem_generatedPaths (r : Recipe) :
    WorkDirectory.resultFile ⟨r.workDirectory⟩ ∈ r.generatedPaths := by
  unfold generatedPaths
  split
  · simp
  · simp

/-- The definition of the local mirror is no part of what a store needs. -/
theorem avoidedBy_mirrorPath {settings : Settings} {x : RepositoryDefinition}
    (hx : r.distribution.localRepository settings.repositoryName = .ok x) : Store.AvoidedBy (r.mirrorPath x) := by
  obtain ⟨n, hn, hor, hfront⟩ := WorkDirectory.exists_repositoryName hx
  have hplain : n.IsPlain := hor.imp_left fun h => by simp [h, fixedNames]
  refine Store.avoidedBy_join hn hfront ?_ fun key hkey heq => hkey.not_isPlain_json (heq ▸ hplain)
  rcases hor with rfl | hsuffix
  · exact mt FileName.ofText_injective (by decide)
  · rintro rfl
    revert hsuffix
    decide +kernel

/-- The result of a build is written beside the store and its cache. -/
private theorem evolves_writeResult {S : Location} {h h' : Host} {u : Unit}
    (hy : Yields ((⟨r.workDirectory⟩ : WorkDirectory).writeResult x) h u h') :
    h.files.Evolves (Frame.anywhere S) h'.files ∧ h'.directory = h.directory ∧ ∀ key, IsDigest key →
      h'.files.entry? (S ++ Store.cacheNames key) = h.files.entry? (S ++ Store.cacheNames key) := by
  obtain ⟨l, hl, hno, rfl⟩ := yields_writeBytes ((yields_onFiles ..).1 hy)
  refine ⟨Store.put_anywhere hno _ _, rfl, fun key hkey => h.files.entry?_put_of_ne ?_ _⟩
  exact ((avoidedBy_generatedPaths r.resultFile_mem_generatedPaths _ _ _ hl S).2 key hkey).symm

theorem Mirrors.plain {settings : Settings} {h h' : Host} (hm : r.Mirrors settings h h') (hp : s.Plain h) :
    s.Plain h' ∧ h'.directory = h.directory := by
  cases hm with
  | unneeded => exact ⟨hp, rfl⟩
  | written _ _ hy =>
    obtain ⟨l, -, hno, rfl⟩ := yields_writeBytes hy
    exact ⟨hp.anywhere rfl (Store.put_anywhere hno _ _), rfl⟩

theorem Mirrors.eq_of_direct {settings : Settings} {h h' : Host} (hm : r.Mirrors settings h h')
    (hk : r.backend = .direct) : h' = h := by
  cases hm with
  | unneeded => rfl
  | written hyes => simp [mirrors, hk, BackendKind.builder] at hyes

theorem yields_getReady (hs : w.Uses s) : Yields r.getReady w () w' ↔ ∃ h₁ h₂,
    Yields (⟨r.workDirectory⟩ : WorkDirectory).prepare w.host () h₁ ∧ Yields s.prepare h₁ () h₂ ∧
      { w with host := h₂ } = w' := by
  unfold getReady
  rw [yields_bind]
  simp only [yields_get, yields_bind, yields_onHost]
  constructor
  · rintro ⟨_, _, ⟨rfl, rfl⟩, _, _, ⟨h₁, hprepare, rfl⟩, h₂, hstore, rfl⟩
    rw [hs.store_eq] at hstore
    exact ⟨h₁, h₂, hprepare, hstore, rfl⟩
  · rintro ⟨h₁, h₂, hprepare, hstore, rfl⟩
    rw [← hs.store_eq] at hstore
    exact ⟨w, w, ⟨rfl, rfl⟩, (), { w with host := h₁ }, ⟨h₁, hprepare, rfl⟩, h₂, hstore, rfl⟩

theorem exists_stages (hk : r.backend ≠ .daemon) (hs : w.Uses s) (hp : s.Plain w.host) {o : Outcome}
    (hid : '/' ∉ o.result.imageId.toList) (hreal : o.result.createdAt.Real)
    (hy : Yields (r.buildWith r.materializeStrictly) w o w') :
    ∃ j w₁ h₁ h₂ h₄ h₅, Yields r.job w j w₁ ∧ r.Stages s w w' o j h₁ h₂ w₁.host h₄ h₅ ∧ w'.Uses s ∧
      w'.settings = w.settings := by
  obtain ⟨j, w₁, hjob, hplan, hor⟩ := yields_buildWith hy
  obtain ⟨_, w₀, hready, hsettle⟩ := (yields_bind ..).1 (job_eq r ▸ hjob)
  obtain ⟨h₁, h₂, hprepare, hstore, rfl⟩ := (yields_getReady hs).1 hready
  obtain ⟨hsettles, halike⟩ := settlesOn_of_yields hk hsettle
  have he₁ : s.Evolves Store.Frame.all w.host h₁ :=
    (WorkDirectory.keeps_prepare Store.allowsClearing_all Store.allowsPlain_all).yields hprepare
  have hp₁ := hp.evolves he₁
  obtain ⟨hready₂, hcarries, hd₂⟩ := Store.ready_of_prepare hp₁ hstore
  obtain ⟨hp₃, hd₃⟩ := hsettles.mirror.plain (hp₁.carries hcarries hd₂)
  have hdirectory : w₁.host.directory = w.host.directory := (hd₃.trans hd₂).trans (he₁ hp).1.directory
  have hs₁ : w₁.Uses s := halike.uses s ⟨hs.store_eq, hs.backends⟩
  have hrooted₂ : w.host.files.Rooted → h₂.files.Rooted :=
    ((Store.keeps_prepare (f := Store.Frame.all) Store.allowsPlain_all.store).yields hstore hp₁).2.rooted ∘ (he₁ hp).2.rooted
  have hrooted₃ : w.host.files.Rooted → w₁.host.files.Rooted :=
    (((keeps_job hk Store.allowsClearing_all Store.allowsPlain_all).yields hjob hs).1.host hp).2.rooted
  have hkey := r.isDigest_key j
  rcases hor with ⟨-, w₂, w₃, hhit, hwrite, hregister⟩ | ⟨-, w₂, w₃, hmiss, hmade, hregister⟩
  · obtain ⟨hget, himage, halike'⟩ := hit_of_cached? hk hs₁ hhit
    obtain ⟨h₅, hresult, rfl⟩ := (yields_onHost ..).1 hwrite
    obtain ⟨-, rfl⟩ := yields_register.1 hregister
    rw [hsettles.directory, halike'.host] at hresult
    obtain ⟨hnoted, hd₅, hsame⟩ := evolves_writeResult (S := s.place w₁.host.directory) hresult
    have hs₂ := halike'.uses s hs₁
    obtain ⟨-, data, hread, hback⟩ := Store.yields_getResult.1 hget
    have hread' := (Store.leads_resultPath hkey).read_anywhere hp₃ hd₅ hnoted (hsame _ hkey) hread
    refine ⟨j, w₁, h₁, h₂, w₁.host, h₅, hjob, ⟨hprepare, hstore, hsettles, hplan, .done _, hdirectory, hresult,
      Std.Refl.refl _, Store.yields_getResult.2 ⟨rfl, data, hread', hback⟩, ?_, ?_,
      fun hr => ⟨hrooted₂ hr, hrooted₃ hr⟩⟩, ⟨hs₂.store_eq, hs₂.backends⟩, halike'.settings.trans halike.settings⟩
    · exact hasImage_anywhere hs₁ ⟨hs₂.store_eq, hs₂.backends⟩ hp₃ hid halike'.mockImage hd₅ hnoted himage
    · exact (halike'.userOf r.backend).trans (halike.userOf r.backend)
  · obtain ⟨hevolves, halike'⟩ := evolves_cached?_none hk hs₁ hkey hmiss
    obtain ⟨w₄, w₅, hmake, hwrite, hput⟩ := yields_materializeStrictly.1 hmade
    obtain ⟨h₅, hresult, rfl⟩ := (yields_onHost ..).1 hwrite
    obtain ⟨h₆, hcache, rfl⟩ := (yields_onHost ..).1 hput
    obtain ⟨-, rfl⟩ := yields_register.1 hregister
    have hs₂ : w₂.Uses s := halike'.uses s ⟨hs₁.store_eq, hs₁.backends⟩
    obtain ⟨hsame, hchanges⟩ := hevolves hp₃
    have hready₃ : r.backend = .direct → s.Ready w₂.host := fun hdirect =>
      Store.Ready.evolves (hsettles.mirror.eq_of_direct hdirect ▸ hready₂) hp₃ hevolves
    obtain ⟨hwrites, hd₄, huser, himage⟩ := writes_makeImage hk hs₂ hready₃ (hp₃.evolves hevolves) hsettles.directory hmake
    have hworks := (keeps_makeImage hk Store.allowsPlain_all (Store.allowsImages_all _) j).yields hmake hs₂
    have hs₄ := hworks.uses
    have hp₄ := (hp₃.evolves hevolves).anywhere hd₄ hwrites.anywhere
    rw [hsettles.directory] at hresult
    obtain ⟨hnoted, hd₅, -⟩ := evolves_writeResult (S := s.place w₄.host.directory) hresult
    have hp₅ := hp₄.anywhere hd₅ hnoted
    rw [hs₄.store_eq] at hcache
    have hkept : s.Evolves (Frame.within Contents) h₅ h₆ :=
      (Store.keeps_putResult hkey fun S => Store.contents_cacheNames S _).yields hcache
    obtain ⟨hd₆, -, hread⟩ := (Store.leads_resultPath hkey).evolves_write (Store.contents_cacheNames _ _) hp₅
      ((yields_onFiles ..).1 hcache)
    rw [hsame.directory, hdirectory] at hwrites
    refine ⟨j, w₁, h₁, h₂, w₄.host, h₅, hjob, ⟨hprepare, hstore, hsettles, hplan, .store ?_ hwrites, ?_, hresult, hkept,
      Store.yields_getResult.2 ⟨rfl, _, hread, BuildResult.readBack?_written_of_real hreal⟩, ?_, ?_,
      fun hr => ⟨hrooted₂ hr, (hworks.host (hp₃.evolves hevolves)).2.rooted (hchanges.rooted (hrooted₃ hr))⟩⟩,
      ⟨hs₄.store_eq, hs₄.backends⟩, ?_⟩
    · rw [← hdirectory]
      exact hchanges.files
    · rw [hd₄, hsame.directory, hdirectory]
    · refine hasImage_anywhere hs₄ ⟨hs₄.store_eq, hs₄.backends⟩ hp₄ hid rfl (hd₆.trans hd₅) ?_ himage
      refine hnoted.trans ?_
      rw [← hd₅]
      exact Store.anywhere_of_within (hkept hp₅).2.files
    · exact huser.trans ((halike'.userOf r.backend).trans (halike.userOf r.backend))
    · exact hworks.settings.trans (halike'.settings.trans halike.settings)

end Recipe

/-- The ids of images, cached or not, have no slashes. -/
theorem History.slash_notMem {s : Store} {calls : List BuildCall} {w : Workshop} {c : BuildCall}
    (h : History s (c :: calls) w) {o : Outcome} (ho : c.outcome = .ok o) : '/' ∉ o.result.imageId.toList := by
  obtain ⟨j, w₁, -, -, m, y, ⟨j', -, w₂, w₃, w₄, hjob, hmiss, hmake⟩, hid, hor⟩ := h.outcome_made ho
  have hm : m ∈ c :: calls := by
    rcases hor with ⟨-, hm⟩ | ⟨-, rfl⟩
    · exact List.mem_cons_of_mem _ hm
    · exact List.mem_cons_self
  have hk := h.ne_daemon hm
  have huses := ((Recipe.keeps_job hk Store.allowsClearing_all Store.allowsPlain_all).yields hjob (h.usable hm).1).1.uses
  have huses' := ((Recipe.keeps_cached? (f := Store.Frame.all) hk (m.recipe.isDigest_key j') fun _ => trivial).yields
    hmiss huses).1.uses
  rw [hid]
  exact Recipe.slash_notMem_makeImage hk huses' hmake

end ImageRecipe
