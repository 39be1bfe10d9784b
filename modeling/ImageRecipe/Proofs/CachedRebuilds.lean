import ImageRecipe.Proofs.MockImages
import ImageRecipe.Proofs.RepeatedBuilds

/-! Builds of one recipe in a row. What a build came to is what the next one finds in the cache, if nothing changed
between them and the first one left alone what the second reads. What it left alone can be computed for a given run, and
runs in which it did not are followed by builds that miss the cache. -/

namespace ImageRecipe

open Store (Frame.anywhere)
open WorkDirectory (again remade)
open Workshop

/-- A workshop in which nothing changed that a backend other than the daemon can tell, but for the session and the
time. -/
structure Workshop.Unchanged (s : Store) (w v : Workshop) : Prop where
  uses : v.Uses s
  settings : v.settings = w.settings
  files : v.host.files = w.host.files
  directory : v.host.directory = w.host.directory
  mockImage : v.mockImage? = w.mockImage?
  mockUser : v.mockUser = w.mockUser

/-- What an action yields, and the state that it leaves. -/
def yielded {ε σ α : Type} (x : ExceptT ε (StateM σ) α) (s : σ) : Option (α × σ) :=
  match ran x s with
  | (.ok a, s') => some (a, s')
  | (.error _, _) => none

theorem yielded_eq_some {ε σ α : Type} {x : ExceptT ε (StateM σ) α} {s : σ} {y : α × σ} :
    yielded x s = some y ↔ Yields x s y.1 y.2 := by
  unfold yielded Yields
  rcases ran x s with ⟨e | a, s'⟩
  · simp
  · simp [Prod.ext_iff]

/-- Where a link leads. -/
def Entry.link? : Entry → Option RawPath
  | .link target => some target
  | _ => none

theorem Entry.link?_eq_some {e : Entry} {target : RawPath} : e.link? = some target ↔ e = .link target := by
  cases e <;> simp [link?]

/-- What is no directory is an entry of its own. -/
theorem FileTree.entry?_eq_some {t : FileTree} {l : Location} {e : Entry} (he : e.isDirectory = false) :
    t.entry? l = some e ↔ l ≠ [] ∧ (l, e) ∈ t.entries.entries := by
  rw [SortedMap.mem_entries_iff]
  cases l with
  | nil =>
    refine ⟨fun h => ?_, fun h => absurd rfl h.1⟩
    rw [entry?_root, Option.some.injEq] at h
    rw [← h] at he
    cases he
  | cons n l =>
    unfold entry?
    simp

theorem toOption_eq_some {ε α : Type} {x : Except ε α} {a : α} : x.toOption = some a ↔ x = .ok a := by
  cases x <;> simp [Except.toOption]

namespace Workshop.Unchanged

variable {s : Store} {w v : Workshop}

theorem userOf (h : Unchanged s w v) (k : BackendKind) : v.userOf k = w.userOf k := by
  cases k with
  | mock => exact h.mockUser
  | daemon | direct => rfl

end Workshop.Unchanged

/-- A path leads aside from what a build wrote if it leads to one place before and after, which is apart from the store
and holds nothing that the build wrote elsewhere. -/
theorem FileTree.aside_touched_iff {s : Store} {h : Host} {paths : List String} {t t' : FileTree} {d : Location}
    {path : String} : Aside (Touched s h paths) t t' d path ↔ ∀ l ∈ (t'.resolve true d path).toOption,
      (t.resolve true d path).toOption = some l ∧ ¬ s.place h.directory <+: l ∧ ¬ l <+: s.place h.directory ∧
        ∀ p ∈ paths, ∀ q ∈ (h.files.resolve false h.directory p).toOption, ¬ l <+: q := by
  simp only [Option.mem_def, toOption_eq_some]
  refine forall₂_congr fun l _ => and_congr_right fun _ => ⟨fun hapart => ⟨?_, ?_, ?_⟩, ?_⟩
  · exact fun hpre => hapart l List.prefix_rfl (.inl hpre)
  · exact fun hpre => hapart _ hpre (.inl List.prefix_rfl)
  · exact fun p hp q hq hpre => hapart q hpre (.inr ⟨p, hp, hq⟩)
  · rintro ⟨habove, hbelow, hpaths⟩ q hq (hstore | ⟨p, hp, hpq⟩)
    · exact (List.prefix_or_prefix_of_prefix hq hstore).elim hbelow habove
    · exact hpaths p hp q hpq hq

instance {s : Store} {h : Host} {paths : List String} {t t' : FileTree} {d : Location} {path : String} :
    Decidable (FileTree.Aside (Touched s h paths) t t' d path) := decidable_of_iff _ FileTree.aside_touched_iff.symm

namespace WorkDirectory

variable {d : WorkDirectory} {s : Store} {h h' : Host}

/-- Neither the store nor another directory of the work directory is among the repository definitions that are cleared
away. -/
def ClearsApart (d : WorkDirectory) (s : Store) (h : Host) : Prop :=
  ∀ g P, Yields d.makeRooms h () g → g.files.resolve false g.directory d.repositories = .ok P →
    (∀ path ∈ d.rooms, (g.files.eraseBelow P).isDirectory g.directory path = true) ∧ ¬ P <+: s.place g.directory

theorem clearsApart_iff : d.ClearsApart s h ↔ ∀ g ∈ yielded d.makeRooms h,
    ∀ P ∈ (g.2.files.resolve false g.2.directory d.repositories).toOption,
      (∀ path ∈ d.rooms, (g.2.files.eraseBelow P).isDirectory g.2.directory path = true) ∧
        ¬ P <+: s.place g.2.directory := by
  simp only [Option.mem_def, toOption_eq_some, yielded_eq_some]
  exact ⟨fun hd g hg P hP => hd g.2 P hg hP, fun hd g P hg hP => hd ((), g) hg P hP⟩

instance : Decidable (d.ClearsApart s h) := decidable_of_iff _ clearsApart_iff.symm

theorem ClearsApart.exists_cleared (hd : d.ClearsApart s h) (hr : h.files.Rooted) (hy : Yields d.prepare h () h') :
    ∃ u P, d.Cleared h.directory u P ∧ h'.files = remade u P ∧ ¬ P <+: s.place h.directory := by
  obtain ⟨g, P, hrooms, hdirectory, hP, hcleared⟩ := yields_prepare hr hy
  obtain ⟨hkept, hstore⟩ := hd g P hrooms hP
  obtain ⟨hu, rfl⟩ := hcleared hkept
  exact ⟨_, P, hdirectory ▸ hu, rfl, hdirectory ▸ hstore⟩

end WorkDirectory

namespace Recipe

variable {r : Recipe} {s : Store} {w w₁ w' v : Workshop} {o : Outcome} {j : Job}

/-- Neither generated files nor the store are in the layers that are copied and in the mounts that are visible. -/
def SourcesAside (r : Recipe) (s : Store) (w w₁ w' : Workshop) (j : Job) : Prop :=
  ∀ e ∈ BuildContext.placesOf j.directory j.instructions j.plan,
    FileTree.Aside (Touched s w'.host r.generatedPaths) w₁.host.files w'.host.files w.host.directory e.2

instance : Decidable (r.SourcesAside s w w₁ w' j) :=
  inferInstanceAs (Decidable (∀ e ∈ BuildContext.placesOf j.directory j.instructions j.plan,
    FileTree.Aside (Touched s w'.host r.generatedPaths) w₁.host.files w'.host.files w.host.directory e.2))

/-- No link gave way to a file since the work directory was got ready. -/
def KeepsLinks (r : Recipe) (w w' : Workshop) : Prop :=
  ∀ h, Yields (⟨r.workDirectory⟩ : WorkDirectory).prepare w.host () h →
    ∀ l target, h.files.entry? l = some (.link target) → w'.host.files.entry? l = some (.link target)

theorem keepsLinks_iff : r.KeepsLinks w w' ↔
    ∀ g ∈ yielded (⟨r.workDirectory⟩ : WorkDirectory).prepare w.host, ∀ e ∈ g.2.files.entries.entries,
      e.1 ≠ [] → ∀ target ∈ e.2.link?, w'.host.files.entry? e.1 = some (.link target) := by
  simp only [Option.mem_def, yielded_eq_some, Entry.link?_eq_some]
  constructor
  · rintro hl g hg ⟨l, _⟩ he hroot target rfl
    exact hl g.2 hg l target ((FileTree.entry?_eq_some rfl).2 ⟨hroot, he⟩)
  · intro hl h hh l target hlink
    obtain ⟨hroot, he⟩ := (FileTree.entry?_eq_some rfl).1 hlink
    exact hl ((), h) hh (l, .link target) he hroot target rfl

instance : Decidable (r.KeepsLinks w w') := decidable_of_iff _ keepsLinks_iff.symm

/-- A build left alone what the next one reads, from the time on that it had settled on its job. -/
structure LeavesAlone (r : Recipe) (s : Store) (w w₁ w' : Workshop) (j : Job) : Prop where
  cleared : (⟨r.workDirectory⟩ : WorkDirectory).ClearsApart s w.host
  links : r.KeepsLinks w w'
  lockfile : FileTree.Aside (Touched s w'.host (r.writtenPaths w.settings)) w₁.host.files w'.host.files w.host.directory
    r.lockfile
  sources : r.SourcesAside s w w₁ w' j

instance : Decidable (r.LeavesAlone s w w₁ w' j) :=
  decidable_of_iff ((⟨r.workDirectory⟩ : WorkDirectory).ClearsApart s w.host ∧ r.KeepsLinks w w' ∧
      FileTree.Aside (Touched s w'.host (r.writtenPaths w.settings)) w₁.host.files w'.host.files w.host.directory
        r.lockfile ∧ r.SourcesAside s w w₁ w' j)
    ⟨fun ⟨hcleared, hlinks, hlock, hsources⟩ => ⟨hcleared, hlinks, hlock, hsources⟩,
      fun h => ⟨h.cleared, h.links, h.lockfile, h.sources⟩⟩

namespace Stages

variable {h₁ h₂ h₃ h₄ h₅ g : Host} {u : FileTree} {P : Location} {f : Option (Location × ByteArray)}

theorem exists_aftermath (hst : r.Stages s w w' o j h₁ h₂ w₁.host h₄ h₅) (hp : s.Plain w.host)
    (hr : w.host.files.Rooted) (hl : r.LeavesAlone s w w₁ w' j) :
    ∃ u P, Aftermath ⟨r.workDirectory⟩ s (r.writtenPaths w.settings) u P h₂ w'.host := by
  obtain ⟨u, P, hcleared, hfiles, hstore⟩ := hl.cleared.exists_cleared hr hst.cleared
  refine ⟨u, P, hst.aftermath hp hr hcleared hfiles hstore fun l target hlink => ?_⟩
  refine hl.links h₁ hst.cleared l target ?_
  have hne : l ≠ P := by
    rintro rfl
    simp [hcleared.empty l List.prefix_rfl] at hlink
  rw [hfiles, WorkDirectory.entry?_remade_of_ne hne, hlink]

section Again

variable (hst : r.Stages s w w' o j h₁ h₂ h₃ h₄ h₅)
  (ha : Aftermath ⟨r.workDirectory⟩ s (r.writtenPaths w.settings) u P h₂ w'.host)
  (hf : (again u w'.host.files P).Takes f) (hg : g.files = (again u w'.host.files P).withFile f)
  (hd : g.directory = h₂.directory)
include hst ha hf hg hd

/-- The cache has the result of the build. -/
theorem getResult_again
    (hapart : ∀ x ∈ f, ∀ key, IsDigest key → x.1 ≠ s.place h₂.directory ++ Store.cacheNames key) :
    Yields (s.getResult (r.key j)) g (some o.result) g := by
  have hkey := r.isDigest_key j
  obtain ⟨-, data, hread, hback⟩ := Store.yields_getResult.1 hst.cache
  refine Store.yields_getResult.2 ⟨rfl, data, ?_, hback⟩
  exact ha.read_again (s.leads_resultPath hkey) (Store.repositoriesName_notMem_cacheNames hkey) hf
    (fun x hx => (hapart x hx _ hkey).symm) hg hd hread

/-- The backend has the image of the build. -/
theorem hasImage_again (hs : w'.Uses s) (hid : '/' ∉ o.result.imageId.toList) (hv : v.Uses s) (hhost : v.host = g)
    (hmock : v.mockImage? = w'.mockImage?) : v.HasImage o.result.imageId r.backend := by
  have himage := hst.image
  cases hk : r.backend with
  | daemon => rw [hk] at himage; exact himage
  | mock =>
    rw [hk] at himage
    simpa only [HasImage, hmock] using himage
  | direct =>
    rw [hk] at himage
    obtain ⟨n, hn, hleads⟩ := s.leads_recordPath_of_slash hid
    have himages : Store.repositoriesName ∉ Store.imageNames := by decide +kernel
    simp only [HasImage, hs.store_eq, hv.store_eq, hhost] at himage ⊢
    exact ha.pathExists_again hleads (by simp [himages, hn.symm]) hf hg hd himage

/-- The result is written where it was written before. -/
theorem exists_writeResult_again (hp : s.Plain w.host) (hr : w.host.files.Rooted) :
    ∃ h, Yields ((⟨r.workDirectory⟩ : WorkDirectory).writeResult o.result) g () h := by
  obtain ⟨⟨hmirror, hmade, hnoted, hkept⟩, -⟩ := hst.writes hp
  obtain ⟨hd₂, -, -⟩ := hst.directory_settled hp
  have hbefore := hmirror.anywhere.trans hmade.anywhere
  obtain ⟨l, rfl, -, -, htakes, hagain⟩ := ha.exists_file hbefore (hst.directory.trans hd₂.symm) (hst.rooted hr).2
    (avoidedBy_generatedPaths r.resultFile_mem_generatedPaths) ((yields_onFiles ..).1 hst.noted) hkept.anywhere
  have hcarries := (ha.carries_of hbefore (hnoted.anywhere.trans hkept.anywhere)).2
  refine ⟨_, (yields_onFiles ..).2 (hagain g (hg ▸ hcarries.trans hf.carries) hd ?_)⟩
  rw [hg]
  exact FileTree.noDirectory_withFile (htakes _ rfl).1

end Again

end Stages

/-- What a build came to is found in the cache by the next one, however it would make an image. -/
theorem exists_rebuild (hk : r.backend ≠ .daemon) (hs : w.Uses s) (hp : s.Plain w.host) (hr : w.host.files.Rooted)
    (hid : '/' ∉ o.result.imageId.toList) (hreal : o.result.createdAt.Real)
    (hy : Yields (r.buildWith r.materializeStrictly) w o w') (hjob : Yields r.job w j w₁)
    (hl : r.LeavesAlone s w w₁ w' j) (hv : Unchanged s w' v)
    (hbases : v.session.resolveBases r.instructions = w.session.resolveBases r.instructions)
    (hproject : v.session.resolve? r.project = none) :
    ∃ v', ∀ make, Yields (r.buildWith make) v ⟨o.result, o.planHash, true⟩ v' := by
  obtain ⟨j', w₁', h₁, h₂, h₄, h₅, hjob', hst, huses', hsettings'⟩ := exists_stages hk hs hp hid hreal hy
  obtain ⟨rfl, rfl⟩ := hjob.unique hjob'
  obtain ⟨u, P, ha⟩ := hst.exists_aftermath hp hr hl
  obtain ⟨hd₂, -, -⟩ := hst.directory_settled hp
  have hdv : v.host.directory = h₂.directory := hv.directory.trans ha.directory
  let g : Host := { v.host with files := again u w'.host.files P }
  -- the work directory and the store are got ready, and the recipe settles on its job
  obtain ⟨hprepare, hstore⟩ := ha.yields_getReady hv.files hdv
  have hready : Yields r.getReady v () { v with host := g } :=
    (yields_getReady hv.uses).2 ⟨g, g, hprepare, hstore, rfl⟩
  obtain ⟨f, hf, hapart, hsettles⟩ := hst.exists_settlesOn (g := g) (v := v) hp ha (hd₂.symm ▸ hl.lockfile)
    (hd₂.symm ▸ hl.sources) rfl hdv (hv.settings.trans hsettings') hbases ((hv.userOf _).trans hst.user)
  obtain ⟨v₁, hsettle, halike⟩ := hsettles.yields hk
  have hjobv : Yields r.job v j v₁ := job_eq r ▸ (yields_bind ..).2 ⟨(), _, hready, hsettle⟩
  -- the result is found in the cache, and written once more
  have huses : v₁.Uses s := halike.uses s ⟨hv.uses.store_eq, hv.uses.backends⟩
  have hhost : v₁.host = { g with files := g.files.withFile f } := halike.host
  have hget := hst.getResult_again ha hf (g := v₁.host) (by rw [hhost]) (by rw [hhost]; exact hdv) hapart
  have himage := hst.hasImage_again ha hf (g := v₁.host) (by rw [hhost]) (by rw [hhost]; exact hdv) huses' hid huses rfl
    (halike.mockImage.trans hv.mockImage)
  obtain ⟨v₂, hhit, halike₂⟩ := exists_cached? hk huses hget himage
  obtain ⟨h, hwrite⟩ := hst.exists_writeResult_again ha hf (g := v₂.host) (by rw [halike₂.host, hhost])
    (by rw [halike₂.host, hhost]; exact hdv) hp hr
  have hsession : v₂.session = v.session := halike₂.session.trans halike.session
  refine ⟨{ v₂ with host := h, session := ⟨v₂.session.results.insert r.project o.result⟩ }, fun make => ?_⟩
  rw [hst.planHash]
  have hwritten : Yields (onHost .store (j.directory.writeResult o.result)) v₂ () { v₂ with host := h } := by
    rw [hst.settled.directory]
    exact (yields_onHost ..).2 ⟨h, hwrite, rfl⟩
  exact yields_buildWith_of_hit hjobv hhit hwritten (yields_register.2 ⟨by rw [hsession, hproject], rfl⟩)

end Recipe

namespace Recipe

variable {r : Recipe} {key : String} {w w₁ w' : Workshop} {j : Job}

/-- Make an image and note the result under a key that is known beforehand; it is a failure too if the cache cannot be
written. -/
def materializeUnder (r : Recipe) (key : String) (j : Job) : BuildM BuildResult := do
  let result ← r.makeImage j
  onHost .store (j.directory.writeResult result)
  let store := (← get).store
  onHost .store (store.putResult key result)
  pure result

/-- What is left of a build once it has settled on a job. -/
def finishUnder (r : Recipe) (key : String) (j : Job) : BuildM Outcome := do
  match ← r.cached? key with
  | some hit =>
    onHost .store (j.directory.writeResult hit)
    register r.project hit
    pure ⟨hit, j.plan.contentHash, true⟩
  | none =>
    let result ← r.materializeUnder key j
    register r.project result
    pure ⟨result, j.plan.contentHash, false⟩

/-- A build in which nothing fails, under a key: its job, the workshop when it has settled on it, and the workshop
afterwards. -/
def runStrictly? (r : Recipe) (key : String) (w : Workshop) : Option (Job × Workshop × Workshop) := do
  let settled ← yielded r.job w
  let finished ← yielded (r.finishUnder key settled.1) settled.2
  pure (settled.1, settled.2, finished.2)

theorem yields_of_runStrictly? (h : r.runStrictly? key w = some (j, w₁, w')) (hkey : r.key j = key) :
    Yields r.job w j w₁ ∧ ∃ o, Yields (r.buildWith r.materializeStrictly) w o w' := by
  obtain ⟨settled, hjob, h⟩ := Option.bind_eq_some_iff.1 h
  obtain ⟨finished, hfinish, h⟩ := Option.bind_eq_some_iff.1 h
  cases h
  subst hkey
  have hjob := yielded_eq_some.1 hjob
  exact ⟨hjob, finished.1, (yields_bind ..).2 ⟨_, _, hjob, yielded_eq_some.1 hfinish⟩⟩

/-- The build after another one, in a new session, as far as the cache: its plan and the digest of its context, and
whether the cache has a key; nothing if it does not settle on a job. -/
def next (r : Recipe) (key : String) (w : Workshop) : Option (Plan × String × Option Bool) :=
  (yielded r.job { w with session := .empty }).map fun settled =>
    (settled.1.plan, settled.1.context, (yielded (r.cached? key) settled.2).map fun found => found.1.isSome)

/-- A build in which nothing fails, and which leaves the sources of the context alone, but after which the next build of
the recipe, in a new session, does not find the image in the cache, although nothing else changed. -/
def Forgets (r : Recipe) (s : Store) (w : Workshop) : Prop :=
  ∃ o j w₁ w' v, History s [⟨r, w⟩] w' ∧ Yields (r.buildWith r.materializeStrictly) w o w' ∧ Yields r.job w j w₁ ∧
    r.SourcesAside s w w₁ w' j ∧ Unchanged s w' v ∧ v.session = .empty ∧
      ∀ v', ¬ Yields r.build v ⟨o.result, o.planHash, true⟩ v'

end Recipe

/-- A first build, in a workshop in which the store has no results. -/
theorem History.first {r : Recipe} {s : Store} {w w' : Workshop} {o : Outcome} (hk : r.backend ≠ .daemon)
    (hs : w.Uses s) (hp : s.Plain w.host) (hempty : ∀ key, s.result? w.host key = none) (hy : Yields r.build w o w') :
    History s [⟨r, w⟩] w' := by
  have hafter : (⟨r, w⟩ : BuildCall).after = w' := congrArg Prod.snd hy
  rw [← hafter]
  exact .call (.start hs hp hempty) ⟨hs, rfl, rfl, hp, rfl, fun _ => .inl rfl⟩ hk

/-- A build uses the store that it began with. -/
theorem History.uses {s : Store} {r : Recipe} {w w' : Workshop} (h : History s [⟨r, w⟩] w') : w'.Uses s := by
  cases h with
  | call _ hmeanwhile hk => exact (BuildCall.evolves hk hmeanwhile.uses).uses

theorem Workshop.Unchanged.newSession {s : Store} {w : Workshop} (hs : w.Uses s) :
    Unchanged s w { w with session := .empty } :=
  ⟨⟨hs.store_eq, hs.backends⟩, rfl, rfl, rfl, rfl, rfl⟩

namespace Sample

variable {r : Recipe} {s : Store} {w : Workshop} {p : Plan} {context hash key key' : String}

/-- A build is run under its key. -/
theorem exists_run {P : Recipe.Job × Workshop × Workshop → Prop} [DecidablePred P]
    (hleads : LeadsToKey p context hash r key)
    (hrun : (r.runStrictly? key w).any (fun x => decide (x.1.plan = p ∧ x.1.context = context ∧ P x)) = true) :
    ∃ o j w₁ w', Yields r.job w j w₁ ∧ Yields (r.buildWith r.materializeStrictly) w o w' ∧ P (j, w₁, w') := by
  obtain ⟨⟨j, w₁, w'⟩, hsome, hx⟩ := (Option.any_eq_true ..).1 hrun
  obtain ⟨hplan, hcontext, hP⟩ := of_decide_eq_true hx
  have hkey : r.key j = key := by
    unfold Recipe.key
    rw [hplan, hcontext, hleads.plan, hleads.key]
  obtain ⟨hjob, o, hy⟩ := Recipe.yields_of_runStrictly? hsome hkey
  exact ⟨o, j, w₁, w', hjob, hy, hP⟩

/-- A tree of directories, links and files with their places. -/
def tree (l : List (List String × Entry)) : FileTree :=
  l.foldl (fun t e => t.put (Location.ofTexts e.1) e.2) FileTree.empty

/-- A recipe whose lockfile is a file that its build leaves. -/
def selfLocked : Recipe := { recipe .mock .x86 with lockfile := "/w/.dockerignore" }

/-- A recipe with a layer. -/
def layered : Recipe := { recipe .mock .x86 with instructions := [.base "i" "v" none, .copy 0 none] }

def layeredPlan : Plan :=
  .daemon ⟨["FROM i:v", "COPY context/layer0 /"], SortedMap.ofList [("docker", "ephemeral/docker")]⟩

theorem LeadsToKey.of_tag {r' : Recipe} (h : LeadsToKey p context hash r key) (htag : r'.tag = r.tag) :
    LeadsToKey p context hash r' key := ⟨h.plan, htag ▸ h.key⟩

/-- A workshop whose store is among the repository definitions. -/
def storeInDefinitions : Workshop := { workshop with store := ⟨"/w/ephemeral/repos/s"⟩ }

/-- A workshop with the directory of layers among the repository definitions. -/
def layersInDefinitions : Workshop :=
  { workshop with host := { files := tree [
      (["w"], .directory directoryMode), (["w", "ephemeral"], .directory directoryMode),
      (["w", "ephemeral", "repos"], .directory directoryMode),
      (["w", "ephemeral", "repos", "c"], .directory directoryMode),
      (["w", "context"], .link (RawPath.ofText "ephemeral/repos/c"))] } }

/-- A workshop in which a layer is behind a link that gives way to the result of the build. -/
def layerBehindResult : Workshop :=
  { workshop with host := { files := tree [
      (["d"], .directory directoryMode), (["d", "f"], .file writtenMode .empty), (["w"], .directory directoryMode),
      (["w", "context"], .directory directoryMode),
      (["w", "context", "layer0"], .link (RawPath.ofText "../image-build.json/f")),
      (["w", "image-build.json"], .link (RawPath.ofText "/d"))] } }

def layeredHash : String := "2ef2f0bdb512edeb568efb2cc084844f5bcd8bf375d1346d0fa42e154009caa0"

/-- The digest of the context with the layer. -/
def layerContext : String := "8d33de18df99155a2f5f808f6057f9c372c4a73f037bb77f6b131bfee2f6b5e5"

/-- The digest of the context without it. -/
def noLayerContext : String := "27c6aca2d0e6d3b433f083f0e844680bca411084e448d36acb4e218180f156ff"

def layerKey : String := "c59f0cd1edb6d1c48616799e10181d6f691f585a03830181273e5759911c192c"

def noLayerKey : String := "704b4912d5e8fade7af0f305deeb991c6f6792977e2930c1d9efecf43015f71b"

/-- There is no link on the way to a store, and nothing in it. -/
theorem unstocked {h : Host} (hstays : Path.StaysBelow s.root)
    (hentries : ∀ e ∈ h.files.entries.entries, ¬ s.place h.directory <+: e.1 ∧
      (e.1 <+: s.place h.directory → e.2.link? = none)) : s.Plain h ∧ ∀ key, s.result? h key = none := by
  refine ⟨⟨hstays, fun l hl target hlink => ?_⟩, fun key => ?_⟩
  · obtain ⟨habove, hway⟩ := hentries _ ((FileTree.entry?_eq_some rfl).1 hlink).2
    rcases hl with hl | hl
    · cases hway hl
    · exact habove hl
  · unfold Store.result?
    rw [Option.bind_eq_none_iff]
    intro data hdata
    obtain ⟨mode, hfile⟩ := FileTree.content?_eq_some.1 hdata
    exact absurd (List.prefix_append ..) (hentries _ ((FileTree.entry?_eq_some rfl).1 hfile).2).1

/-- A run under its key has a plan and a digest of its context, it leaves the sources of the context alone, and the
build after it gets as far as is said. -/
def runsInto (r : Recipe) (w : Workshop) (key : String) (p : Plan) (context key' : String)
    (n : Option (Plan × String × Option Bool)) : Bool :=
  (r.runStrictly? key w).any fun x => decide (x.1.plan = p ∧ x.1.context = context ∧
    r.SourcesAside w.store w x.2.1 x.2.2 x.1 ∧ r.next key' x.2.2 = n)

theorem forgets {n : Option (Plan × String × Option Bool)} (hk : r.backend ≠ .daemon) (hbackends : w.backends = [])
    (hstore : w.store.Plain w.host ∧ ∀ key, w.store.result? w.host key = none)
    (hleads : LeadsToKey p context hash r key) (hrun : runsInto r w key p context key' n = true)
    (hnext : ∀ p' context' found, n = some (p', context', found) →
      found = some false ∧ ∃ hash', LeadsToKey p' context' hash' r key') : r.Forgets w.store w := by
  obtain ⟨o, j, w₁, w', hjob, hy, hsources, hn⟩ := exists_run hleads hrun
  have h : History w.store [⟨r, w⟩] w' :=
    .first hk ⟨rfl, by simp [hbackends]⟩ hstore.1 hstore.2 (Recipe.yields_build_of_strictly hy)
  refine ⟨o, j, w₁, w', _, h, hy, hjob, hsources, .newSession h.uses, rfl, fun v' hagain => ?_⟩
  obtain ⟨j', v₁, hjob', -, ⟨-, v₂, -, hhit, -⟩ | ⟨hcached, -⟩⟩ := Recipe.yields_build hagain
  · -- the next build settles on a job, and the cache has its key
    have hsettled : yielded r.job { w' with session := .empty } = some (j', v₁) := yielded_eq_some.2 hjob'
    unfold Recipe.next at hn
    rw [hsettled, Option.map_some] at hn
    obtain ⟨hfound, hash', hleads'⟩ := hnext _ _ _ hn.symm
    have hkey : r.key j' = key' := by
      unfold Recipe.key
      rw [hleads'.plan, hleads'.key]
    rw [hkey] at hhit
    have hcache : yielded (r.cached? key') v₁ = some (some o.result, v₂) := yielded_eq_some.2 hhit
    rw [hcache] at hfound
    cases hfound
  · cases hcached

/-- The runs of the samples. They are in one theorem for the memory's sake, as above. -/
theorem runs_samples :
    (((recipe .mock .x86).runStrictly? mockKey workshop).any fun x =>
      decide (x.1.plan = onePlan "FROM i:v" ∧ x.1.context = noContext ∧
        (recipe .mock .x86).LeavesAlone store workshop x.2.1 x.2.2 x.1)) = true ∧
      runsInto selfLocked workshop mockKey (onePlan "FROM i:v") noContext mockKey none = true ∧
      runsInto (recipe .mock .x86) storeInDefinitions mockKey (onePlan "FROM i:v") noContext mockKey
        (some (onePlan "FROM i:v", noContext, some false)) = true ∧
      runsInto (recipe .mock .x86) layersInDefinitions mockKey (onePlan "FROM i:v") noContext mockKey none = true ∧
      runsInto layered layerBehindResult layerKey layeredPlan layerContext noLayerKey
        (some (layeredPlan, noLayerContext, some false)) = true ∧
      LeadsToKey layeredPlan layerContext layeredHash layered layerKey ∧
      LeadsToKey layeredPlan noLayerContext layeredHash layered noLayerKey :=
  have hplan : layeredPlan.contentHash = layeredHash := by decide +kernel
  ⟨by decide +kernel, by decide +kernel, by decide +kernel, by decide +kernel, by decide +kernel,
    ⟨hplan, by decide +kernel⟩, ⟨hplan, by decide +kernel⟩⟩

end Sample

end ImageRecipe
