import ImageRecipe.Proofs.Identifiers
import ImageRecipe.Proofs.LockfileWrites
import ImageRecipe.Proofs.RepeatedPreparations
import ImageRecipe.Proofs.SavedSettings

/-! Stores of another format. A build finds the version of the store before it comes to a backend and ends there, and
what else is asked of a workshop leaves the files as they are; but a tag is removed from the store all the same. -/

namespace ImageRecipe

open Workshop

namespace FileTree

variable {K : Location → Prop} {t t' t'' : FileTree} {d l : Location} {path : String}

/-- Outside of some places a tree has what another one has, and at most directories besides. -/
def KeepsEntries (K : Location → Prop) (t t' : FileTree) : Prop :=
  ∀ l, ¬ K l → t'.entry? l = t.entry? l ∨ t.entry? l = none ∧ ∃ mode, t'.entry? l = some (.directory mode)

theorem KeepsEntries.refl (t : FileTree) : KeepsEntries K t t := fun _ _ => .inl rfl

theorem KeepsEntries.trans (h : KeepsEntries K t t') (h' : KeepsEntries K t' t'') : KeepsEntries K t t'' := by
  intro l hl
  rcases h l hl with heq | ⟨hnone, mode, hmade⟩
  · rw [← heq]
    exact h' l hl
  · rcases h' l hl with heq' | ⟨hnone', -⟩
    · exact .inr ⟨hnone, mode, heq'.trans hmade⟩
    · rw [hmade] at hnone'
      cases hnone'

/-- What was there outside of the places is there still. -/
theorem KeepsEntries.entry?_eq (h : KeepsEntries K t t') (hl : ¬ K l) {e : Entry} (he : t.entry? l = some e) :
    t'.entry? l = some e := by
  rcases h l hl with heq | ⟨hnone, -⟩
  · rw [heq, he]
  · rw [he] at hnone
    cases hnone

theorem keepsEntries_of_eq (h : ∀ l, ¬ K l → t'.entry? l = t.entry? l) : KeepsEntries K t t' :=
  fun l hl => .inl (h l hl)

theorem GainsDirectories.keepsEntries (h : GainsDirectories t t') : KeepsEntries K t t' := fun l _ =>
  (h l).imp_right fun ⟨hnone, hmade, _⟩ => ⟨hnone, _, hmade⟩

theorem keepsEntries_put (hl : K l) (e : Entry) : KeepsEntries K t (t.put l e) :=
  keepsEntries_of_eq fun l' hl' => t.entry?_put_of_ne (fun heq : l' = l => hl' (heq ▸ hl)) e

theorem keepsEntries_erase (hl : K l) : KeepsEntries K t (t.erase l) :=
  keepsEntries_of_eq fun l' hl' => t.entry?_erase_of_ne fun heq : l' = l => hl' (heq ▸ hl)

theorem keepsEntries_eraseBelow (hl : ∀ l', l <+: l' → K l') : KeepsEntries K t (t.eraseBelow l) :=
  keepsEntries_of_eq fun _ hl' => t.entry?_eraseBelow_of_not_prefix fun hpre => hl' (hl _ hpre)

/-- A file is read as before once directories were made. -/
theorem GainsDirectories.read (h : GainsDirectories t t') {data : ByteArray} (hread : t.read d path = .ok data) :
    t'.read d path = .ok data := by
  obtain ⟨l, mode, hl, he⟩ := read_ok hread
  have hl' := resolve_of_subset (fun _ _ => h.entry?_eq) (by simp [he]) hl
  rw [← hread]
  refine read_congr (hl'.trans hl.symm) fun p hp => ?_
  obtain rfl : l = p := Except.ok.inj (hl'.symm.trans hp)
  rw [he, h.entry?_eq he]

end FileTree

/-- Nothing on a host changes but its files, and outside of some places only directories are made. -/
structure Host.KeepsEntries (K : Location → Prop) (h h' : Host) : Prop where
  files : h.files.KeepsEntries K h'.files
  rest : h' = { h with files := h'.files }

namespace Host.GainsDirectories

instance : Std.Refl Host.GainsDirectories := ⟨.refl⟩

instance : IsTrans Host Host.GainsDirectories where
  trans _ _ _ h h' := ⟨h.files.trans h'.files, by rw [h'.rest, h.rest]⟩

theorem makePath (path : String) : Keeps Host.GainsDirectories (Store.onFiles (Host.makePath path)) :=
  (Keeps.change fun _ _ hmade => ⟨FileTree.gainsDirectories_makePath hmade, rfl⟩).onFiles

end Host.GainsDirectories

namespace Host.KeepsEntries

variable {K : Location → Prop}

instance : Std.Refl (Host.KeepsEntries K) := ⟨fun _ => ⟨.refl _, rfl⟩⟩

instance : IsTrans Host (Host.KeepsEntries K) where
  trans _ _ _ h h' := ⟨h.files.trans h'.files, by rw [h'.rest, h.rest]⟩

theorem of_gains {h h' : Host} (hg : h.GainsDirectories h') : h.KeepsEntries K h' := ⟨hg.files.keepsEntries, hg.rest⟩

theorem makePath (path : String) : Keeps (Host.KeepsEntries K) (Store.onFiles (Host.makePath path)) :=
  (Host.GainsDirectories.makePath path).mono fun _ _ => of_gains

end Host.KeepsEntries

namespace WorkDirectory

variable {w : WorkDirectory} {h : Host}

/-- A place is emptied when a work directory is got ready, or lies below one that is. -/
def ClearsAway (w : WorkDirectory) (h : Host) (l : Location) : Prop := ∃ R, w.Clears h R ∧ R <+: l

/-- To get a work directory ready makes directories, and removes only the repository definitions of an earlier build. -/
theorem keepsEntries_prepare (w : WorkDirectory) (h : Host) :
    h.KeepsEntries (w.ClearsAway h) (ran w.prepare h).2 := by
  have hrooms : Keeps (Host.KeepsEntries (w.ClearsAway h)) w.makeRooms :=
    (Host.KeepsEntries.makePath _).bind fun _ => (Host.KeepsEntries.makePath _).bind fun _ =>
      Host.KeepsEntries.makePath _
  rw [prepare_eq, ran_bind]
  simp only [Host.isDirectory, ran_look]
  split
  · exact refl h
  refine Keeps.bind_at (R := Host.KeepsEntries (w.ClearsAway h)) (hrooms.run h) fun _ h₁ hy => ?_
  rw [ran_bind]
  simp only [Host.pathExists, ran_look]
  split
  · next hexists =>
    refine Keeps.bind_at (R := Host.KeepsEntries (w.ClearsAway h)) ?_ fun _ h₂ _ =>
      (Host.KeepsEntries.makePath _).run h₂
    unfold Store.onFiles Host.removeTree
    rw [ran_failingAs, ran_change]
    cases hremove : h₁.files.removeTree h₁.directory w.repositories with
    | error e => exact refl h₁
    | ok files =>
      obtain ⟨R, hR, hor⟩ := FileTree.removeTree_ok hremove
      have hclears : w.Clears h R := ⟨h₁, hy, hexists, hR⟩
      rcases hor with ⟨-, rfl⟩ | ⟨-, rfl⟩
      · exact ⟨FileTree.keepsEntries_eraseBelow fun l hpre => ⟨R, hclears, hpre⟩, rfl⟩
      · exact ⟨FileTree.keepsEntries_erase ⟨R, hclears, List.prefix_rfl⟩, rfl⟩
  · exact (Host.KeepsEntries.makePath _).run h₁

end WorkDirectory

namespace Store

variable {s : Store} {h h' : Host} {v : Nat}

/-- The file that tells the version of a store's format can be read and names a version. -/
def Bears (s : Store) (h : Host) (v : Nat) : Prop :=
  ∃ data, h.files.read h.directory s.versionFile = .ok data ∧ readBack? versionOfDocument? data = some v

theorem ran_verifyVersion (hb : s.Bears h v) (hv : v ≠ storeFormatVersion) :
    ran s.verifyVersion h = (.error (.versionMismatch v), h) := by
  have hread : Yields (readDocument (some versionForm) versionOfDocument? s.versionFile) h v h :=
    yields_readDocument.2 ⟨rfl, hb⟩
  unfold verifyVersion
  rw [hread.ran_bind, if_pos hv]
  rfl

/-- Make the directories of the store. -/
def makeRooms (s : Store) : StoreM Unit := do
  onFiles (Host.makePath s.objects)
  onFiles (Host.makePath s.images)
  onFiles (Host.makePath s.tags)
  onFiles (Host.makePath s.cache)

theorem prepare_eq (s : Store) : s.prepare = (do
    s.makeRooms
    if ← s.isInitialized then s.verifyVersion else writeDocument s.versionFile versionDocument) := by
  unfold prepare makeRooms
  simp only [bind_assoc]
  rfl

theorem gains_makeRooms : Keeps Host.GainsDirectories s.makeRooms :=
  (Host.GainsDirectories.makePath _).bind fun _ => (Host.GainsDirectories.makePath _).bind fun _ =>
    (Host.GainsDirectories.makePath _).bind fun _ => Host.GainsDirectories.makePath _

theorem Bears.gains (hb : s.Bears h v) (hg : h.GainsDirectories h') : s.Bears h' v := by
  obtain ⟨data, hread, hversion⟩ := hb
  refine ⟨data, ?_, hversion⟩
  rw [hg.rest]
  exact hg.files.read hread

/-- A store of another format is not got ready: at most its directories are made. -/
theorem ran_prepare_of_bears (hb : s.Bears h v) (hv : v ≠ storeFormatVersion) :
    ran s.prepare h = match ran s.makeRooms h with
      | (.ok (), h') => (.error (.versionMismatch v), h')
      | (.error e, h') => (.error e, h') := by
  rw [prepare_eq, ran_bind]
  rcases hrooms : ran s.makeRooms h with ⟨e | u, h'⟩
  · rfl
  · have hb' := hb.gains (gains_makeRooms.ends hrooms)
    have hthere : h'.files.pathExists h'.directory s.versionFile = true := FileTree.pathExists_of_read hb'.choose_spec.1
    simp only [isInitialized, Host.pathExists, ran_bind, ran_look, hthere, if_true]
    exact ran_verifyVersion hb' hv

/-- To look through the tags of a store changes nothing. -/
theorem keeps_listTags (s : Store) : Keeps Eq s.listTags := by
  unfold listTags
  refine (Keeps.look ..).bind fun b => ?_
  split
  · exact Keeps.pure _
  · exact ((Keeps.inspect ..).bind fun _ => Keeps.pure _).onFiles.bind fun names =>
      (Keeps.mapM _ fun _ _ => Keeps.readDocument ..).bind fun entries => Keeps.pure _

end Store

namespace Recipe

variable {r : Recipe} {s : Store} {w : Workshop} {v : Nat}

/-- What can be read of the version of a store can be read once the work directory is ready. -/
def SparesVersion (r : Recipe) (s : Store) (w : Workshop) : Prop :=
  ∀ h data, Yields (⟨r.workDirectory⟩ : WorkDirectory).prepare w.host () h →
    w.host.files.read w.host.directory s.versionFile = .ok data → h.files.read h.directory s.versionFile = .ok data

theorem SparesVersion.bears (hr : r.SparesVersion s w) (hb : s.Bears w.host v) {h : Host}
    (hy : Yields (⟨r.workDirectory⟩ : WorkDirectory).prepare w.host () h) : s.Bears h v := by
  obtain ⟨data, hread, hversion⟩ := hb
  exact ⟨data, hr h data hy hread, hversion⟩

/-- The version of a store without links is spared if its file lies in no place that is cleared away. -/
theorem sparesVersion_of_plain (hp : s.Plain w.host) (hspares : r.Spares w (s.versionPlace w.host)) :
    r.SparesVersion s w := by
  intro h data hy hread
  have hkeeps := (⟨r.workDirectory⟩ : WorkDirectory).keepsEntries_prepare w.host
  rw [show ran (⟨r.workDirectory⟩ : WorkDirectory).prepare w.host = (.ok (), h) from hy] at hkeeps
  dsimp only at hkeeps
  have hdirectory : h.directory = w.host.directory := by rw [hkeeps.rest]
  have hplace : Path.named w.host.directory s.versionFile = s.versionPlace w.host :=
    Store.leads_versionFile.named_eq w.host.directory
  have houtside : ∀ p, p <+: s.versionPlace w.host →
      ¬ (⟨r.workDirectory⟩ : WorkDirectory).ClearsAway w.host p :=
    fun p hp ⟨R, hR, hpre⟩ => hspares R hR (hpre.trans hp)
  have hunlinked := Store.leads_versionFile.unlinked hp
  have hunlinked' : h.files.Unlinked w.host.directory s.versionFile := by
    refine ⟨hunlinked.staysBelow, fun p hpre target hlink => ?_⟩
    rw [hplace] at hpre
    rcases hkeeps.files p (houtside p hpre) with heq | ⟨-, mode, hmade⟩
    · exact hunlinked.link_free p (hplace ▸ hpre) target (heq ▸ hlink)
    · rw [hlink] at hmade
      cases hmade
  obtain ⟨l, mode, hl, he⟩ := FileTree.read_ok hread
  have hl' : h.files.resolve true w.host.directory s.versionFile = .ok l :=
    hunlinked.resolve_kept hunlinked' (fun p hpre mode hd =>
      hkeeps.files.entry?_eq (houtside p (hplace ▸ hpre)) hd) hl
  rw [hdirectory, ← hread]
  refine FileTree.read_congr (hl'.trans hl.symm) fun p hp' => ?_
  obtain rfl : l = p := Except.ok.inj (hl'.symm.trans hp')
  rw [he]
  refine hkeeps.files.entry?_eq (houtside l ?_) he
  rw [Store.leads_versionFile.resolve_eq hp hl]
  exact List.prefix_rfl

private theorem ran_getReady_of_bears (hs : w.store = s) (hb : s.Bears w.host v) (hv : v ≠ storeFormatVersion)
    (hr : r.SparesVersion s w) :
    ∃ e h, ran r.getReady w = (.error e, { w with host := h }) ∧
      w.host.KeepsEntries ((⟨r.workDirectory⟩ : WorkDirectory).ClearsAway w.host) h ∧
      ∀ h₁ h₂, Yields (⟨r.workDirectory⟩ : WorkDirectory).prepare w.host () h₁ → Yields s.makeRooms h₁ () h₂ →
        e = .store (.versionMismatch v) ∧ h = h₂ := by
  have hkeeps := (⟨r.workDirectory⟩ : WorkDirectory).keepsEntries_prepare w.host
  unfold getReady
  rw [ran_bind, ran_get]
  dsimp only
  rw [ran_bind, ran_onHost, hs]
  rcases hprepare : ran (⟨r.workDirectory⟩ : WorkDirectory).prepare w.host with ⟨e | u, h₁⟩
  · rw [hprepare] at hkeeps
    refine ⟨.store e, h₁, rfl, hkeeps, fun h₁' h₂ hy _ => ?_⟩
    rw [Yields, hprepare] at hy
    cases hy
  · rw [hprepare] at hkeeps
    dsimp only [mapError_ok]
    rw [ran_onHost, Store.ran_prepare_of_bears (hr.bears hb hprepare) hv]
    have hgains := (Store.gains_makeRooms (s := s)).run h₁
    rcases hrooms : ran s.makeRooms h₁ with ⟨e | u, h₂⟩
    · rw [hrooms] at hgains
      refine ⟨.store e, h₂, rfl, IsTrans.trans _ _ _ hkeeps (.of_gains hgains), fun h₁' h₂' hy hy' => ?_⟩
      obtain ⟨-, rfl⟩ := hy.unique hprepare
      rw [Yields, hrooms] at hy'
      cases hy'
    · rw [hrooms] at hgains
      refine ⟨.store (.versionMismatch v), h₂, rfl, IsTrans.trans _ _ _ hkeeps (.of_gains hgains),
        fun h₁' h₂' hy hy' => ⟨rfl, ?_⟩⟩
      obtain ⟨-, rfl⟩ := hy.unique hprepare
      exact (hy'.unique hrooms).2.symm

/-- A build with a store of another format ends before it comes to a backend. It ends at the version of the store, if
the work directory can be got ready and the store's directories are there or can be made. -/
theorem ran_build_of_bears (hs : w.store = s) (hb : s.Bears w.host v) (hv : v ≠ storeFormatVersion)
    (hr : r.SparesVersion s w) :
    ∃ e h, ran r.build w = (.error e, { w with host := h }) ∧
      w.host.KeepsEntries ((⟨r.workDirectory⟩ : WorkDirectory).ClearsAway w.host) h ∧
      ∀ h₁ h₂, Yields (⟨r.workDirectory⟩ : WorkDirectory).prepare w.host () h₁ → Yields s.makeRooms h₁ () h₂ →
        e = .store (.versionMismatch v) ∧ h = h₂ := by
  obtain ⟨e, h, hready, hrest⟩ := ran_getReady_of_bears hs hb hv hr
  refine ⟨e, h, ?_, hrest⟩
  unfold build
  rw [ran_bind, job_eq, ran_bind, hready]

theorem sameFiles_defaultUser {b : Backend} {base : String} (hbase : b.kind = .daemon → Engine.Inert base) :
    Keeps Host.SameFiles (b.defaultUser base) := by
  cases b with
  | daemon d =>
    have hcall : Keeps Host.SameFiles
        (d.call none ["run", "--rm", "--entrypoint", "/bin/sh", base, "-c", "whoami"]) := by
      refine Daemon.sameFiles_call (Engine.imageIdTargets_eq_nil_iff.2 ?_)
      simp only [List.mem_cons, List.not_mem_nil, or_false]
      rintro word (rfl | rfl | rfl | rfl | rfl | rfl | rfl)
      all_goals first
        | exact hbase rfl
        | decide
    have huser : Keeps Host.SameFiles (d.defaultUser base) :=
      hcall.bind fun o => Keeps.when (Keeps.throw _) (fun _ => Keeps.pure _) (Keeps.pure _)
    exact huser.bind fun _ => Keeps.pure _
  | direct | mock => exact Keeps.pure _

theorem sameFiles_changing {α : Type} {k : BackendKind} {x : Backend → BackendM (α × Backend)}
    (hx : ∀ b, b.kind = k → Keeps Host.SameFiles (x b)) : Keeps SameFiles (changing k x) :=
  (sameFiles_withOpen hx).bind fun (_, _) => Keeps.bind ⟨fun w => Std.Refl.refl (r := Host.SameFiles) w.host⟩ fun _ =>
    Keeps.pure _

theorem sameFiles_target {instructions : List Instruction} (hbase : r.backend = .daemon →
    ∀ base, Instruction.baseReference? instructions = some base → Engine.Inert base) :
    Keeps SameFiles (r.target instructions) := by
  have hrest : ∀ user, Keeps SameFiles (do
      let settings := (← get).settings
      pure ⟨r.distribution, r.architecture, r.backend.builder, r.isolate, user,
        settings.ephemeralTarget, settings.repositoryName⟩ : BuildM Target) :=
    fun _ => Keeps.get.bind fun _ => Keeps.pure _
  unfold target
  dsimp only
  split
  · refine ⟨fun w => Keeps.bind_at ((sameFiles_baseOf instructions).run w) fun base w' hy => ?_⟩
    have huser : Keeps SameFiles (changing r.backend (Backend.defaultUser base)) :=
      sameFiles_changing fun b hk => sameFiles_defaultUser fun hdaemon =>
        hbase (hk.symm.trans hdaemon) base (yields_baseOf.1 hy).1
    exact (huser.bind fun user => hrest user).run w'
  · exact (Keeps.pure _).bind fun user => hrest user

/-- Planning leaves the files as they are. -/
theorem StartsInert.sameFiles_plan (hbase : r.StartsInert w) : SameFiles w (ran r.plan w).2 := by
  refine Keeps.bind_at (sameFiles_resolvedInstructions.run w) fun instructions w' hy => ?_
  obtain ⟨hresolve, rfl⟩ := yields_resolvedInstructions.1 hy
  have htarget : Keeps SameFiles (r.target instructions) := sameFiles_target fun hk base hreference =>
    hbase instructions base hresolve hreference hk
  have hrest : Keeps SameFiles (do
      let _ ← openBackend r.backend
      let lock ← r.loadLock
      let t ← r.target instructions
      ofExcept .compile (Plan.compile instructions lock t)) :=
    (sameFiles_openBackend _).bind fun _ => sameFiles_loadLock.bind fun _ => htarget.bind fun _ => sameFiles_ofExcept ..
  exact hrest.run w

/-- Generating a lockfile leaves the files as they are but for the lockfile. -/
theorem StartsInert.keepsEntries_generateLock (hbase : r.StartsInert w) (architectures : List Architecture) :
    w.host.files.KeepsEntries (fun l => w.host.files.resolve false w.host.directory r.lockfile = .ok l)
      (ran (r.generateLock architectures) w).2.host.files := by
  rcases hrun : ran (r.generateLock architectures) w with ⟨e | lock, w'⟩
  · rw [(hbase.sameFiles_of_error hrun).files]
    exact .refl _
  · obtain ⟨present, answers, w₁, -, hgathers, -, hsave⟩ := yields_generateLock.1 hrun
    have hsame := hbase.sameFiles_of_gathers hgathers
    obtain ⟨host, hsaved, rfl⟩ := (yields_onHost ..).1 hsave
    obtain ⟨l, hl, -, rfl⟩ := yields_replaceFile ((yields_failingAs ..).1 hsaved)
    rw [hsame.files, hsame.setting.directory] at hl
    change w.host.files.KeepsEntries _ (w₁.host.files.put l _)
    rw [hsame.files]
    exact FileTree.keepsEntries_put hl _

end Recipe

namespace Workshop

variable {s : Store} {w : Workshop}

/-- The direct backend is opened without a look at the host, and has the store of the workshop. -/
theorem ran_openDirect (hs : w.Uses s) :
    ∃ w', ran (openBackend .direct) w = (.ok (.direct s), w') ∧ w'.host = w.host := by
  rw [ran_openBackend]
  cases hopen : w.backend? .direct with
  | some b =>
    have hb : b = .direct s := by
      have hkind := kind_of_backend? hopen
      cases b with
      | direct s' => rw [hs.backends _ (List.mem_of_find?_eq_some hopen) s' rfl]
      | daemon | mock => cases hkind
    exact ⟨w, by rw [hb], rfl⟩
  | none =>
    rw [Backend.ran_start (by simp), ← hs.store_eq]
    exact ⟨_, rfl, rfl⟩

/-- To ask the direct backend for its images changes nothing on the host. -/
theorem host_images (hs : w.Uses s) : (ran (images .direct) w).2.host = w.host := by
  obtain ⟨w', hopen, hhost⟩ := ran_openDirect hs
  have himages : Keeps Eq (Direct.images s) := ((Store.keeps_listTags s).failingAs _).bind fun _ => Keeps.pure _
  unfold images withOpen
  rw [ran_bind, hopen]
  dsimp only
  rw [ran_onHost, ← hhost]
  exact (himages.run w'.host).symm

/-- What the direct backend says when it was asked to remove a tag. -/
def cleanAnswer (tag : String) (found : Bool) : String := if found then "" else "No such image: " ++ tag

/-- To remove a tag from the direct backend is to remove its file from the store, whatever the store's version is. -/
theorem ran_clean (hs : w.Uses s) (tag : String) : (ran (clean .direct tag) w).2.host = (ran (s.untag tag) w.host).2 ∧
    (ran (clean .direct tag) w).1 =
      ((ran (s.untag tag) w.host).1.map (cleanAnswer tag)).mapError fun e => .backend (.store e) := by
  obtain ⟨w', hopen, hhost⟩ := ran_openDirect hs
  have hremove : ∀ h : Host, ran (Backend.remove tag (.direct s)) h =
      (((ran (s.untag tag) h).1.map fun found => (cleanAnswer tag found, .direct s)).mapError .store,
        (ran (s.untag tag) h).2) := by
    intro h
    unfold Backend.remove Direct.remove
    dsimp only
    rw [ran_bind, ran_bind, ran_failingAs]
    rcases ran (s.untag tag) h with ⟨e | found, h'⟩ <;> rfl
  unfold clean changing withOpen
  rw [ran_bind, ran_bind, hopen]
  dsimp only
  rw [ran_onHost, ← hhost, hremove]
  rcases ran (s.untag tag) w'.host with ⟨e | found, h'⟩ <;> exact ⟨rfl, rfl⟩

end Workshop

/-- What a workshop is asked for that has to do with its store. -/
inductive Request where
  | build (recipe : Recipe)
  | plan (recipe : Recipe)
  | lock (recipe : Recipe) (architectures : List Architecture)
  | images
  | clean (tag : String)

namespace Request

/-- What a request comes to if it does not fail. -/
abbrev Answer : Request → Type
  | build _ => Outcome
  | plan _ => Plan
  | lock _ _ => Lockfile
  | images => List String
  | clean _ => String

/-- Images are listed and tags are removed by the direct backend. -/
def perform : (q : Request) → BuildM q.Answer
  | build r => r.build
  | plan r => r.plan
  | lock r architectures => r.generateLock architectures
  | images => Workshop.images .direct
  | clean tag => Workshop.clean .direct tag

/-- The places where a request may change files: where a build clears repository definitions away, where the lockfile
is, and where the tag is that is removed. -/
def Touches (w : Workshop) : Request → Location → Prop
  | build r => (⟨r.workDirectory⟩ : WorkDirectory).ClearsAway w.host
  | lock r _ => fun l => w.host.files.resolve false w.host.directory r.lockfile = .ok l
  | clean tag => fun l => w.host.files.resolve false w.host.directory (w.store.tagPath tag) = .ok l
  | plan _ | images => fun _ => False

/-- A build clears nothing away by which the version of the store is read, and no base image's reference tells the
engine to write a file. -/
def Spares (s : Store) (w : Workshop) : Request → Prop
  | build r => r.SparesVersion s w
  | plan r | lock r _ => r.StartsInert w
  | images | clean _ => True

variable {s : Store} {w : Workshop} {v : Nat}

/-- On a store of another format a request changes files only where it touches them. -/
theorem keepsEntries_perform (hs : w.Uses s) (hb : s.Bears w.host v) (hv : v ≠ storeFormatVersion) {q : Request}
    (hq : q.Spares s w) :
    w.host.files.KeepsEntries (q.Touches w) (ran q.perform w).2.host.files := by
  cases q with
  | build r =>
    obtain ⟨e, h, hrun, hkeeps, -⟩ := Recipe.ran_build_of_bears hs.store_eq hb hv hq
    change w.host.files.KeepsEntries _ (ran r.build w).2.host.files
    rw [hrun]
    exact hkeeps.files
  | plan r =>
    change w.host.files.KeepsEntries _ (ran r.plan w).2.host.files
    rw [(Recipe.StartsInert.sameFiles_plan hq).files]
    exact .refl _
  | lock r architectures => exact Recipe.StartsInert.keepsEntries_generateLock hq architectures
  | images =>
    change w.host.files.KeepsEntries _ (ran (Workshop.images .direct) w).2.host.files
    rw [Workshop.host_images hs]
    exact .refl _
  | clean tag =>
    change w.host.files.KeepsEntries _ (ran (Workshop.clean .direct tag) w).2.host.files
    rw [(Workshop.ran_clean hs tag).1]
    rcases (IdentifierCall.keeps_perform_of_removes s (.tag tag)).run w.host with hsame | ⟨l, hl, hrun⟩
    · change (ran (s.untag tag) w.host).2 = w.host at hsame
      rw [hsame]
      exact .refl _
    · change (ran (s.untag tag) w.host).2 = _ at hrun
      rw [hrun]
      refine FileTree.keepsEntries_erase ?_
      rw [Touches, hs.store_eq]
      exact hl

/-- What is asked of a workshop with a store of another format leaves the entries of the store, and a build ends at the
version before it comes to a backend. But no version is looked for when a tag is to be removed, so that it is gone. -/
theorem foreign_store_kept (hs : w.Uses s) (hb : s.Bears w.host v) (hv : v ≠ storeFormatVersion) :
    (∀ q : Request, q.Spares s w → w.host.files.KeepsEntries (q.Touches w) (ran q.perform w).2.host.files) ∧
      (∀ r : Recipe, r.SparesVersion s w → ∃ e h, ran r.build w = (.error e, { w with host := h }) ∧
        h = { w.host with files := h.files } ∧
        ∀ h₁ h₂, Yields (⟨r.workDirectory⟩ : WorkDirectory).prepare w.host () h₁ → Yields s.makeRooms h₁ () h₂ →
          e = .store (.versionMismatch v)) ∧
      ∀ tag files, w.host.files.pathExists w.host.directory (s.tagPath tag) = true →
        w.host.files.remove w.host.directory (s.tagPath tag) = .ok files →
        (ran (Workshop.clean .direct tag) w).1 = .ok "" ∧
          (ran (Workshop.clean .direct tag) w).2.host = { w.host with files := files } := by
  refine ⟨fun q hq => keepsEntries_perform hs hb hv hq, fun r hr => ?_, fun tag files hthere hremove => ?_⟩
  · obtain ⟨e, h, hrun, hkeeps, herror⟩ := Recipe.ran_build_of_bears hs.store_eq hb hv hr
    exact ⟨e, h, hrun, hkeeps.rest, fun h₁ h₂ hready hrooms => (herror h₁ h₂ hready hrooms).1⟩
  · have huntag : ran (s.untag tag) w.host = (.ok true, { w.host with files := files }) := by
      unfold Store.untag
      simp only [Host.pathExists, ran_bind, ran_look, hthere, if_true]
      unfold Store.onFiles Host.remove
      rw [ran_failingAs, ran_change, hremove]
      rfl
    obtain ⟨hhost, hanswer⟩ := Workshop.ran_clean hs tag
    rw [huntag] at hhost hanswer
    exact ⟨hanswer, hhost⟩

end Request

namespace Sample

/-- A workshop with a store of format 99, in which there is a tag. -/
def foreign : Workshop :=
  furnished "/s"
    [["w"], ["s"], ["s", "store"], ["s", "store", "objects"], ["s", "store", "images"], ["s", "store", "tags"],
      ["s", "store", "cache"]]
    [(["s", "store", "version"], .file writtenMode "\x7b\"format_version\": 99\x7d".toUTF8),
      (["s", "store", "tags", Blake3.hexOfText "t"], .file writtenMode ByteArray.empty)]

/-- The place of the tag in that store. -/
def foreignTag : Location := Location.ofTexts ["s", "store", "tags", Blake3.hexOfText "t"]

theorem uses_foreign : foreign.Uses foreign.store := ⟨rfl, by simp [foreign, furnished, workshop]⟩

theorem bears_foreign : foreign.store.Bears foreign.host 99 :=
  ⟨"\x7b\"format_version\": 99\x7d".toUTF8, by decide +kernel, by decide +kernel⟩

/-- The host of that workshop once the work directory is ready. -/
def foreignReady : Host := (ran (WorkDirectory.prepare ⟨"/w"⟩) foreign.host).2

theorem ready_foreign : Yields (WorkDirectory.prepare ⟨"/w"⟩) foreign.host () foreignReady ∧
    Yields foreign.store.makeRooms foreignReady () (ran foreign.store.makeRooms foreignReady).2 := by
  obtain ⟨u, hu⟩ := exists_of_isOk (x := (ran (WorkDirectory.prepare ⟨"/w"⟩) foreign.host).1) (by decide +kernel)
  obtain ⟨u', hu'⟩ := exists_of_isOk (x := (ran foreign.store.makeRooms foreignReady).1) (by decide +kernel)
  exact ⟨Prod.ext hu rfl, Prod.ext hu' rfl⟩

/-- The work directory is a new one, where nothing is cleared away. -/
theorem clears_foreign {l : Location} : ¬ (⟨"/w"⟩ : WorkDirectory).Clears foreign.host l := by
  rintro ⟨h, hrooms, hexists, -⟩
  have hmissing : let h' := (ran (WorkDirectory.makeRooms ⟨"/w"⟩) foreign.host).2
      h'.files.pathExists h'.directory (WorkDirectory.repositories ⟨"/w"⟩) = false := by decide +kernel
  obtain rfl : (ran (WorkDirectory.makeRooms ⟨"/w"⟩) foreign.host).2 = h := congrArg Prod.snd hrooms
  rw [hmissing] at hexists
  cases hexists

theorem plain_foreign : foreign.store.Plain foreign.host where
  staysBelow := by
    unfold Path.StaysBelow
    decide +kernel
  link_free l _ target h := by
    have hkinds : ∀ e ∈ foreign.host.files.entries.entries, e.2.isDirectory = true ∨ e.2.isFile = true := by
      decide +kernel
    cases l with
    | nil => cases h
    | cons => simpa [Entry.isDirectory, Entry.isFile] using hkinds _ (SortedMap.mem_entries_iff.2 h)

theorem sparesVersion_foreign : (recipe .direct .x86).SparesVersion foreign.store foreign :=
  Recipe.sparesVersion_of_plain plain_foreign fun _ hclears => absurd hclears clears_foreign

end Sample

open Sample in
/-- A build with a store of format 99 ends at the version, and leaves the tag; but the tag can be removed. -/
theorem Request.foreign_store_kept_sample :
    foreign.store.Bears foreign.host 99 ∧ 99 ≠ storeFormatVersion ∧
      (foreign.host.files.entry? foreignTag ≠ none ∧
        (ran (recipe .direct .x86).build foreign).1 = .error (.store (.versionMismatch 99)) ∧
        (ran (recipe .direct .x86).build foreign).2.host.files.entry? foreignTag =
          foreign.host.files.entry? foreignTag) ∧
      (ran (Workshop.clean .direct "t") foreign).1 = .ok "" ∧
        (ran (Workshop.clean .direct "t") foreign).2.host.files.entry? foreignTag = none := by
  have hversion : 99 ≠ storeFormatVersion := by decide
  obtain ⟨hkept, hbuild, hclean⟩ := Request.foreign_store_kept uses_foreign bears_foreign hversion
  obtain ⟨x, hx⟩ : ∃ x, foreign.host.files.entry? foreignTag = some x :=
    Option.isSome_iff_exists.1 (by decide +kernel)
  have hafter := (hkept (.build (recipe .direct .x86)) sparesVersion_foreign).entry?_eq
    (fun ⟨R, hclears, _⟩ => clears_foreign hclears) hx
  obtain ⟨e, h, hrun, -, hends⟩ := hbuild (recipe .direct .x86) sparesVersion_foreign
  obtain ⟨files, hremove⟩ := exists_of_isOk
    (x := foreign.host.files.remove foreign.host.directory (foreign.store.tagPath "t")) (by decide +kernel)
  obtain ⟨hanswer, hhost⟩ := hclean "t" files (by decide +kernel) hremove
  refine ⟨bears_foreign, hversion, ⟨by simp [hx], ?_, hafter.trans hx.symm⟩, hanswer, ?_⟩
  · rw [hrun, hends _ _ ready_foreign.1 ready_foreign.2]
  · obtain ⟨l, -, hl, -, -, rfl⟩ := FileTree.remove_ok hremove
    have hplace : foreign.host.files.resolve false foreign.host.directory (foreign.store.tagPath "t") =
        .ok foreignTag := by decide +kernel
    obtain rfl : l = foreignTag := Except.ok.inj (hl.symm.trans hplace)
    rw [hhost]
    exact FileTree.entry?_erase_self _ (List.cons_ne_nil _ _)

end ImageRecipe
