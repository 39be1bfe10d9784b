import ImageRecipe.Proofs.LockGeneration
import ImageRecipe.Proofs.LockfileTexts

/-! Generating a lockfile writes it as a whole, as the last thing that is done, or not at all. What was written is
read as the lockfile that was generated. -/

namespace ImageRecipe

open Workshop

/-! Saving and loading. -/

namespace Lockfile

variable {l : Lockfile} {path : String} {h h' : Host}

/-- A lockfile that cannot be saved leaves everything as it is. -/
theorem ran_save_error {e : LockError} (hr : ran (l.save path) h = (.error e, h')) : h' = h := by
  unfold save Host.replaceFile at hr
  rw [ran_failingAs, ran_change] at hr
  cases hwrite : h.files.write h.directory path (Text.bytes l.render) with
  | error f =>
    rw [hwrite] at hr
    exact (congrArg Prod.snd hr).symm
  | ok files =>
    rw [hwrite] at hr
    cases congrArg Prod.fst hr

/-- A lockfile that was saved is loaded with the same pins, if its path still leads to something. -/
theorem Unambiguous.yields_load (hl : l.Unambiguous) (hy : Yields (l.save path) h () h')
    (hpath : h'.files.pathExists h'.directory path = true) :
    ∃ l', Yields (Lockfile.load path) h' l' h' ∧ ∀ d, l'.pins d = l.pins d := by
  obtain ⟨l', hparse, hpins⟩ := hl.exists_parse_render
  have hread := yields_readText_replaced ((yields_failingAs ..).1 hy) hpath
  exact ⟨l', (yields_bind ..).2 ⟨_, _, (yields_failingAs ..).2 hread, (yields_ofExcept ..).2 ⟨hparse, rfl⟩⟩, hpins⟩

end Lockfile

/-! Runs that leave the files as they are. -/

namespace Workshop

/-- The host of a workshop has the same files and the same setting. -/
def SameFiles (w w' : Workshop) : Prop := Host.SameFiles w.host w'.host

instance : Std.Refl SameFiles where
  refl w := Std.Refl.refl (r := Host.SameFiles) w.host

theorem SameFiles.trans {w v w' : Workshop} (h : SameFiles w v) (h' : SameFiles v w') : SameFiles w w' :=
  IsTrans.trans (r := Host.SameFiles) _ _ _ h h'

instance : IsTrans Workshop SameFiles where
  trans _ _ _ h h' := h.trans h'

variable {ε α : Type} {k : BackendKind}

theorem sameFiles_onHost {x : HostM ε α} (hx : Keeps Host.SameFiles x) (wrap : ε → BuildError) :
    Keeps SameFiles (onHost wrap x) := by
  constructor
  intro w
  rw [ran_onHost]
  exact hx.run w.host

theorem sameFiles_ofExcept (wrap : ε → BuildError) (x : Except ε α) : Keeps SameFiles (ofExcept wrap x) := by
  constructor
  intro w
  rw [ran_workshopOfExcept]
  exact Std.Refl.refl w

theorem sameFiles_openBackend (k : BackendKind) : Keeps SameFiles (openBackend k) := by
  constructor
  intro w
  rw [ran_openBackend]
  cases hb : w.backend? k with
  | some b => exact Std.Refl.refl w
  | none =>
    have hsame := (Backend.sameFiles_start w.settings w.store k).run w.host
    rcases hrun : ran (Backend.start w.settings w.store k) w.host with ⟨e | b, host⟩ <;>
    · rw [hrun] at hsame
      exact hsame

theorem sameFiles_withOpen {x : Backend → BackendM α} (hx : ∀ b, b.kind = k → Keeps Host.SameFiles (x b)) :
    Keeps SameFiles (withOpen k x) := by
  constructor
  intro w
  unfold withOpen
  refine Keeps.bind_at ((sameFiles_openBackend k).run w) fun b w' hb => ?_
  exact (sameFiles_onHost (hx b (kind_of_backend? (yields_openBackend hb).1.backend)) _).run w'

end Workshop

/-- The command that asks for packages names no file to leave an image id in. -/
theorem Distribution.inert_queryCommand (d : Distribution) (packages : List String) :
    Engine.Inert (d.queryCommand packages) := by
  unfold Engine.Inert Engine.imageIdTargets queryCommand
  cases d <;> simp [packageManager, Engine.imageIdOption, Text.dropStart?]

/-- To ask a base image for packages leaves the files as they are, unless its reference is an option of the engine
that names a file. -/
theorem Backend.sameFiles_resolvePackages {b : Backend} {base : String} {d : Distribution} {a : Architecture}
    {packages : List String} (hbase : b.kind = .daemon → Engine.Inert base) :
    Keeps Host.SameFiles (b.resolvePackages base d a packages) := by
  cases b with
  | daemon engine =>
    have hplatform : Engine.Inert a.platform := by
      cases a <;> decide
    have hcall : Keeps Host.SameFiles (engine.call none ["run", "--rm", "--user", "root", "--platform", a.platform,
        "--entrypoint", "/bin/sh", base, "-c", d.queryCommand packages]) := by
      refine Daemon.sameFiles_call (Engine.imageIdTargets_eq_nil_iff.2 ?_)
      simp only [List.mem_cons, List.not_mem_nil, or_false]
      rintro word (rfl | rfl | rfl | rfl | rfl | rfl | rfl | rfl | rfl | rfl | rfl)
      all_goals first
        | exact hplatform
        | exact hbase rfl
        | exact d.inert_queryCommand packages
        | decide
    exact hcall.bind fun o => Keeps.when (Keeps.throw _) (fun _ => Keeps.pure _) (Keeps.pure _)
  | direct store => exact Keeps.throw _
  | mock mock => exact Keeps.pure _

namespace Recipe

variable {r : Recipe} {w w' : Workshop} {present lock : Lockfile} {base : String} {packages : List String}
  {architectures : List Architecture} {answers : List Answer}

theorem sameFiles_resolvedInstructions : Keeps SameFiles r.resolvedInstructions := by
  unfold resolvedInstructions
  exact Keeps.get.bind fun _ => sameFiles_ofExcept ..

theorem sameFiles_baseOf (instructions : List Instruction) : Keeps SameFiles (baseOf instructions) := by
  unfold baseOf
  split
  · exact Keeps.pure _
  · exact Keeps.throw _

theorem sameFiles_loadLock : Keeps SameFiles r.loadLock := by
  have hload : Keeps Host.SameFiles (Lockfile.load r.lockfile) :=
    ((Keeps.readText _).failingAs _).bind fun _ => Keeps.ofExcept _
  unfold loadLock
  refine (sameFiles_onHost (Keeps.look ..) _).bind fun b => ?_
  split
  · exact sameFiles_onHost hload _
  · exact Keeps.pure _

theorem sameFiles_resolvePackages {a : Architecture} (hbase : r.backend = .daemon → Engine.Inert base) :
    Keeps SameFiles (withOpen r.backend (Backend.resolvePackages base r.distribution a packages)) :=
  sameFiles_withOpen fun _ hb => Backend.sameFiles_resolvePackages fun hk => hbase (hb.symm.trans hk)

theorem sameFiles_lockFor (hbase : r.backend = .daemon → Engine.Inert base) (packages : List String) (l : Lockfile)
    (a : Architecture) : Keeps SameFiles (r.lockFor base packages l a) := by
  rw [lockFor_eq]
  exact (sameFiles_resolvePackages hbase).bind fun pins => sameFiles_ofExcept ..

/-- A lockfile that cannot be written leaves everything as it is. -/
theorem eq_of_save_error {e : BuildError} (hr : ran (onHost .ofLock (lock.save r.lockfile)) w = (.error e, w')) :
    w = w' := by
  rw [ran_onHost] at hr
  obtain ⟨hfailed, rfl⟩ := Prod.ext_iff.1 hr
  obtain ⟨e', he', -⟩ := mapError_eq_error.1 hfailed
  have hsaved : (ran (lock.save r.lockfile) w.host).2 = w.host := Lockfile.ran_save_error (Prod.ext he' rfl)
  exact congrArg (fun host => { w with host }) hsaved.symm

/-- The reference that a recipe starts from is no option of the engine that names a file, or no engine is asked. -/
def StartsInert (r : Recipe) (w : Workshop) : Prop :=
  ∀ instructions base, w.session.resolveBases r.instructions = .ok instructions →
    Instruction.baseReference? instructions = some base → r.backend = .daemon → Engine.Inert base

/-- A run that fails leaves the files as they are. -/
theorem StartsInert.sameFiles_of_error (hbase : r.StartsInert w) {e : BuildError}
    (hr : ran (r.generateLock architectures) w = (.error e, w')) : SameFiles w w' := by
  have hsave : ∀ {lock : Lockfile} {v : Workshop}, SameFiles w v →
      ran (onHost .ofLock (lock.save r.lockfile) >>= fun _ => pure lock) v = (.error e, w') → SameFiles w w' := by
    intro lock v hv hrun
    obtain hrun | ⟨_, _, -, hrun⟩ := ran_bind_eq_error.1 hrun
    · exact eq_of_save_error hrun ▸ hv
    · cases hrun
  unfold generateLock at hr
  obtain hr | ⟨instructions, v, hinstructions, hr⟩ := ran_bind_eq_error.1 hr
  · exact sameFiles_resolvedInstructions.ends hr
  obtain ⟨hresolve, rfl⟩ := yields_resolvedInstructions.1 hinstructions
  obtain hr | ⟨base, v, hbaseOf, hr⟩ := ran_bind_eq_error.1 hr
  · exact (sameFiles_baseOf instructions).ends hr
  obtain ⟨hreference, rfl⟩ := yields_baseOf.1 hbaseOf
  have hinert := hbase instructions base hresolve hreference
  obtain hr | ⟨present, v, hload, hr⟩ := ran_bind_eq_error.1 hr
  · exact sameFiles_loadLock.ends hr
  have hloaded := sameFiles_loadLock.yields hload
  split at hr
  · exact hsave hloaded hr
  obtain hr | ⟨_, v₁, hopen, hr⟩ := ran_bind_eq_error.1 hr
  · exact hloaded.trans ((sameFiles_openBackend _).ends hr)
  have hopened := hloaded.trans ((sameFiles_openBackend _).yields hopen)
  have hlocks := Keeps.foldlM (sameFiles_lockFor hinert r.requestedPackages) architectures present
  obtain hr | ⟨lock, v₂, hlock, hr⟩ := ran_bind_eq_error.1 hr
  · exact hopened.trans (hlocks.ends hr)
  · exact hsave (hopened.trans (hlocks.yields hlock)) hr

theorem Asked.sameFiles (h : r.Asked base packages w answers w') (hbase : r.backend = .daemon → Engine.Inert base) :
    SameFiles w w' := by
  induction h with
  | nil => exact Std.Refl.refl _
  | cons first _ ih => exact ((sameFiles_resolvePackages hbase).yields first).trans ih

/-- Gathering what a lockfile is generated from leaves the files as they are. -/
theorem StartsInert.sameFiles_of_gathers (hbase : r.StartsInert w) (h : r.Gathers w present answers w') :
    SameFiles w w' := by
  obtain ⟨instructions, base, v, hresolve, hreference, hload, hasks⟩ := h
  have hloaded := sameFiles_loadLock.yields hload
  split at hasks
  · exact hasks ▸ hloaded
  · obtain ⟨b, v', hopen, hasked⟩ := hasks
    have hopened := hloaded.trans ((sameFiles_openBackend _).yields hopen)
    exact hopened.trans (hasked.sameFiles (hbase instructions base hresolve hreference))

theorem Gathers.unambiguous (h : r.Gathers w present answers w') (hlock : r.gathered present answers = .ok lock) :
    lock.Unambiguous := by
  obtain ⟨_, _, _, -, -, hload, -⟩ := h
  have hpresent := unambiguous_of_loadLock hload
  unfold gathered at hlock
  split at hlock
  · cases hlock
    exact hpresent
  · exact hpresent.adoptAll hlock

/-- Generating a lockfile writes it as a whole, as the last thing. A run that fails leaves all files as they are, even
if it is the lockfile that cannot be written, as long as the base image's reference is no option that tells the engine
to leave an image id in a file. A lockfile that was generated is then found at its path unless a link was there, and as
long as its path leads anywhere it is loaded with the same pins. -/
theorem generateLock_atomic (r : Recipe) (w : Workshop) (architectures : List Architecture) :
    (r.StartsInert w →
      (∀ e w', ran (r.generateLock architectures) w = (.error e, w') → w'.host.files = w.host.files) ∧
      ∀ lock w', Yields (r.generateLock architectures) w lock w' →
        (∀ target, w.host.files.linkStatus w.host.directory r.lockfile ≠ .ok (.link target)) →
          w'.host.files.pathExists w'.host.directory r.lockfile = true) ∧
    ∀ lock w', Yields (r.generateLock architectures) w lock w' →
      w'.host.files.pathExists w'.host.directory r.lockfile = true →
        ∃ l, Yields (Lockfile.load r.lockfile) w'.host l w'.host ∧ ∀ d, l.pins d = lock.pins d := by
  refine ⟨fun hbase => ⟨fun e w' hr => (hbase.sameFiles_of_error hr).files, fun lock w' hy hlink => ?_⟩,
    fun lock w' hy hpath => ?_⟩
  · obtain ⟨present, answers, v, -, hgathers, -, hsave⟩ := yields_generateLock.1 hy
    have hsame := hbase.sameFiles_of_gathers hgathers
    obtain ⟨host, hsaved, rfl⟩ := (yields_onHost ..).1 hsave
    refine pathExists_replaced ((yields_failingAs ..).1 hsaved) fun target => ?_
    rw [hsame.files, hsame.setting.directory]
    exact hlink target
  · obtain ⟨present, answers, v, -, hgathers, hgathered, hsave⟩ := yields_generateLock.1 hy
    obtain ⟨host, hsaved, rfl⟩ := (yields_onHost ..).1 hsave
    exact (hgathers.unambiguous hgathered).yields_load hsaved hpath

end Recipe

namespace Sample

/-- A recipe on top of an image that was not built. -/
def unfounded : Recipe := { installing with instructions := [.builtBase "q" none none] }

theorem isOk_generateLock_unfounded : (ran (unfounded.generateLock [.x86]) workshop).1.isOk = false := by
  decide

theorem linkStatus_installing : workshop.host.files.linkStatus [] installing.lockfile = .error .notFound := by
  decide +kernel

end Sample

open Sample in
/-- A recipe without a base leaves the files as they are. The lockfile of the other one is loaded with its pins. -/
theorem Recipe.generateLock_atomic_sample :
    (ran (unfounded.generateLock [.x86]) workshop).2.host.files = workshop.host.files ∧
      ∃ lock l w', Yields (installing.generateLock [.x86, .arm]) workshop lock w' ∧
        Yields (Lockfile.load installing.lockfile) w'.host l w'.host ∧ ∀ d, l.pins d = lock.pins d := by
  have hmock : ∀ {r : Recipe}, r.backend = .mock → r.StartsInert workshop := by
    intro r hk _ _ _ _ hdaemon
    rw [hk] at hdaemon
    cases hdaemon
  constructor
  · obtain ⟨e, he⟩ : ∃ e, (ran (unfounded.generateLock [.x86]) workshop).1 = .error e := by
      cases hrun : (ran (unfounded.generateLock [.x86]) workshop).1 with
      | error e => exact ⟨e, rfl⟩
      | ok lock =>
        have hfails := isOk_generateLock_unfounded
        rw [hrun] at hfails
        cases hfails
    exact ((generateLock_atomic unfounded workshop [.x86]).1 (hmock rfl)).1 e _ (Prod.ext he rfl)
  · obtain ⟨lock, hlock⟩ := exists_of_isOk isOk_generateLock
    obtain ⟨w', hy⟩ := exists_yields hlock
    obtain ⟨hfound, hloads⟩ := generateLock_atomic installing workshop [.x86, .arm]
    have hpath := (hfound (hmock rfl)).2 lock w' hy fun target => by
      rw [show workshop.host.directory = [] from rfl, linkStatus_installing]
      simp
    obtain ⟨l, hload, hpins⟩ := hloads lock w' hy hpath
    exact ⟨lock, l, w', hy, hload, hpins⟩

namespace Sample

/-- The workshop with an engine that leaves an image id where it is told to, and fails. -/
def careless : Workshop :=
  { workshop with
    settings := { engine := "/engine" }
    host := { workshop.host with
      files := workshop.host.files.put [FileName.ofText "engine"] (.file 0o755 (Text.bytes "#!/bin/sh\n"))
      replies := [{ output := Text.bytes "24.0.7\n" }, { imageId := some (Text.bytes "sha256:1\n"), code := some 1 }] } }

/-- The recipe on top of a base image whose reference tells the engine to leave an image id in the lockfile. -/
def misread : Recipe :=
  { installing with
    backend := .daemon, lockfile := "/l:v"
    instructions := [.base "--iidfile=/l" "v" none, .install (SortedSet.ofList ["curl"])] }

/-- The names of links each of which leads to the next, and of the directory that the last one leads to. -/
def chainNames : List String :=
  ["x", "a", "b", "c", "d", "e", "f", "g", "h", "i", "j", "k", "l", "m", "n", "o", "p", "q", "r", "s", "t", "w"]

/-- The workshop with a chain of links, so long that no path may go through it twice. -/
def chained : Workshop :=
  { workshop with
    host := { workshop.host with
      files := (chainNames.zip chainNames.tail).foldl
        (fun t e => t.put [FileName.ofText e.1] (.link (RawPath.ofText e.2))) workshop.host.files } }

/-- The recipe with a lockfile whose path goes through the link that the lockfile takes the place of. -/
def circular : Recipe := { installing with lockfile := "/x/../x" }

end Sample

open Sample in
/-- A base image's reference that the engine takes for an option lets a run that fails leave another file in the place
of the lockfile. A lockfile that takes the place of a link is not found by a path that goes through the link. -/
theorem Recipe.generateLock_not_atomic :
    (∃ w', ran (misread.generateLock [.x86]) careless =
          (.error (.backend (.engine (.noPackages "--iidfile=/l:v" ""))), w') ∧
        careless.host.files.read [] misread.lockfile = .error .notFound ∧
        w'.host.files.read [] misread.lockfile = .ok (Text.bytes "sha256:1\n")) ∧
      ∃ lock w', Yields (circular.generateLock [.x86]) chained lock w' ∧
        (ran (Lockfile.load circular.lockfile) w'.host).1 = .error (.io .notDirectory) := by
  have hmisread : (ran (misread.generateLock [.x86]) careless).1 =
        .error (.backend (.engine (.noPackages "--iidfile=/l:v" ""))) ∧
      careless.host.files.read [] misread.lockfile = .error .notFound ∧
      (ran (misread.generateLock [.x86]) careless).2.host.files.read [] misread.lockfile =
        .ok (Text.bytes "sha256:1\n") := by decide +kernel
  have hcircular : (ran (circular.generateLock [.x86]) chained).1.isOk = true ∧
      (ran (Lockfile.load circular.lockfile) (ran (circular.generateLock [.x86]) chained).2.host).1 =
        .error (.io .notDirectory) := by decide +kernel
  obtain ⟨lock, hlock⟩ := exists_of_isOk hcircular.1
  exact ⟨⟨_, Prod.ext hmisread.1 rfl, hmisread.2⟩, lock, _, Prod.ext hlock rfl, hcircular.2⟩

end ImageRecipe
