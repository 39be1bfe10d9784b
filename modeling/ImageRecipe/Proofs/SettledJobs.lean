import ImageRecipe.Proofs.BuildRuns
import ImageRecipe.Proofs.DefaultUser
import ImageRecipe.Proofs.FilesAside

/-! What a job depends on, for backends other than the daemon: the settings, the images of base projects, the user of
base images, the lockfile, and the files of the context. From workshops that agree on these a recipe settles on the same
job. -/

namespace ImageRecipe

open Workshop

namespace Workshop

variable {w w' w'' : Workshop} {k : BackendKind}

/-- The user that the mock backend takes every base image to run as. -/
def mockUser (w : Workshop) : String :=
  match w.backend? .mock with
  | some (.mock m) => m.user
  | _ => "root"

theorem mockUser_of_backend? {m : Mock} (h : w.backend? .mock = some (.mock m)) : w.mockUser = m.user := by
  unfold mockUser
  rw [h]

/-- The user that a backend other than the daemon takes every base image to run as. -/
def userOf (w : Workshop) : BackendKind → String
  | .mock => w.mockUser
  | _ => "root"

/-- Two workshops with the same host that no build can tell apart, whichever backends are open. -/
structure Alike (w w' : Workshop) : Prop where
  settings : w'.settings = w.settings
  store : w'.store = w.store
  host : w'.host = w.host
  session : w'.session = w.session
  mockImage : w'.mockImage? = w.mockImage?
  mockUser : w'.mockUser = w.mockUser
  uses : ∀ s, w.Uses s → w'.Uses s

namespace Alike

theorem refl (w : Workshop) : Alike w w := ⟨rfl, rfl, rfl, rfl, rfl, rfl, fun _ => id⟩

theorem trans (h : Alike w w') (h' : Alike w' w'') : Alike w w'' where
  settings := h'.settings.trans h.settings
  store := h'.store.trans h.store
  host := h'.host.trans h.host
  session := h'.session.trans h.session
  mockImage := h'.mockImage.trans h.mockImage
  mockUser := h'.mockUser.trans h.mockUser
  uses s := h'.uses s ∘ h.uses s

theorem userOf (h : Alike w w') (k : BackendKind) : w'.userOf k = w.userOf k := by
  cases k with
  | mock => exact h.mockUser
  | daemon | direct => rfl

/-- Workshops that are alike are so with another host. -/
theorem withHost (h : Alike w w') (host : Host) : Alike { w with host } { w' with host } where
  settings := h.settings
  store := h.store
  host := rfl
  session := h.session
  mockImage := h.mockImage
  mockUser := h.mockUser
  uses s hs := ⟨(h.uses s ⟨hs.store_eq, hs.backends⟩).store_eq, (h.uses s ⟨hs.store_eq, hs.backends⟩).backends⟩

/-- A backend is put in the place of another one, with the same images and the same user. -/
theorem withBackend {b : Backend} (himage : ∀ tag, b.kind = .mock → b.image? tag = w.mockImage? tag)
    (huser : ∀ m, b = .mock m → m.user = w.mockUser) (hstore : ∀ s s', w.Uses s → b.store? = some s' → s' = s) :
    Alike w (w.withBackend b) where
  settings := rfl
  store := rfl
  host := rfl
  session := rfl
  mockImage := mockImage?_withBackend himage
  mockUser := by
    unfold Workshop.mockUser
    rw [backend?_withBackend]
    by_cases hk : b.kind = .mock
    · obtain ⟨m, rfl⟩ := Backend.eq_mock hk
      exact huser m rfl
    · rw [if_neg hk]
  uses s hs := hs.withBackend (hstore s · hs)

end Alike

/-- A backend that is not the daemon can always be opened. -/
theorem exists_openBackend (hk : k ≠ .daemon) (w : Workshop) :
    ∃ b w', Yields (openBackend k) w b w' ∧ w'.backend? k = some b ∧ Alike w w' := by
  unfold Yields
  rw [ran_openBackend]
  cases hb : w.backend? k with
  | some b => exact ⟨b, w, rfl, hb, .refl w⟩
  | none =>
    dsimp only
    rw [Backend.ran_start hk]
    refine ⟨_, _, rfl, ?_, ?_⟩
    · rw [backend?_withBackend, if_pos (Backend.kind_ofSettings ..)]
    · refine Alike.withBackend (fun tag hmock => ?_) (fun m hm => ?_) fun s s' hs hs' => ?_
      · obtain rfl : k = .mock := by simpa using hmock
        rw [Backend.image?_ofSettings]
        unfold mockImage?
        rw [hb]
        rfl
      · obtain rfl : k = .mock := by
          have hkind := congrArg Backend.kind hm
          rwa [Backend.kind_ofSettings] at hkind
        unfold Workshop.mockUser
        rw [hb]
        cases hm
        rfl
      · rw [Backend.store?_ofSettings hs', hs.store_eq]

/-- An action that may change a backend other than the daemon. -/
theorem exists_of_changing {α : Type} (hk : k ≠ .daemon) {x : Backend → BackendM (α × Backend)} {a : α}
    (hy : Yields (changing k x) w a w') : ∃ b b' w₁ host, w₁.backend? k = some b ∧ Alike w w₁ ∧
      Yields (x b) w.host (a, b') host ∧ w' = ({ w₁ with host } : Workshop).withBackend b' := by
  obtain ⟨⟨_, b'⟩, _, hopened, hy⟩ := (yields_bind ..).1 hy
  obtain ⟨_, _, hmodify, hpure⟩ := (yields_bind ..).1 hy
  obtain rfl := (yields_modify ..).1 hmodify
  obtain ⟨rfl, rfl⟩ := (yields_pure ..).1 hpure
  obtain ⟨b, w₁, hopen, hdone⟩ := (yields_bind ..).1 hopened
  obtain ⟨_, w₂, hopen', hb, halike⟩ := exists_openBackend hk w
  obtain ⟨rfl, rfl⟩ := hopen.unique hopen'
  obtain ⟨host, hrun, rfl⟩ := (yields_onHost ..).1 hdone
  rw [halike.host] at hrun
  exact ⟨b, b', w₁, host, hb, halike, hrun, rfl⟩

/-- What is asked of a backend other than the daemon about a base image changes nothing that matters. -/
theorem exists_defaultUser (hk : k ≠ .daemon) (w : Workshop) (base : String) :
    ∃ w', Yields (changing k (Backend.defaultUser base)) w (w.userOf k) w' ∧ Alike w w' := by
  obtain ⟨b, w₁, hopen, hb, halike⟩ := exists_openBackend hk w
  have hanswer : ∃ b', Yields (Backend.defaultUser base b) w₁.host (w.userOf k, b') w₁.host ∧
      Alike w₁ (w₁.withBackend b') := by
    cases k with
    | daemon => exact absurd rfl hk
    | direct =>
      obtain ⟨s, rfl⟩ := Backend.eq_direct (kind_of_backend? hb)
      refine ⟨.direct s, rfl, .withBackend (fun _ h => by cases h) (fun _ h => by cases h) fun s' s'' hs h => ?_⟩
      exact hs.backend? hb s'' h
    | mock =>
      obtain ⟨m, rfl⟩ := Backend.eq_mock (kind_of_backend? hb)
      have huser : m.user = w₁.mockUser := (mockUser_of_backend? hb).symm
      refine ⟨.mock { m with probes := base :: m.probes }, ?_, .withBackend (fun tag _ => ?_) (fun m' h => ?_) ?_⟩
      · rw [show w.userOf .mock = m.user from (huser.trans halike.mockUser).symm]
        rfl
      · rw [mockImage?_of_backend? hb]
        rfl
      · cases h
        exact huser
      · intro _ _ _ h
        cases h
  obtain ⟨b', hyields, halike'⟩ := hanswer
  refine ⟨w₁.withBackend b', ?_, halike.trans halike'⟩
  refine (yields_bind ..).2 ⟨(w.userOf k, b'), w₁, ?_, (yields_bind ..).2 ⟨⟨⟩, _, (yields_modify ..).2 rfl, ?_⟩⟩
  · exact (yields_bind ..).2 ⟨b, w₁, hopen, (yields_onHost ..).2 ⟨w₁.host, hyields, rfl⟩⟩
  · exact (yields_pure ..).2 ⟨rfl, rfl⟩

end Workshop

namespace Recipe

variable {r : Recipe} {w w' v : Workshop} {j : Job} {g h : Host} {is : List Instruction}

/-- The user in the target of instructions: that of base images, if it is needed. -/
def defaultUser (r : Recipe) (is : List Instruction) (w : Workshop) : String :=
  if Instruction.needsDefaultUser is then w.userOf r.backend else "root"

private theorem exists_target (hk : r.backend ≠ .daemon) (hb : Instruction.needsDefaultUser is = true →
    ∃ base, Instruction.baseReference? is = some base) :
    ∃ w', Yields (r.target is) w (r.targetAs w.settings (r.defaultUser is w)) w' ∧ Alike w w' := by
  unfold defaultUser
  cases hn : Instruction.needsDefaultUser is with
  | false => exact ⟨w, yields_target_of_not_needs hn, .refl w⟩
  | true =>
    obtain ⟨base, hbase⟩ := hb hn
    obtain ⟨w', huser, halike⟩ := exists_defaultUser hk w base
    refine ⟨w', ?_, halike⟩
    rw [← halike.settings]
    exact yields_target_of_baseUser hn ((yields_bind ..).2 ⟨base, w, yields_baseOf.2 ⟨hbase, rfl⟩, huser⟩)

private theorem base_of_yields_target {t : Target} (hy : Yields (r.target is) w t w')
    (hn : Instruction.needsDefaultUser is = true) : ∃ base, Instruction.baseReference? is = some base := by
  unfold target at hy
  rw [if_pos hn] at hy
  obtain ⟨base, _, hbase, -⟩ := (yields_bind ..).1 hy
  exact ⟨base, (yields_baseOf.1 hbase).1⟩

/-- A recipe has a mirror of its own defined for what it builds. -/
def mirrors (r : Recipe) : Bool := r.isolate && r.backend.builder = .daemon

/-- Where the definition of the local mirror goes. -/
def mirrorPath (r : Recipe) (x : RepositoryDefinition) : String :=
  Path.join (WorkDirectory.repositories ⟨r.workDirectory⟩) x.fileName

/-- What a recipe does to the host to define the local mirror. -/
inductive Mirrors (r : Recipe) (settings : Settings) (h : Host) : Host → Prop
  | unneeded (hno : r.mirrors = false) : Mirrors r settings h h
  | written {h' : Host} {x : RepositoryDefinition} (hyes : r.mirrors = true)
      (hx : r.distribution.localRepository settings.repositoryName = .ok x)
      (hy : Yields (Host.writeText (r.mirrorPath x) x.contents) h () h') : Mirrors r settings h h'

theorem yields_writeMirror {u : Unit} : Yields (r.writeMirror ⟨r.workDirectory⟩) w u w' ↔
    ∃ h, r.Mirrors w.settings w.host h ∧ { w with host := h } = w' := by
  unfold writeMirror
  split
  · next hyes =>
    simp only [yields_bind, yields_get, yields_workshopOfExcept, yields_onHost, yields_pure]
    constructor
    · rintro ⟨_, _, ⟨rfl, rfl⟩, x, _, ⟨hx, rfl⟩, _, _, ⟨h, hy, rfl⟩, -, rfl⟩
      obtain ⟨_, _, hwrite, hpath⟩ := (yields_bind ..).1 hy
      obtain ⟨-, rfl⟩ := (yields_pure ..).1 hpath
      exact ⟨_, .written hyes hx ((yields_onFiles ..).1 hwrite), rfl⟩
    · rintro ⟨h, hmirrors, rfl⟩
      cases hmirrors with
      | unneeded hno => exact absurd hyes (by simpa [mirrors] using hno)
      | @written h x _ hx hy =>
        refine ⟨w, w, ⟨rfl, rfl⟩, x, w, ⟨hx, rfl⟩, r.mirrorPath x, { w with host := h }, ⟨h, ?_, rfl⟩, trivial, rfl⟩
        exact (yields_bind ..).2 ⟨(), h, (yields_onFiles ..).2 hy, (yields_pure ..).2 ⟨rfl, rfl⟩⟩
  · next hno =>
    constructor
    · intro hy
      obtain ⟨-, rfl⟩ := (yields_pure ..).1 hy
      exact ⟨w.host, .unneeded (by simpa [mirrors] using hno), rfl⟩
    · rintro ⟨h, hmirrors, rfl⟩
      cases hmirrors with
      | unneeded => exact (yields_pure ..).2 ⟨rfl, rfl⟩
      | written hyes => exact absurd hyes hno

/-- A recipe settles on a job, and leaves a host, with a backend other than the daemon. -/
structure SettlesOn (r : Recipe) (w : Workshop) (j : Job) (h : Host) : Prop where
  directory : j.directory = ⟨r.workDirectory⟩
  instructions : w.session.resolveBases r.instructions = .ok j.instructions
  base : Instruction.needsDefaultUser j.instructions = true →
    ∃ base, Instruction.baseReference? j.instructions = some base
  plan : ∃ lock, Yields r.loadLock w lock w ∧
    Plan.compile j.instructions lock (r.targetAs w.settings (r.defaultUser j.instructions w)) = .ok j.plan
  mirror : r.Mirrors w.settings w.host h
  context : Yields (BuildContext.digest j.directory j.instructions j.plan) { w with host := h } j.context
    { w with host := h }

theorem yields_loadLock_of_host (hh : v.host = w.host) {lock : Lockfile} (hy : Yields r.loadLock w lock w') :
    w' = w ∧ Yields r.loadLock v lock v :=
  yields_loadLock_congr (by rw [hh]) (by rw [hh]; exact .refl ..) hy

private theorem yields_digest_of_host {d : WorkDirectory} {p : Plan} {c : String}
    (hy : Yields (BuildContext.digest d is p) w c w') (hh : v.host = w.host) : Yields (BuildContext.digest d is p) v c v :=
  BuildContext.yields_digest_congr (fun _ _ => by rw [hh]) hy

theorem settlesOn_of_yields (hk : r.backend ≠ .daemon) (hy : Yields r.settle w j w') :
    r.SettlesOn w j w'.host ∧ Alike { w with host := w'.host } w' := by
  obtain ⟨is, _, hinstructions, hy⟩ := (yields_bind ..).1 hy
  obtain ⟨his, rfl⟩ := yields_resolvedInstructions.1 hinstructions
  obtain ⟨b, w₁, hopen, hy⟩ := (yields_bind ..).1 hy
  obtain ⟨lock, w₂, hlock, hy⟩ := (yields_bind ..).1 hy
  obtain ⟨t, w₃, htarget, hy⟩ := (yields_bind ..).1 hy
  obtain ⟨_, w₄, hmirror, hy⟩ := (yields_bind ..).1 hy
  obtain ⟨p, _, hcompile, hy⟩ := (yields_bind ..).1 hy
  obtain ⟨hplan, rfl⟩ := (yields_workshopOfExcept ..).1 hcompile
  obtain ⟨context, _, hcontext, hy⟩ := (yields_bind ..).1 hy
  obtain rfl := (BuildContext.keeps_digest ..).yields hcontext
  obtain ⟨rfl, rfl⟩ := (yields_pure ..).1 hy
  obtain ⟨b', w₁', hopen', -, ha₁⟩ := exists_openBackend hk w
  obtain ⟨rfl, rfl⟩ := hopen.unique hopen'
  obtain ⟨rfl, hlock'⟩ := yields_loadLock_of_host ha₁.host.symm hlock
  have hbase : Instruction.needsDefaultUser is = true → ∃ base, Instruction.baseReference? is = some base :=
    base_of_yields_target htarget
  obtain ⟨w₃', htarget', ha₃⟩ := exists_target (w := w₂) hk hbase
  obtain ⟨rfl, rfl⟩ := htarget.unique htarget'
  obtain ⟨h, hmirrors, rfl⟩ := yields_writeMirror.1 hmirror
  have ha := ha₁.trans ha₃
  refine ⟨⟨rfl, his, hbase, ⟨lock, hlock', ?_⟩, ?_, ?_⟩, ha.withHost h⟩
  · rw [← hplan, ha₁.settings]
    unfold defaultUser
    rw [ha₁.userOf]
  · rw [← ha.settings, ← ha.host]
    exact hmirrors
  · exact yields_digest_of_host hcontext rfl

theorem SettlesOn.yields (hk : r.backend ≠ .daemon) (hs : r.SettlesOn w j h) :
    ∃ w', Yields r.settle w j w' ∧ Alike { w with host := h } w' := by
  obtain ⟨lock, hlock, hplan⟩ := hs.plan
  obtain ⟨b, w₁, hopen, -, ha₁⟩ := exists_openBackend hk w
  obtain ⟨-, hlock'⟩ := yields_loadLock_of_host ha₁.host hlock
  obtain ⟨w₂, htarget, ha₂⟩ := exists_target (w := w₁) hk hs.base
  have ha := ha₁.trans ha₂
  have hmirror : Yields (r.writeMirror ⟨r.workDirectory⟩) w₂ () { w₂ with host := h } := by
    refine yields_writeMirror.2 ⟨h, ?_, rfl⟩
    rw [ha.settings, ha.host]
    exact hs.mirror
  refine ⟨{ w₂ with host := h }, ?_, ha.withHost h⟩
  obtain ⟨directory, is, p, context⟩ := j
  obtain rfl : directory = ⟨r.workDirectory⟩ := hs.directory
  refine (yields_bind ..).2 ⟨is, w, yields_resolvedInstructions.2 ⟨hs.instructions, rfl⟩, ?_⟩
  refine (yields_bind ..).2 ⟨b, w₁, hopen, (yields_bind ..).2 ⟨lock, w₁, hlock', ?_⟩⟩
  refine (yields_bind ..).2 ⟨_, w₂, htarget, (yields_bind ..).2 ⟨(), _, hmirror, ?_⟩⟩
  refine (yields_bind ..).2 ⟨p, _, (yields_workshopOfExcept ..).2 ⟨?_, rfl⟩, ?_⟩
  · rw [← hplan, ha₁.settings]
    unfold defaultUser
    rw [ha₁.userOf]
  · refine (yields_bind ..).2 ⟨context, _, ?_, (yields_pure ..).2 ⟨rfl, rfl⟩⟩
    exact yields_digest_of_host hs.context rfl

/-- From a workshop that agrees on all that a job depends on, a recipe settles on the same job. -/
theorem SettlesOn.congr (hs : r.SettlesOn w j h) (hsettings : v.settings = w.settings)
    (hinstructions : v.session.resolveBases r.instructions = w.session.resolveBases r.instructions)
    (huser : v.userOf r.backend = w.userOf r.backend) (hdirectory : v.host.directory = w.host.directory)
    (hlock : w.host.files.SameAt v.host.files w.host.directory r.lockfile) (hmirror : r.Mirrors v.settings v.host g)
    (hsources : ∀ e ∈ BuildContext.placesOf j.directory j.instructions j.plan,
      BuildContext.sourceAt g e.2 = BuildContext.sourceAt h e.2) : r.SettlesOn v j g where
  directory := hs.directory
  instructions := hinstructions.trans hs.instructions
  base := hs.base
  plan := by
    obtain ⟨lock, hload, hplan⟩ := hs.plan
    refine ⟨lock, (yields_loadLock_congr hdirectory hlock hload).2, ?_⟩
    rw [← hplan, hsettings]
    unfold defaultUser
    rw [huser]
  mirror := hmirror
  context := BuildContext.yields_digest_congr hsources hs.context

end Recipe

end ImageRecipe
