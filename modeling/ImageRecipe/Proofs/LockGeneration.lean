import ImageRecipe.Proofs.CacheHistory
import ImageRecipe.Proofs.Partitions
import ImageRecipe.Proofs.PinnedInstalls

/-! Generating a lockfile: the backend is asked about the base image on one architecture after the other, and the
lockfile takes in its answers. -/

namespace ImageRecipe

open Workshop

namespace Lockfile

variable {l : Lockfile} {d : Distribution}

/-- Answers fit their architectures: each gives only what can be installed on its own, and once a package came for all
architectures it comes so in every later answer. -/
def Fits (d : Distribution) : List Answer → Prop
  | [] => True
  | x :: r => (∀ p ∈ x.2, p.installableOn d x.1 = true) ∧
      (∀ p ∈ x.2, isArchIndependent p.architecture = true → ∀ y ∈ r, ∀ q ∈ y.2, q.name = p.name →
        isArchIndependent q.architecture = true) ∧ Fits d r

/-- Of answers that fit, each name that is in all of them keeps a pin for each of their architectures. -/
theorem Fits.exists_lasts {name : String} : ∀ {answers : List Answer}, Fits d answers →
    (∀ x ∈ answers, ∃ p ∈ x.2, p.name = name) → ∀ a ∈ answers.map Prod.fst,
      ∃ p : Pin, p.Lasts d answers ∧ p.name = name ∧ p.installableOn d a = true
  | x :: r, ⟨hown, hlater, hr⟩, hnames, a, ha => by
    have ih := hr.exists_lasts fun y hy => hnames y (.tail x hy)
    by_cases har : a ∈ r.map Prod.fst
    · obtain ⟨p, hlasts, hp⟩ := ih a har
      exact ⟨p, .inl hlasts, hp⟩
    · have hax : a = x.1 := by simpa [har] using ha
      obtain ⟨p, hmem, hname⟩ := hnames x List.mem_cons_self
      have hp := hown p hmem
      by_cases hall : isArchIndependent p.architecture = true
      · -- the pin itself is replaced by the next answer, and so on to the last
        cases r with
        | nil => exact ⟨p, .inr ⟨hmem, by simp⟩, hname, hax ▸ hp⟩
        | cons y r =>
          obtain ⟨q, hlasts, hq, -⟩ := ih y.1 (by simp)
          obtain ⟨z, hz, hqz⟩ := hlasts.exists_mem
          have := hlater p hmem hall z hz q hqz (hq.trans hname.symm)
          exact ⟨q, .inl hlasts, hq, Pin.installableOn_of_isArchIndependent this⟩
      · refine ⟨p, .inr ⟨hmem, fun y hy => ?_⟩, hname, hax ▸ hp⟩
        rw [Bool.eq_false_iff]
        intro hpy
        refine hall (Pin.isArchIndependent_of_installableOn hp hpy fun heq => har ?_)
        rw [hax, heq]
        exact List.mem_map_of_mem hy

end Lockfile

namespace Recipe

variable {r : Recipe} {w w' : Workshop} {l lock : Lockfile} {base : String} {packages : List String}
  {architectures : List Architecture} {answers : List Answer}

/-- The backend is asked for packages in a base image on one architecture after the other. -/
inductive Asked (r : Recipe) (base : String) (packages : List String) : Workshop → List Answer → Workshop → Prop
  | nil (w : Workshop) : Asked r base packages w [] w
  | cons {w v w' : Workshop} {a : Architecture} {pins : List Pin} {answers : List Answer}
    (first : Yields (withOpen r.backend (Backend.resolvePackages base r.distribution a packages)) w pins v)
    (rest : Asked r base packages v answers w') : Asked r base packages w ((a, pins) :: answers) w'

/-- To lock for an architecture is to ask and to take in the answer. -/
theorem lockFor_eq (r : Recipe) (base : String) (packages : List String) (l : Lockfile) (a : Architecture) :
    r.lockFor base packages l a =
      withOpen r.backend (Backend.resolvePackages base r.distribution a packages) >>= fun pins =>
        Workshop.ofExcept .ofLock (l.adopt r.distribution packages (a, pins)) := by
  unfold lockFor Lockfile.adopt
  refine bind_congr fun pins => ?_
  cases hmissing : (packages.filter fun n => !pins.any fun p => p.name == n).isEmpty with
  | true =>
    simp only [hmissing]
    rcases l.replacePartition r.distribution a pins with ⟨l₁, _ | _⟩ <;> rfl
  | false =>
    simp only [hmissing]
    rfl

/-- Locking for architectures in a row comes to a lockfile when the backend answers for each of them and the
lockfile can take in the answers. -/
theorem yields_foldlM_lockFor :
    Yields (architectures.foldlM (r.lockFor base packages) l) w lock w' ↔
      ∃ answers, answers.map Prod.fst = architectures ∧ r.Asked base packages w answers w' ∧
        l.adoptAll r.distribution packages answers = .ok lock := by
  induction architectures generalizing l w with
  | nil =>
    rw [List.foldlM_nil, yields_pure]
    constructor
    · rintro ⟨rfl, rfl⟩
      exact ⟨[], rfl, .nil w, rfl⟩
    · rintro ⟨answers, hmap, hasked, hadopt⟩
      cases List.map_eq_nil_iff.1 hmap
      cases hasked
      exact ⟨Except.ok.inj hadopt, rfl⟩
  | cons a rest ih =>
    rw [List.foldlM_cons, yields_bind]
    constructor
    · rintro ⟨l₁, v₁, hfirst, hrest⟩
      rw [lockFor_eq, yields_bind] at hfirst
      obtain ⟨pins, v, hpins, hanswer⟩ := hfirst
      obtain ⟨hadopt, rfl⟩ := (yields_workshopOfExcept ..).1 hanswer
      obtain ⟨answers, hmap, hasked, hadoptAll⟩ := ih.1 hrest
      exact ⟨(a, pins) :: answers, by rw [List.map_cons, hmap], .cons hpins hasked,
        Lockfile.adoptAll_cons_eq_ok.2 ⟨l₁, hadopt, hadoptAll⟩⟩
    · rintro ⟨_, hmap, hasked, hadopt⟩
      cases hasked with
      | nil => cases hmap
      | @cons _ v _ b pins answers hpins hasked =>
        obtain ⟨rfl, hrest⟩ := List.cons.inj hmap
        obtain ⟨l₁, hfirst, hadoptAll⟩ := Lockfile.adoptAll_cons_eq_ok.1 hadopt
        refine ⟨l₁, v, ?_, ih.2 ⟨answers, hrest, hasked, hadoptAll⟩⟩
        rw [lockFor_eq, yields_bind]
        exact ⟨pins, v, hpins, (yields_workshopOfExcept ..).2 ⟨hfirst, rfl⟩⟩

/-- What a lockfile is generated from: the recipe's present lockfile, and the answers of the backend about the base
image. It is not asked for them if there is no package to ask for. -/
def Gathers (r : Recipe) (w : Workshop) (l : Lockfile) (answers : List Answer) (w' : Workshop) : Prop :=
  ∃ instructions base v, w.session.resolveBases r.instructions = .ok instructions ∧
    Instruction.baseReference? instructions = some base ∧ Yields r.loadLock w l v ∧
    if r.requestedPackages.isEmpty then v = w'
    else ∃ b v', Yields (openBackend r.backend) v b v' ∧ r.Asked base r.requestedPackages v' answers w'

/-- The lockfile that comes of gathering: the present one, with the answers taken in if there are packages to ask
for. -/
def gathered (r : Recipe) (l : Lockfile) (answers : List Answer) : Except LockError Lockfile :=
  if r.requestedPackages.isEmpty then .ok l else l.adoptAll r.distribution r.requestedPackages answers

/-- A generated lockfile is the one that comes of gathering, and it is written. -/
theorem yields_generateLock : Yields (r.generateLock architectures) w lock w' ↔
    ∃ l answers v, answers.map Prod.fst = architectures ∧ r.Gathers w l answers v ∧
      r.gathered l answers = .ok lock ∧ Yields (onHost .ofLock (lock.save r.lockfile)) v () w' := by
  unfold generateLock Gathers gathered
  cases hempty : r.requestedPackages.isEmpty with
  | true =>
    simp only [hempty, if_true, yields_bind, yields_resolvedInstructions, yields_baseOf, yields_pure]
    constructor
    · rintro ⟨instructions, _, ⟨hi, rfl⟩, base, _, ⟨hb, rfl⟩, l, v, hl, _, _, ⟨rfl, rfl⟩, _, _, hsave, rfl, rfl⟩
      refine ⟨l, architectures.map fun a => (a, []), v, ?_, ⟨instructions, base, v, hi, hb, hl, rfl⟩, rfl, hsave⟩
      simp [Function.comp_def]
    · rintro ⟨_, _, _, -, ⟨instructions, base, v, hi, hb, hl, rfl⟩, hlock, hsave⟩
      cases hlock
      exact ⟨instructions, _, ⟨hi, rfl⟩, base, _, ⟨hb, rfl⟩, _, v, hl, _, _, ⟨rfl, rfl⟩, _, _, hsave, rfl, rfl⟩
  | false =>
    simp only [hempty, Bool.false_eq_true, if_false, yields_bind, yields_resolvedInstructions, yields_baseOf,
      yields_pure, yields_foldlM_lockFor]
    constructor
    · rintro ⟨instructions, _, ⟨hi, rfl⟩, base, _, ⟨hb, rfl⟩, l, v, hl, b, v', hopen, _, w₁,
        ⟨answers, hmap, hasked, hadopt⟩, _, _, hsave, rfl, rfl⟩
      exact ⟨l, answers, w₁, hmap, ⟨instructions, base, v, hi, hb, hl, b, v', hopen, hasked⟩, hadopt, hsave⟩
    · rintro ⟨l, answers, w₁, hmap, ⟨instructions, base, v, hi, hb, hl, b, v', hopen, hasked⟩, hadopt, hsave⟩
      exact ⟨instructions, _, ⟨hi, rfl⟩, base, _, ⟨hb, rfl⟩, l, v, hl, b, v', hopen, lock, w₁,
        ⟨answers, hmap, hasked, hadopt⟩, (), w', hsave, rfl, rfl⟩

theorem unambiguous_of_loadLock (h : Yields r.loadLock w l w') : l.Unambiguous := by
  unfold loadLock at h
  obtain ⟨found, v, -, h⟩ := (yields_bind ..).1 h
  split at h
  · obtain ⟨host, hload, -⟩ := (yields_onHost ..).1 h
    obtain ⟨text, _, -, hparse⟩ := (yields_bind ..).1 hload
    exact .parse ((yields_ofExcept ..).1 hparse).1
  · obtain ⟨rfl, -⟩ := (yields_pure ..).1 h
    exact Lockfile.unambiguous_empty

/-- A lockfile serves a recipe on an architecture: it has a pin for each package that the recipe asks for, so that no
build of the recipe for the architecture fails over it. -/
def Served (r : Recipe) (lock : Lockfile) (a : Architecture) : Prop :=
  (∀ name ∈ r.requestedPackages, (lock.lookup name r.distribution a).isSome = true) ∧
    ∀ (s : Session) (instructions : List Instruction) (t : Target) (e : LockError),
      s.resolveBases r.instructions = .ok instructions → t.distribution = r.distribution → t.architecture = a →
        Plan.compile instructions lock t ≠ .error (.lock e)

theorem served_iff {a : Architecture} :
    r.Served lock a ↔ ∀ name ∈ r.requestedPackages, (lock.lookup name r.distribution a).isSome = true := by
  refine ⟨And.left, fun h => ⟨h, fun s instructions t e hresolve hd ha => ?_⟩⟩
  refine Plan.compile_ne_lock (covers ?_ hresolve)
  rwa [hd, ha]

/-- What a generated lockfile says of the packages of a recipe on the architectures that it was generated for is
decided by the answers of the backend. A look-up gives the pin of a package that comes out of the answers and can be
installed there, so the lockfile serves the recipe on the architecture just when each package has such a pin; and it
has if the answers fit their architectures. -/
theorem generateLock_served_iff (h : Yields (r.generateLock architectures) w lock w') :
    ∃ l answers v, r.Gathers w l answers v ∧ answers.map Prod.fst = architectures ∧
      (∀ a ∈ architectures, ∀ name ∈ r.requestedPackages, ∀ p, lock.lookup name r.distribution a = some p ↔
        p.Lasts r.distribution answers ∧ p.name = name ∧ p.installableOn r.distribution a = true) ∧
      (∀ a ∈ architectures, r.Served lock a ↔ ∀ name ∈ r.requestedPackages, ∃ p : Pin,
        p.Lasts r.distribution answers ∧ p.name = name ∧ p.installableOn r.distribution a = true) ∧
      (Lockfile.Fits r.distribution answers → ∀ a ∈ architectures, r.Served lock a) := by
  obtain ⟨l, answers, v, hmap, hgathers, hgathered, -⟩ := yields_generateLock.1 h
  refine ⟨l, answers, v, hgathers, hmap, ?_⟩
  cases hpackages : r.requestedPackages with
  | nil => simp [served_iff, hpackages]
  | cons n rest =>
    rw [← hpackages]
    unfold gathered at hgathered
    rw [if_neg (by simp [hpackages])] at hgathered
    obtain ⟨_, _, _, -, -, hload, -⟩ := hgathers
    have hlock : lock.Unambiguous := (unambiguous_of_loadLock hload).adoptAll hgathered
    have hlookup : ∀ a ∈ architectures, ∀ name p, lock.lookup name r.distribution a = some p ↔
        p.Lasts r.distribution answers ∧ p.name = name ∧ p.installableOn r.distribution a = true := by
      intro a ha name p
      rw [hlock.lookup_eq_some_iff, Lockfile.mem_pins_of_adoptAll hgathered]
      -- a pin from before the answers cannot be installed where it was asked
      refine ⟨?_, fun ⟨hlasts, hp⟩ => ⟨.inr ⟨rfl, hlasts⟩, hp⟩⟩
      rintro ⟨⟨-, hold⟩ | ⟨-, hlasts⟩, hname, hp⟩
      · obtain ⟨x, hx, rfl⟩ := List.mem_map.1 (hmap ▸ ha)
        rw [hold rfl x hx] at hp
        cases hp
      · exact ⟨hlasts, hname, hp⟩
    have hserved : ∀ a ∈ architectures, r.Served lock a ↔ ∀ name ∈ r.requestedPackages, ∃ p : Pin,
        p.Lasts r.distribution answers ∧ p.name = name ∧ p.installableOn r.distribution a = true := by
      intro a ha
      simp only [served_iff, Option.isSome_iff_exists, hlookup a ha]
    refine ⟨fun a ha name _ => hlookup a ha name, hserved, fun hfits a ha => ?_⟩
    rw [hserved a ha]
    exact fun name hname => hfits.exists_lasts
      (fun x hx => Lockfile.names_of_adoptAll hgathered x hx name hname) a (hmap ▸ ha)

/-- The answers of the mock backend are its own versions of the packages. -/
theorem Asked.eq_mock (hk : r.backend = .mock) (h : r.Asked base packages w answers w') :
    answers = (answers.map Prod.fst).map fun a => (a, Mock.resolvePackages r.distribution a packages) := by
  induction h with
  | nil => rfl
  | cons first _ ih =>
    rw [hk] at first
    obtain ⟨b, hopen, hrun⟩ := yields_withOpen (by decide) first
    obtain ⟨m, rfl⟩ := Backend.eq_mock (kind_of_backend? hopen.backend)
    rw [List.map_cons, List.map_cons, ← ih, ((yields_pure ..).1 hrun).1]

theorem Gathers.eq_mock (hk : r.backend = .mock) (hpackages : r.requestedPackages.isEmpty = false)
    (h : r.Gathers w l answers w') :
    answers = (answers.map Prod.fst).map fun a => (a, Mock.resolvePackages r.distribution a r.requestedPackages) := by
  obtain ⟨_, _, _, -, -, -, hasks⟩ := h
  rw [hpackages, if_neg (by simp)] at hasks
  obtain ⟨_, _, -, hasked⟩ := hasks
  exact hasked.eq_mock hk

end Recipe

theorem Architecture.not_isArchIndependent (m : PackageManager) (a : Architecture) :
    isArchIndependent (a.packageName m) = false := by
  cases m <;> cases a <;> decide

/-- The mock backend's versions are all for the architecture that they are asked for. -/
theorem Lockfile.fits_mock (d : Distribution) (packages : List String) : ∀ architectures : List Architecture,
    Fits d (architectures.map fun a => (a, Mock.resolvePackages d a packages))
  | [] => trivial
  | a :: r => by
    have hown : ∀ p ∈ Mock.resolvePackages d a packages, p.architecture = a.packageName d.packageManager := by
      simp [Mock.resolvePackages]
    refine ⟨fun p hp => by simp [Pin.installableOn, hown p hp], fun p hp hall => ?_, fits_mock d packages r⟩
    rw [hown p hp, Architecture.not_isArchIndependent] at hall
    cases hall

namespace Sample

/-- A recipe that installs a package. -/
def installing : Recipe :=
  { recipe .mock .x86 with instructions := [.base "i" "v" none, .install (SortedSet.ofList ["curl"])] }

theorem requestedPackages_installing : installing.requestedPackages.isEmpty = false := by decide

theorem isOk_generateLock : (ran (installing.generateLock [.x86, .arm]) workshop).1.isOk = true := by
  decide +kernel

end Sample

/-- The lockfile that is generated with the mock backend serves the recipe on both architectures. -/
theorem Recipe.generateLock_served_iff_sample :
    ∃ lock w', Yields (Sample.installing.generateLock [.x86, .arm]) Sample.workshop lock w' ∧
      Sample.installing.Served lock .x86 ∧ Sample.installing.Served lock .arm := by
  obtain ⟨lock, hlock⟩ := exists_of_isOk Sample.isOk_generateLock
  have h : Yields (Sample.installing.generateLock [.x86, .arm]) Sample.workshop lock _ := Prod.ext hlock rfl
  obtain ⟨l, answers, v, hgathers, -, -, -, hserved⟩ := generateLock_served_iff h
  have hfits : Lockfile.Fits Sample.installing.distribution answers := by
    rw [hgathers.eq_mock rfl Sample.requestedPackages_installing]
    exact Lockfile.fits_mock ..
  exact ⟨lock, _, h, hserved hfits .x86 (by simp), hserved hfits .arm (by simp)⟩

end ImageRecipe
