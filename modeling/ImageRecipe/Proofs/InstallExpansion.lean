import Mathlib.Data.List.Infix
import ImageRecipe.Proofs.BackendAgreement
import ImageRecipe.Proofs.DefaultUser
import ImageRecipe.Proofs.Lockfiles
import ImageRecipe.Proofs.PinnedInstalls

/-! What installs come to. The daemon has a plan for instructions just when every package that they install has a pin;
each install then lists its pins in the order of their names, and one whose packages are index files leaves nothing.
Of installs without all their pins the first one is named in the error, with every package that it lacks. -/

namespace ImageRecipe

/-- Whether a text stands inside another can be told from the characters around it. -/
theorem Text.occursIn_iff {part : List Char} : ∀ {cs : List Char}, occursIn part cs = true ↔ part <:+: cs
  | [] => by simp [occursIn]
  | c :: r => by
    rw [occursIn, Bool.or_eq_true, @occursIn_iff part r, List.isPrefixOf_iff_prefix, List.infix_cons_iff]

/-- A package that is an index file, shipped beside packages and never pinned. -/
def IsIndexFile (name : String) : Prop := metaMarker.toList <:+: name.toList

theorem Instruction.mem_wantedPackages {packages : SortedSet String} {name : String} :
    name ∈ wantedPackages packages ↔ name ∈ packages ∧ ¬ IsIndexFile name := by
  unfold wantedPackages IsIndexFile
  rw [List.mem_filter, ← SortedSet.mem_def, ← Text.occursIn_iff]
  simp

theorem Instruction.pairwise_wantedPackages (packages : SortedSet String) :
    (wantedPackages packages).Pairwise (· < ·) := packages.ascending.filter _

namespace Lockfile

variable {l : Lockfile} {d : Distribution} {a : Architecture} {names : List String} {pins : List Pin} {t : Target}

/-- A lockfile has a pin of a package that can be installed on an architecture. -/
def Pins (l : Lockfile) (d : Distribution) (a : Architecture) (name : String) : Prop :=
  ∃ p ∈ l.pins d, p.name = name ∧ p.installableOn d a = true

theorem Unambiguous.isSome_lookup_iff (hl : l.Unambiguous) {name : String} :
    (l.lookup name d a).isSome = true ↔ l.Pins d a name := by
  rw [Option.isSome_iff_exists]
  simp only [hl.lookup_eq_some_iff, Pins]

/-- The pins that are found are those of the packages, in the same order. -/
theorem Unambiguous.pinsFor_ok (hl : l.Unambiguous) (h : l.pinsFor names d a = .ok pins) :
    pins.map Pin.name = names ∧ ∀ p ∈ pins, p ∈ l.pins d ∧ p.installableOn d a = true := by
  have hfound := exists_pinsFor_iff.1 ⟨pins, h⟩
  have hpins : pins = names.filterMap fun n => l.lookup n d a := by
    unfold pinsFor at h
    dsimp only at h
    split at h
    · exact (Except.ok.inj h).symm
    · cases h
  subst hpins
  clear h
  induction names with
  | nil => simp
  | cons n r ih =>
    obtain ⟨p, hp⟩ := Option.isSome_iff_exists.1 (hfound n List.mem_cons_self)
    obtain ⟨hmem, hname, hinstallable⟩ := hl.lookup_eq_some_iff.1 hp
    obtain ⟨hnames, hall⟩ := ih fun m hm => hfound m (.tail n hm)
    simp only [List.filterMap_cons, hp]
    exact ⟨by rw [List.map_cons, hnames, hname], List.forall_mem_cons.2 ⟨⟨hmem, hinstallable⟩, hall⟩⟩

/-- If pins are missing, the error names each package without one, in order. -/
theorem Unambiguous.pinsFor_error (hl : l.Unambiguous) {e : LockError} (hnames : names.Pairwise (· < ·))
    (h : l.pinsFor names d a = .error e) :
    ∃ missing, e = .unresolved d a missing ∧ missing.Pairwise (· < ·) ∧
      ∀ n, n ∈ missing ↔ n ∈ names ∧ ¬ l.Pins d a n := by
  unfold pinsFor at h
  dsimp only at h
  split at h
  · cases h
  · have hsorted := hnames.filter fun n => (l.lookup n d a).isNone
    have hle : ∀ {s t : String}, s < t → decide (s ≤ t) = true :=
      fun hlt => decide_eq_true (String.not_lt.1 fun hgt => String.lt_irrefl _ (String.lt_trans hlt hgt))
    rw [List.mergeSort_of_pairwise (hsorted.imp hle)] at h
    refine ⟨_, (Except.error.inj h).symm, hsorted, fun n => ?_⟩
    rw [List.mem_filter, ← hl.isSome_lookup_iff]
    simp

/-- A lockfile has a pin for every package of an install that is no index file. -/
def Supplies (l : Lockfile) (t : Target) (packages : SortedSet String) : Prop :=
  ∀ name ∈ packages, ¬ IsIndexFile name → l.Pins t.distribution t.architecture name

theorem Unambiguous.covers_iff (hl : l.Unambiguous) {is : List Instruction} :
    l.Covers t is ↔ ∀ packages, .install packages ∈ is → l.Supplies t packages := by
  simp only [Covers, Supplies, Instruction.mem_wantedPackages, hl.isSome_lookup_iff, and_imp]

end Lockfile

/-- What an install comes to under a user: nothing if it has only index files, else an install of the pins of its
packages, as root. -/
inductive Lockfile.Installs (l : Lockfile) (t : Target) (mounts : List Mount) (user : String)
    (packages : SortedSet String) : List Directive → Prop
  | nothing (hindex : ∀ name ∈ packages, IsIndexFile name) : Installs l t mounts user packages []
  | pins (pins : List Pin) (commands : List String)
    (hsome : ∃ name ∈ packages, ¬ IsIndexFile name)
    (hnames : (pins.map Pin.name).Pairwise (· < ·))
    (hmem : ∀ name, name ∈ pins.map Pin.name ↔ name ∈ packages ∧ ¬ IsIndexFile name)
    (hpins : ∀ p ∈ pins, p ∈ l.pins t.distribution ∧ p.installableOn t.distribution t.architecture = true)
    (hcommands : t.distribution.wrapInstall t.isolate
      (t.distribution.installCommand (pins.map (Pin.render t.distribution))) = .ok commands) :
    Installs l t mounts user packages [.user "root", .run commands mounts, .user user]

/-- An error names what the first install lacks that has not all its pins: the packages without one, in order. -/
def Lockfile.Lacks (l : Lockfile) (t : Target) (is : List Instruction) (e : CompileError) : Prop :=
  ∃ before packages after missing, is = before ++ .install packages :: after ∧
    (∀ ps, .install ps ∈ before → l.Supplies t ps) ∧ ¬ l.Supplies t packages ∧
    e = .lock (.unresolved t.distribution t.architecture missing) ∧ missing.Pairwise (· < ·) ∧
    ∀ n, n ∈ missing ↔ n ∈ packages ∧ ¬ IsIndexFile n ∧ ¬ l.Pins t.distribution t.architecture n

theorem Lockfile.Lacks.cons {l : Lockfile} {t : Target} {i : Instruction} {r : List Instruction} {e : CompileError}
    (h : l.Lacks t r e) (hi : ∀ packages, i = .install packages → l.Supplies t packages) : l.Lacks t (i :: r) e := by
  obtain ⟨before, packages, after, missing, rfl, hall, hrest⟩ := h
  refine ⟨i :: before, packages, after, missing, rfl, fun ps hmem => ?_, hrest⟩
  rcases List.mem_cons.1 hmem with heq | hmem
  · exact hi ps heq.symm
  · exact hall ps hmem

theorem Distribution.exists_wrapInstall {d : Distribution} {isolate : Bool}
    (h : isolate = true → d ≠ .alpine) (install : String) :
    ∃ commands, d.wrapInstall isolate install = .ok commands := by
  cases isolate with
  | false => cases d <;> exact ⟨_, rfl⟩
  | true =>
    cases d with
    | alpine => exact absurd rfl (h rfl)
    | _ => exact ⟨_, rfl⟩

namespace Target

variable {t : Target} {l : Lockfile} {mounts : List Mount} {user : String} {packages : SortedSet String}

theorem installCommands_of_nil (h : Instruction.wantedPackages packages = []) :
    t.installCommands l packages = .ok none := by
  unfold installCommands
  rw [h]

theorem installCommands_of_ne_nil (h : Instruction.wantedPackages packages ≠ []) :
    t.installCommands l packages = (do
      let pins ← (l.pinsFor (Instruction.wantedPackages packages) t.distribution t.architecture).mapError .lock
      let commands ← (t.distribution.wrapInstall t.isolate
        (t.distribution.installCommand (pins.map (Pin.render t.distribution)))).mapError .distribution
      pure (some commands)) := by
  unfold installCommands
  cases hnames : Instruction.wantedPackages packages with
  | nil => exact absurd hnames h
  | cons n r => rfl

/-- An install comes to directives, or else to an error that names the packages without a pin. -/
theorem directives_install (hl : l.Unambiguous) (hisolate : t.isolate = true → t.distribution ≠ .alpine)
    (mounts : List Mount) (user : String) (packages : SortedSet String) :
    (l.Supplies t packages ∧ ∃ here, t.directives l mounts user (.install packages) = .ok (here, user) ∧
        l.Installs t mounts user packages here) ∨
      ∃ e, t.directives l mounts user (.install packages) = .error e ∧
        ∀ after, l.Lacks t (.install packages :: after) e := by
  have hwanted := @Instruction.mem_wantedPackages packages
  by_cases hnil : Instruction.wantedPackages packages = []
  · have hindex : ∀ name ∈ packages, IsIndexFile name := by
      intro name hname
      by_contra hmarked
      simpa [hnil] using hwanted.2 ⟨hname, hmarked⟩
    refine .inl ⟨fun name hname hmarked => absurd (hindex name hname) hmarked, [], ?_, .nothing hindex⟩
    rw [directives, installCommands_of_nil hnil]
    rfl
  obtain ⟨n, hn⟩ := List.exists_mem_of_ne_nil _ hnil
  rw [directives, installCommands_of_ne_nil hnil]
  cases hpins : l.pinsFor (Instruction.wantedPackages packages) t.distribution t.architecture with
  | ok pins =>
    obtain ⟨hmap, hmem⟩ := hl.pinsFor_ok hpins
    obtain ⟨commands, hcommands⟩ := Distribution.exists_wrapInstall hisolate
      (t.distribution.installCommand (pins.map (Pin.render t.distribution)))
    have hfound := Lockfile.exists_pinsFor_iff.1 ⟨pins, hpins⟩
    refine .inl ⟨fun name hname hmarked => hl.isSome_lookup_iff.1 (hfound name (hwanted.2 ⟨hname, hmarked⟩)), _, ?_,
      .pins pins commands ⟨n, hwanted.1 hn⟩ ?_ (fun name => by rw [hmap, hwanted]) hmem hcommands⟩
    · rw [mapError_ok]
      dsimp only [bind, Except.bind]
      rw [hcommands]
      rfl
    · rw [hmap]
      exact Instruction.pairwise_wantedPackages packages
  | error e =>
    obtain ⟨missing, rfl, hsorted, hmissing⟩ :=
      hl.pinsFor_error (Instruction.pairwise_wantedPackages packages) hpins
    refine .inr ⟨_, rfl, fun after => ⟨[], packages, after, missing, rfl, by simp, fun hsupplies => ?_, rfl, hsorted,
      fun m => by rw [hmissing, hwanted, and_assoc]⟩⟩
    obtain ⟨pins, hok⟩ := Lockfile.exists_pinsFor_iff.2 fun m hm =>
      (hl.isSome_lookup_iff (d := t.distribution) (a := t.architecture)).2
        (hsupplies m (hwanted.1 hm).1 (hwanted.1 hm).2)
    rw [hpins] at hok
    cases hok

/-- What installs no packages and lacks no base comes to directives in any case. -/
theorem exists_directives (t : Target) (l : Lockfile) (mounts : List Mount) {i : Instruction} (hi : i.isInstall = false)
    (hbase : ∀ project id, i ≠ .builtBase project none id) (user : String) :
    ∃ here, t.directives l mounts user i = .ok (here, i.userAfter user) := by
  obtain ⟨here, hhere⟩ := directives_of_not_install t l mounts hi
  cases here with
  | ok here => exact ⟨here, hhere user⟩
  | error e =>
    have herror := hhere user
    cases i with
    | install => cases hi
    | builtBase project tag id =>
      cases tag with
      | none => exact absurd rfl (hbase project id)
      | some tag => cases herror
    | _ => cases herror

/-- The directives in each block are those of its instruction under the user that was set last. -/
theorem directives_of_blocksFrom : ∀ {is : List Instruction} {user : String}
    {bs before after : List (Instruction × List Directive)} {i : Instruction} {here : List Directive},
    t.blocksFrom l mounts user is = .ok bs → bs = before ++ (i, here) :: after →
    ∃ next, t.directives l mounts ((Instruction.lastUser? (before.map Prod.fst)).getD user) i = .ok (here, next)
  | [], _, _, before, _, _, _, h, hbs => by
    rw [← Except.ok.inj h] at hbs
    simp at hbs
  | j :: r, user, _, before, after, i, here, h, hbs => by
    obtain ⟨first, next, rest, hfirst, hrest, rfl⟩ := blocksFrom_cons_eq_ok.1 h
    obtain ⟨rfl, -⟩ := comesTo_of_directives hfirst
    cases before with
    | nil =>
      cases hbs
      exact ⟨_, hfirst⟩
    | cons b before =>
      rw [List.cons_append, List.cons.injEq] at hbs
      obtain ⟨rfl, hbs⟩ := hbs
      rw [List.map_cons, Instruction.lastUser?_cons]
      exact directives_of_blocksFrom hrest hbs

/-- Instructions come to blocks if every install has its pins. Else they come to an error about the first one that has
not. -/
theorem blocksFrom_cases (hl : l.Unambiguous)
    (hisolate : t.isolate = true → t.distribution ≠ .alpine) :
    ∀ (is : List Instruction) (user : String), (∀ project id, .builtBase project none id ∉ is) →
      ((∀ packages, .install packages ∈ is → l.Supplies t packages) ∧
          ∃ bs, t.blocksFrom l mounts user is = .ok bs) ∨
        ∃ e, t.blocksFrom l mounts user is = .error e ∧ l.Lacks t is e
  | [], _, _ => .inl ⟨by simp, [], rfl⟩
  | i :: r, user, hbase => by
    have hfirst : (∃ here next, t.directives l mounts user i = .ok (here, next) ∧
          ∀ packages, i = .install packages → l.Supplies t packages) ∨
        ∃ e, t.directives l mounts user i = .error e ∧ l.Lacks t (i :: r) e := by
      cases hinstall : i.isInstall with
      | false =>
        obtain ⟨here, hhere⟩ := exists_directives t l mounts hinstall
          (fun p id heq => hbase p id (heq ▸ List.mem_cons_self)) user
        refine .inl ⟨here, _, hhere, ?_⟩
        rintro packages rfl
        cases hinstall
      | true =>
        obtain ⟨packages, rfl⟩ : ∃ packages, i = .install packages := by
          cases i with
          | install packages => exact ⟨packages, rfl⟩
          | _ => cases hinstall
        rcases directives_install hl hisolate mounts user packages with
          ⟨hsupplies, here, hhere, -⟩ | ⟨e, herror, hlacks⟩
        · exact .inl ⟨here, user, hhere, fun _ heq => by cases heq; exact hsupplies⟩
        · exact .inr ⟨e, herror, hlacks r⟩
    rw [blocksFrom]
    rcases hfirst with ⟨here, next, hhere, hi⟩ | ⟨e, herror, hlacks⟩
    · rw [hhere]
      dsimp only [bind, Except.bind]
      rcases blocksFrom_cases hl hisolate r next fun p id h => hbase p id (.tail i h) with
        ⟨hall, bs, hbs⟩ | ⟨e, herror, hlacks⟩
      · rw [hbs]
        refine .inl ⟨fun packages hmem => ?_, _, rfl⟩
        rcases List.mem_cons.1 hmem with heq | hmem
        · exact hi packages heq.symm
        · exact hall packages hmem
      · rw [herror]
        exact .inr ⟨e, rfl, hlacks.cons hi⟩
    · rw [herror]
      exact .inr ⟨e, rfl, hlacks⟩

end Target

theorem Instruction.not_mem_builtBase_none {is : List Instruction} (hvalid : validate is = .ok ())
    (hbase : (baseReference? is).isSome = true) (project : String) (id : Option String) :
    .builtBase project none id ∉ is := by
  obtain ⟨i, rest, rfl, -, hrest⟩ := validate_ok hvalid
  intro hmem
  rcases List.mem_cons.1 hmem with rfl | hmem
  · cases hbase
  · have := hrest _ hmem
    cases this

/-- Compiling for the daemon succeeds and fails with the blocks of the instructions. -/
theorem Plan.compile_eq_blocks {is : List Instruction} (l : Lockfile) {t : Target} {mounts : List Mount}
    (hvalid : Instruction.validate is = .ok ()) (ht : t.builder = .daemon) (hmounts : t.mounts = .ok mounts) :
    compile is l t = (t.blocksFrom l mounts t.defaultUser is).map fun bs => .daemon
      ⟨(bs.flatMap Prod.snd).map Directive.render, SortedMap.ofList (mounts.map fun m => (m.name, m.source))⟩ := by
  unfold compile
  rw [hvalid, ht]
  change (t.daemonPlan l is).map Plan.daemon = _
  unfold Target.daemonPlan
  rw [hmounts]
  change (t.directivesFrom l mounts t.defaultUser is >>= _).map Plan.daemon = _
  rw [Target.directivesFrom_eq]
  cases t.blocksFrom l mounts t.defaultUser is <;> rfl

namespace Sample

/-- Two installs, the first of them with an index file beside its package. -/
def provisioning : List Instruction := [
  .builtBase "base" (some "base:1") none,
  .install (SortedSet.ofList ["libc", "__META__Packages"]),
  .setUser "alice",
  .install (SortedSet.ofList ["tool", "libc", "gadget"])]

def debianMirror : Target := { distribution := .debian, architecture := .x86, builder := .daemon, isolate := true }

end Sample

end ImageRecipe
