import ImageRecipe.Proofs.Actions
import ImageRecipe.Proofs.Instructions

/-! Installs under a lockfile. Instructions whose packages all have a pin never fail to compile for want of one, and
for no other reason that lies in the lockfile. -/

namespace ImageRecipe

variable {l : Lockfile} {e : LockError}

/-- The pins of packages are found just when each package has one. -/
theorem Lockfile.exists_pinsFor_iff {names : List String} {d : Distribution} {a : Architecture} :
    (∃ pins, l.pinsFor names d a = .ok pins) ↔ ∀ n ∈ names, (l.lookup n d a).isSome = true := by
  unfold pinsFor
  dsimp only
  split
  · next h => simpa [Option.isSome_iff_ne_none] using h
  · next h =>
    simp only [reduceCtorEq, exists_false, false_iff]
    exact fun hnames => h (by simpa [Option.isSome_iff_ne_none] using hnames)

/-- Whether a lockfile has a pin for every package that instructions install on a target. -/
def Lockfile.Covers (l : Lockfile) (t : Target) (instructions : List Instruction) : Prop :=
  ∀ packages, .install packages ∈ instructions → ∀ name ∈ Instruction.wantedPackages packages,
    (l.lookup name t.distribution t.architecture).isSome = true

namespace Target

variable {t : Target}

theorem installCommands_ne_lock {packages : SortedSet String}
    (h : ∀ name ∈ Instruction.wantedPackages packages, (l.lookup name t.distribution t.architecture).isSome = true) :
    t.installCommands l packages ≠ .error (.lock e) := by
  obtain ⟨pins, hpins⟩ := Lockfile.exists_pinsFor_iff.2 h
  unfold installCommands
  cases hwanted : Instruction.wantedPackages packages with
  | nil => simp
  | cons n r =>
    dsimp only
    rw [← hwanted, hpins]
    intro herror
    rcases bind_eq_error.1 herror with herror | ⟨_, -, herror⟩
    · cases herror
    · rcases bind_eq_error.1 herror with herror | ⟨_, -, herror⟩
      · obtain ⟨_, -, heq⟩ := mapError_eq_error.1 herror
        cases heq
      · cases herror

theorem directives_ne_lock {i : Instruction} (h : l.Covers t [i]) (mounts : List Mount) (user : String) :
    t.directives l mounts user i ≠ .error (.lock e) := by
  intro herror
  cases i with
  | install packages =>
    rcases bind_eq_error.1 herror with herror | ⟨commands, -, herror⟩
    · exact installCommands_ne_lock (h packages (by simp)) herror
    · cases commands <;> cases herror
  | builtBase project tag imageId => cases tag <;> cases herror
  | _ => cases herror

theorem directivesFrom_ne_lock {mounts : List Mount} : ∀ {instructions : List Instruction} {user : String},
    l.Covers t instructions → t.directivesFrom l mounts user instructions ≠ .error (.lock e)
  | [], _, _ => by simp [directivesFrom]
  | i :: r, user, h => by
    intro herror
    unfold directivesFrom at herror
    rcases bind_eq_error.1 herror with herror | ⟨_, -, herror⟩
    · refine directives_ne_lock (fun packages hmem => h packages ?_) mounts user herror
      exact List.mem_cons.2 (.inl (List.mem_singleton.1 hmem))
    · rcases bind_eq_error.1 herror with herror | ⟨_, -, herror⟩
      · exact directivesFrom_ne_lock (fun packages hmem => h packages (.tail i hmem)) herror
      · cases herror

end Target

/-- A direct build never looks into the lockfile. -/
theorem DirectDraft.addFrom_ne_lock {isolate : Bool} : ∀ {instructions : List Instruction} {n : Nat}
    {d : DirectDraft}, addFrom isolate n d instructions ≠ .error (.lock e)
  | [], _, _ => by simp [addFrom]
  | i :: r, n, d => by
    intro herror
    unfold addFrom at herror
    rcases bind_eq_error.1 herror with herror | ⟨d', -, herror⟩
    · unfold add at herror
      split at herror <;> try cases herror
      split at herror <;> cases herror
    · exact addFrom_ne_lock herror

/-- Instructions whose packages all have a pin do not fail to compile for a reason that lies in the lockfile. -/
theorem Plan.compile_ne_lock {t : Target} {instructions : List Instruction} (h : l.Covers t instructions) :
    compile instructions l t ≠ .error (.lock e) := by
  intro herror
  unfold compile at herror
  rcases bind_eq_error.1 herror with herror | ⟨_, -, herror⟩
  · obtain ⟨_, -, heq⟩ := mapError_eq_error.1 herror
    cases heq
  · split at herror
    · have herror := map_eq_error.1 herror
      unfold Target.daemonPlan at herror
      rcases bind_eq_error.1 herror with herror | ⟨mounts, -, herror⟩
      · obtain ⟨_, -, heq⟩ := mapError_eq_error.1 herror
        cases heq
      · rcases bind_eq_error.1 herror with herror | ⟨_, -, herror⟩
        · exact Target.directivesFrom_ne_lock h herror
        · cases herror
    · have herror := map_eq_error.1 herror
      unfold Target.directPlan at herror
      rcases bind_eq_error.1 herror with herror | ⟨d, -, herror⟩
      · exact DirectDraft.addFrom_ne_lock herror
      · split at herror <;> cases herror

namespace Session

variable {s : Session}

/-- Filling in the images of base projects adds no install. -/
theorem install_of_resolveBase {i : Instruction} {packages : SortedSet String}
    (h : s.resolveBase i = .ok (.install packages)) : i = .install packages := by
  unfold resolveBase at h
  split at h
  · obtain ⟨_, -, heq⟩ := map_eq_ok.1 h
    cases heq
  · exact Except.ok.inj h

theorem install_mem_of_resolveBases {packages : SortedSet String} : ∀ {instructions resolved : List Instruction},
    s.resolveBases instructions = .ok resolved → .install packages ∈ resolved → .install packages ∈ instructions
  | [], _, h, hmem => by
    cases h
    cases hmem
  | i :: r, _, h, hmem => by
    obtain ⟨j, rest, hj, hrest, rfl⟩ := resolveBases_cons h
    rcases List.mem_cons.1 hmem with rfl | hmem
    · rw [install_of_resolveBase hj]
      exact List.mem_cons_self
    · exact .tail i (install_mem_of_resolveBases hrest hmem)

end Session

/-- The packages of every install of a recipe are among those that the recipe asks for. -/
theorem Recipe.mem_requestedPackages {r : Recipe} {packages : SortedSet String} {name : String}
    (h : .install packages ∈ r.instructions) (hname : name ∈ Instruction.wantedPackages packages) :
    name ∈ r.requestedPackages := by
  unfold requestedPackages Instruction.requestedPackages
  unfold Instruction.wantedPackages at hname ⊢
  rw [List.mem_filter] at hname ⊢
  refine ⟨?_, hname.2⟩
  rw [← SortedSet.mem_def, SortedSet.mem_ofList, List.mem_flatMap]
  exact ⟨.install packages, h, hname.1⟩

/-- A lockfile with a pin for every package that a recipe asks for covers the recipe's instructions, whatever images
its bases come to. -/
theorem Recipe.covers {r : Recipe} {t : Target} {s : Session} {instructions : List Instruction}
    (h : ∀ name ∈ r.requestedPackages, (l.lookup name t.distribution t.architecture).isSome = true)
    (hresolve : s.resolveBases r.instructions = .ok instructions) : l.Covers t instructions :=
  fun _ hmem name hname => h name (mem_requestedPackages (Session.install_mem_of_resolveBases hresolve hmem) hname)

end ImageRecipe
