import ImageRecipe.Proofs.Backends
import ImageRecipe.Proofs.Users

/-! The user that a base image runs as. A plan shows it only where packages are installed before any user is set, to
hand the user back. For all other instructions the base image need not be asked: the plan is the same whoever it
runs as. -/

namespace ImageRecipe

theorem Instruction.needsDefaultUser_cons_eq_false {i : Instruction} {r : List Instruction} :
    needsDefaultUser (i :: r) = false ↔
      i.isInstall = false ∧ ((∃ name, i = setUser name) ∨ needsDefaultUser r = false) := by
  cases i <;> simp [needsDefaultUser, isInstall]

namespace Target

variable {t : Target} {l : Lockfile} {mounts : List Mount}

/-- What does not install packages comes to the same directives under every user. -/
theorem directives_of_not_install (t : Target) (l : Lockfile) (mounts : List Mount) {i : Instruction}
    (hi : i.isInstall = false) : ∃ here : Except CompileError (List Directive), ∀ user,
      t.directives l mounts user i = here.map fun ds => (ds, i.userAfter user) := by
  cases i with
  | install => cases hi
  | builtBase project tag id =>
    cases tag with
    | none => exact ⟨.error (.unresolvedBase project), fun _ => rfl⟩
    | some tag => exact ⟨.ok [.builtBase project tag], fun _ => rfl⟩
  | _ => exact ⟨.ok _, fun _ => rfl⟩

/-- The user before instructions is in none of their directives if one is set before packages are installed, or none
are. -/
theorem directivesFrom_user_congr : ∀ {is : List Instruction}, Instruction.needsDefaultUser is = false →
    ∀ user user', t.directivesFrom l mounts user is = t.directivesFrom l mounts user' is
  | [], _, _, _ => rfl
  | i :: r, h, user, user' => by
    obtain ⟨hi, hrest⟩ := Instruction.needsDefaultUser_cons_eq_false.1 h
    have hsame : t.directivesFrom l mounts (i.userAfter user) r =
        t.directivesFrom l mounts (i.userAfter user') r := by
      rcases hrest with ⟨name, rfl⟩ | hrest
      · rfl
      · exact directivesFrom_user_congr hrest _ _
    obtain ⟨here, hhere⟩ := directives_of_not_install t l mounts hi
    rw [directivesFrom, directivesFrom, hhere, hhere]
    cases here with
    | error e => rfl
    | ok ds =>
      change (t.directivesFrom l mounts (i.userAfter user) r >>= fun rest => pure (ds ++ rest)) = _
      rw [hsame]
      rfl

/-- The default user of a target counts for the user before the first instruction alone. -/
theorem directivesFrom_withUser (t : Target) (l : Lockfile) (mounts : List Mount) (u : String) :
    ∀ (is : List Instruction) (user : String),
      { t with defaultUser := u }.directivesFrom l mounts user is = t.directivesFrom l mounts user is
  | [], _ => rfl
  | i :: r, user => by
    have hhere : { t with defaultUser := u }.directives l mounts user i = t.directives l mounts user i := by
      cases i <;> rfl
    rw [directivesFrom, directivesFrom, hhere]
    simp only [directivesFrom_withUser t l mounts u r]

end Target

/-- Instructions come to the same plan, or to the same error, under every default user that they do not need. -/
theorem Plan.compile_user_congr {is : List Instruction} (h : Instruction.needsDefaultUser is = false)
    (l : Lockfile) (t : Target) (u u' : String) :
    compile is l { t with defaultUser := u } = compile is l { t with defaultUser := u' } := by
  have hdaemon : { t with defaultUser := u }.daemonPlan l is = { t with defaultUser := u' }.daemonPlan l is := by
    unfold Target.daemonPlan
    simp only [Target.directivesFrom_withUser]
    simp only [Target.directivesFrom_user_congr h u u']
    rfl
  unfold compile
  simp only [hdaemon]
  rfl

namespace Recipe

variable {r : Recipe} {is : List Instruction} {w w' : Workshop} {u : String}

/-- The user that the base image of instructions runs as, asked for in any case. -/
def baseUser (r : Recipe) (is : List Instruction) : BuildM String := do
  let base ← baseOf is
  Workshop.changing r.backend (Backend.defaultUser base)

/-- The target of a recipe whose base image runs as a user. -/
def targetAs (r : Recipe) (settings : Settings) (user : String) : Target where
  distribution := r.distribution
  architecture := r.architecture
  builder := r.backend.builder
  isolate := r.isolate
  defaultUser := user
  ephemeralTarget := settings.ephemeralTarget
  repositoryName := settings.repositoryName

theorem yields_target_of_baseUser (h : Instruction.needsDefaultUser is = true)
    (hu : Yields (r.baseUser is) w u w') : Yields (r.target is) w (r.targetAs w'.settings u) w' := by
  obtain ⟨base, w₁, hbase, hu⟩ := (yields_bind ..).1 hu
  unfold target
  rw [if_pos h]
  refine (yields_bind ..).2 ⟨base, w₁, hbase, (yields_bind ..).2 ⟨u, w', hu, ?_⟩⟩
  exact (yields_bind ..).2 ⟨w', w', (yields_get ..).2 ⟨rfl, rfl⟩, (yields_pure ..).2 ⟨rfl, rfl⟩⟩

theorem yields_target_of_not_needs (h : Instruction.needsDefaultUser is = false) :
    Yields (r.target is) w (r.targetAs w.settings "root") w := by
  unfold target
  rw [if_neg (by simp [h])]
  refine (yields_bind ..).2 ⟨"root", w, (yields_pure ..).2 ⟨rfl, rfl⟩, ?_⟩
  exact (yields_bind ..).2 ⟨w, w, (yields_get ..).2 ⟨rfl, rfl⟩, (yields_pure ..).2 ⟨rfl, rfl⟩⟩

end Recipe

/-- A base image that runs as a user need not be asked for it unless the instructions need it. Compiling with the
user comes to the same plan, or to the same error, as compiling with the user if it is needed and with root if it is
not. That is what the target of a recipe has, and if the user is not needed nothing was done to find it. -/
theorem Recipe.compile_target (is : List Instruction) (l : Lockfile) (u : String) :
    (∀ t : Target, Plan.compile is l { t with defaultUser := u } =
        Plan.compile is l { t with defaultUser := if Instruction.needsDefaultUser is then u else "root" }) ∧
      ∀ (r : Recipe) (w w' : Workshop), Yields (r.baseUser is) w u w' →
        ∃ t, Yields (r.target is) w t (if Instruction.needsDefaultUser is then w' else w) ∧
          t.defaultUser = (if Instruction.needsDefaultUser is then u else "root") ∧
          Plan.compile is l t = Plan.compile is l { t with defaultUser := u } := by
  cases h : Instruction.needsDefaultUser is with
  | true => exact ⟨fun _ => rfl, fun r w w' hu => ⟨_, yields_target_of_baseUser h hu, rfl, rfl⟩⟩
  | false =>
    refine ⟨fun t => Plan.compile_user_congr h l t u "root", fun r w w' _ => ?_⟩
    exact ⟨_, yields_target_of_not_needs h, rfl,
      Plan.compile_user_congr h l (r.targetAs w.settings "root") "root" u⟩

namespace Sample

/-- A recipe of instructions that set a user before they install packages. -/
def switchingRecipe : Recipe :=
  { project := "p", tag := "t", distribution := .centos, architecture := .x86, isolate := false, backend := .mock
    instructions := switching, workDirectory := "/w", lockfile := "/l" }

/-- A workshop in which every base image runs as nobody. -/
def nobodys : Workshop :=
  { settings := {}, store := ⟨"/s"⟩, host := {}, backends := [.mock { user := "nobody" }] }

theorem yields_baseUser_nobodys : ∃ w, Yields (switchingRecipe.baseUser switching) nobodys "nobody" w :=
  ⟨_, rfl⟩

end Sample

/-- The base image runs as nobody, but it is not asked, and the plan is the one that it would have been. -/
theorem Recipe.compile_target_sample :
    ∃ t, Yields (Sample.switchingRecipe.target Sample.switching) Sample.nobodys t Sample.nobodys ∧
      t.defaultUser = "root" ∧
      Plan.compile Sample.switching Sample.curlLock t =
        Plan.compile Sample.switching Sample.curlLock { t with defaultUser := "nobody" } := by
  obtain ⟨w, hw⟩ := Sample.yields_baseUser_nobodys
  exact (Recipe.compile_target Sample.switching Sample.curlLock "nobody").2 Sample.switchingRecipe _ w hw

end ImageRecipe
