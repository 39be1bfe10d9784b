import ImageRecipe.Proofs.DaemonPlans

/-! Whom commands run as. A build goes through the directives of a plan with a current user, which every directive
for a user sets. What an instruction runs, it runs as the user that the instructions before it have set; only what
installs packages runs as root, and it hands the user back. -/

namespace ImageRecipe

namespace BuildFile

/-- The user after a directive is run, which is given by its text. -/
def userAfter (user text : String) : String :=
  if Text.firstWord text = "USER" then String.ofList (text.toList.drop 5) else user

@[simp] theorem userAfter_user (user name : String) : userAfter user (Directive.user name).render = name := by
  have hname : (Directive.user name).render.toList = "USER ".toList ++ name.toList := String.toList_append
  have hword : Text.firstWord (Directive.user name).render = "USER" := Directive.firstWord_render _
  unfold userAfter
  rw [if_pos hword, hname]
  exact String.ofList_toList

theorem userAfter_of_ne {d : Directive} (user : String) (h : d.keyword ≠ "USER") :
    userAfter user d.render = user := by
  unfold userAfter
  rw [Directive.firstWord_render, if_neg h]

def userAfterAll (user : String) (texts : List String) : String := texts.foldl userAfter user

@[simp] theorem userAfterAll_nil (user : String) : userAfterAll user [] = user := rfl

@[simp] theorem userAfterAll_cons (user text : String) (texts : List String) :
    userAfterAll user (text :: texts) = userAfterAll (userAfter user text) texts := rfl

@[simp] theorem userAfterAll_append (user : String) (xs ys : List String) :
    userAfterAll user (xs ++ ys) = userAfterAll (userAfterAll user xs) ys := List.foldl_append

end BuildFile

namespace Instruction

/-- The user of the last instruction that sets one. -/
def lastUser? (is : List Instruction) : Option String :=
  (is.filterMap fun
    | setUser name => some name
    | _ => none).getLast?

theorem lastUser?_cons (i : Instruction) (r : List Instruction) (user : String) :
    (lastUser? (i :: r)).getD user = (lastUser? r).getD (i.userAfter user) := by
  unfold lastUser?
  cases i with
  | setUser name => simp [userAfter, List.getLast?_cons]
  | _ => rfl

def isInstall : Instruction → Bool
  | install _ => true
  | _ => false

end Instruction

/-- What an instruction comes to under a user. -/
inductive Instruction.ComesTo (mounts : List Mount) (user : String) (i : Instruction) : List Directive → Prop
  /-- Packages are installed as root, and the user is handed back. -/
  | install (commands : List String) (hi : i.isInstall = true) :
    ComesTo mounts user i [.user "root", .run commands mounts, .user user]
  | nothing (hu : i.userAfter user = user) : ComesTo mounts user i []
  /-- The directive does to the user what the instruction does. -/
  | single (x : Directive) (hi : i.isInstall = false)
    (hu : BuildFile.userAfter user x.render = i.userAfter user) : ComesTo mounts user i [x]

namespace Target

variable {t : Target} {l : Lockfile} {mounts : List Mount} {user next : String} {i : Instruction}
  {here : List Directive}

theorem comesTo_of_directives (h : t.directives l mounts user i = .ok (here, next)) :
    next = i.userAfter user ∧ i.ComesTo mounts user here := by
  have other {x : Directive} (hx : x.keyword ≠ "USER") : BuildFile.userAfter user x.render = user :=
    BuildFile.userAfter_of_ne user hx
  cases i with
  | install packages =>
    obtain ⟨commands?, -, h⟩ := bind_eq_ok.1 h
    cases commands? with
    | none =>
      cases h
      exact ⟨rfl, .nothing rfl⟩
    | some commands =>
      cases h
      exact ⟨rfl, .install commands rfl⟩
  | configureRepositories commands =>
    cases h
    refine ⟨rfl, ?_⟩
    split
    · exact .nothing rfl
    · exact .single _ rfl (other (by simp [Directive.keyword]))
  | setUser name =>
    cases h
    exact ⟨rfl, .single _ rfl (BuildFile.userAfter_user user _)⟩
  | builtBase project tag id =>
    cases tag with
    | none => cases h
    | some tag =>
      cases h
      exact ⟨rfl, .single _ rfl (other (by simp [Directive.keyword]))⟩
  | _ =>
    cases h
    exact ⟨rfl, .single _ rfl (other (by simp [Directive.keyword]))⟩

end Target

namespace Instruction.ComesTo

variable {mounts : List Mount} {user : String} {i : Instruction} {here : List Directive}

theorem userAfterAll_eq (h : i.ComesTo mounts user here) :
    BuildFile.userAfterAll user (here.map Directive.render) = i.userAfter user := by
  cases h with
  | install commands hi => cases i <;> simp_all [Instruction.isInstall, Instruction.userAfter]
  | nothing hu => exact hu.symm
  | single x hi hu => simpa using hu

/-- Within its directives, the user is the one before them, or root where packages are installed. -/
theorem userAt_eq (h : i.ComesTo mounts user here) {done rest : List Directive} {x : Directive}
    (hx : here = done ++ x :: rest) :
    (i.isInstall = false → BuildFile.userAfterAll user (done.map Directive.render) = user) ∧
      (i.isInstall = true → x.keyword = "RUN" →
        BuildFile.userAfterAll user (done.map Directive.render) = "root") := by
  cases h with
  | install commands hi =>
    refine ⟨fun hn => ?_, fun _ hrun => ?_⟩
    · rw [hi] at hn
      cases hn
    · -- of the three directives only the second one runs anything
      rcases done with _ | ⟨y, _ | ⟨z, _ | ⟨w, done⟩⟩⟩
      · cases hx
        simp [Directive.keyword] at hrun
      · cases hx
        simp
      · cases hx
        simp [Directive.keyword] at hrun
      · simp at hx
  | nothing hu => simp at hx
  | single y hi hu =>
    have hdone : done = [] := by
      rcases done with _ | ⟨z, done⟩
      · rfl
      · simp at hx
    refine ⟨fun _ => by rw [hdone]; rfl, fun hn => ?_⟩
    rw [hi] at hn
    cases hn

end Instruction.ComesTo

namespace Target

variable {t : Target} {l : Lockfile} {mounts : List Mount}

/-- The user after the directives of instructions is the one that the last of them has set. -/
theorem userAfterAll_of_blocksFrom : ∀ {is : List Instruction} {user : String}
    {bs : List (Instruction × List Directive)}, t.blocksFrom l mounts user is = .ok bs →
    BuildFile.userAfterAll user ((bs.flatMap Prod.snd).map Directive.render) =
      (Instruction.lastUser? is).getD user
  | [], _, _, h => by rw [← Except.ok.inj h]; rfl
  | i :: r, user, _, h => by
    obtain ⟨here, next, rest, hhere, hrest, rfl⟩ := blocksFrom_cons_eq_ok.1 h
    obtain ⟨rfl, hcomes⟩ := comesTo_of_directives hhere
    rw [List.flatMap_cons, List.map_append, BuildFile.userAfterAll_append, hcomes.userAfterAll_eq,
      userAfterAll_of_blocksFrom hrest, Instruction.lastUser?_cons]

/-- Each block is what its instruction comes to under the user that the instructions before it have set. -/
theorem comesTo_of_blocksFrom : ∀ {is : List Instruction} {user : String}
    {bs before after : List (Instruction × List Directive)} {i : Instruction} {here : List Directive},
    t.blocksFrom l mounts user is = .ok bs → bs = before ++ (i, here) :: after →
    BuildFile.userAfterAll user ((before.flatMap Prod.snd).map Directive.render) =
        (Instruction.lastUser? (before.map Prod.fst)).getD user ∧
      i.ComesTo mounts ((Instruction.lastUser? (before.map Prod.fst)).getD user) here
  | [], _, _, before, _, _, _, h, hbs => by
    rw [← Except.ok.inj h] at hbs
    simp at hbs
  | j :: r, user, _, before, after, i, here, h, hbs => by
    obtain ⟨first, next, rest, hfirst, hrest, rfl⟩ := blocksFrom_cons_eq_ok.1 h
    obtain ⟨rfl, hcomes⟩ := comesTo_of_directives hfirst
    cases before with
    | nil =>
      cases hbs
      exact ⟨rfl, hcomes⟩
    | cons b before =>
      rw [List.cons_append, List.cons.injEq] at hbs
      obtain ⟨rfl, hbs⟩ := hbs
      have ih := comesTo_of_blocksFrom hrest hbs
      rw [List.map_cons, Instruction.lastUser?_cons, List.flatMap_cons, List.map_append,
        BuildFile.userAfterAll_append, hcomes.userAfterAll_eq]
      exact ih

end Target

/-- A plan is put together of the directives of its instructions. When they are run in order, those of an instruction
run as the user that the last instruction before it to set a user has set, or as the default user if there is none;
only, commands that install packages run as root. After the last directive the user is the one that was set last. -/
theorem Plan.users_of_compile {is : List Instruction} {l : Lockfile} {t : Target} {p : DaemonPlan}
    (h : compile is l t = .ok (.daemon p)) :
    ∃ mounts bs, t.mounts = .ok mounts ∧ t.blocksFrom l mounts t.defaultUser is = .ok bs ∧
      bs.map Prod.fst = is ∧ p.directives = (bs.flatMap Prod.snd).map Directive.render ∧
      (∀ before i here after, bs = before ++ (i, here) :: after → ∀ done x rest, here = done ++ x :: rest →
        let user := BuildFile.userAfterAll t.defaultUser
          ((before.flatMap Prod.snd ++ done).map Directive.render)
        (i.isInstall = false → user = (Instruction.lastUser? (before.map Prod.fst)).getD t.defaultUser) ∧
          (i.isInstall = true → Text.firstWord x.render = "RUN" → user = "root")) ∧
      BuildFile.userAfterAll t.defaultUser p.directives = (Instruction.lastUser? is).getD t.defaultUser := by
  obtain ⟨-, -, mounts, ds, hmounts, hds, rfl⟩ := compile_eq_daemon_iff.1 h
  rw [Target.directivesFrom_eq] at hds
  obtain ⟨bs, hbs, rfl⟩ := map_eq_ok.1 hds
  refine ⟨mounts, bs, hmounts, hbs, Target.map_fst_of_blocksFrom hbs, rfl, ?_,
    Target.userAfterAll_of_blocksFrom hbs⟩
  intro before i here after hsplit done x rest hx
  obtain ⟨huser, hcomes⟩ := Target.comesTo_of_blocksFrom hbs hsplit
  obtain ⟨hother, hinstall⟩ := hcomes.userAt_eq hx
  rw [List.map_append, BuildFile.userAfterAll_append, huser]
  exact ⟨hother, fun hi hrun => hinstall hi (by rwa [Directive.firstWord_render] at hrun)⟩

namespace Sample

/-- A user is set, packages are installed, and a command is run. -/
def switching : List Instruction :=
  [.base "centos" "7" none, .setUser "alice", .install (SortedSet.ofList ["curl"]), .run ["true"]]

def curlLock : Lockfile := (Lockfile.empty.insert .centos ⟨"curl", "8", "1", "x86_64"⟩).1

def centos : Target := { distribution := .centos, architecture := .x86, builder := .daemon, defaultUser := "nobody" }

def centosMounts : List Mount := [⟨"docker", "ephemeral/docker", "/var/kiln-ephemeral", true⟩]

def switchingBlocks : List (Instruction × List Directive) := [
  (.base "centos" "7" none, [.base "centos" "7" none]),
  (.setUser "alice", [.user "alice"]),
  (.install (SortedSet.ofList ["curl"]), [
    .user "root",
    .run ["yum install --setopt=skip_missing_names_on_install=False -y curl-8-1.x86_64"] centosMounts,
    .user "alice"]),
  (.run ["true"], [.run ["true"] centosMounts])]

def switched : DaemonPlan where
  directives := (switchingBlocks.flatMap Prod.snd).map Directive.render
  mounts := SortedMap.empty.insert "docker" "ephemeral/docker"

theorem compile_switching : Plan.compile switching curlLock centos = .ok (.daemon switched) := by
  decide +kernel

end Sample

/-- The package is installed as root, and what is run after it as the user that was set. -/
theorem Plan.users_of_compile_sample :
    Plan.compile Sample.switching Sample.curlLock Sample.centos = .ok (.daemon Sample.switched) ∧
      BuildFile.userAfterAll "nobody" ["FROM centos:7", "USER alice", "USER root"] = "root" ∧
      BuildFile.userAfterAll "nobody" Sample.switched.directives = "alice" := by
  obtain ⟨mounts, bs, hmounts, hbs, -, -, hat, hlast⟩ := Plan.users_of_compile Sample.compile_switching
  refine ⟨Sample.compile_switching, ?_, hlast⟩
  have hm : Sample.centos.mounts = .ok Sample.centosMounts := rfl
  rw [hm] at hmounts
  obtain rfl := Except.ok.inj hmounts
  have hb : Sample.centos.blocksFrom Sample.curlLock Sample.centosMounts "nobody" Sample.switching =
      .ok Sample.switchingBlocks := by decide
  obtain rfl := Except.ok.inj (hb.symm.trans hbs)
  exact (hat [_, _] _ _ [_] rfl [.user "root"] _ _ rfl).2 rfl (Directive.firstWord_render _)

end ImageRecipe
