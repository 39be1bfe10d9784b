import ImageRecipe.Proofs.DaemonPlans

/-! The two builders agree. What compiles for the direct builder compiles for the daemon, to directives that run
nothing and say what the direct plan says; and what compiles for the daemon compiles for the direct builder unless
it runs commands. -/

namespace ImageRecipe

namespace BuildFile

/-- The directives that begin with a word, of directives that are given by their texts. -/
def ofKind (word : String) (texts : List String) : List String :=
  texts.filter fun s => Text.firstWord s = word

/-- The directives that name the image to start from; one that is built for another project has a comment in
front. -/
def bases (texts : List String) : List String :=
  texts.filter fun s => Text.firstWord s = "FROM" ∨ Text.firstWord s = "#"

variable {word : String} {texts : List String} {x : Directive}

@[simp] theorem ofKind_nil : ofKind word [] = [] := rfl

@[simp] theorem bases_nil : bases [] = [] := rfl

@[simp] theorem ofKind_concat :
    ofKind word (texts ++ [x.render]) = ofKind word texts ++ if x.keyword = word then [x.render] else [] := by
  unfold ofKind
  rw [List.filter_append]
  by_cases h : x.keyword = word <;> simp [h]

@[simp] theorem bases_concat :
    bases (texts ++ [x.render]) =
      bases texts ++ if x.keyword = "FROM" ∨ x.keyword = "#" then [x.render] else [] := by
  unfold bases
  rw [List.filter_append]
  by_cases h : x.keyword = "FROM" ∨ x.keyword = "#" <;> simp [h]

end BuildFile

def DirectBase.startText : DirectBase → String
  | reference r => "FROM " ++ r
  | builtImage project tag _ => "# " ++ project ++ "\nFROM " ++ tag

namespace Instruction

/-- Whether an instruction runs commands inside the image. -/
def runsCommands (isolate : Bool) : Instruction → Bool
  | run _ | install _ | createUser .. => true
  | configureRepositories _ => !isolate
  | _ => false

end Instruction

/-- Directives say what a draft of a direct plan says; where the last one counts, the last directive does. -/
structure DirectDraft.Agrees (d : DirectDraft) (texts : List String) : Prop where
  runs : BuildFile.ofKind "RUN" texts = []
  bases : BuildFile.bases texts = d.base.toList.map DirectBase.startText
  copies : BuildFile.ofKind "COPY" texts = d.layers.map fun x => (Directive.copy x.ordinal x.owner).render
  env : BuildFile.ofKind "ENV" texts = d.env.map fun e => (Directive.env e.1 e.2).render
  user : (BuildFile.ofKind "USER" texts).getLast? = d.user.map fun u => (Directive.user u).render
  healthCheck : (BuildFile.ofKind "HEALTHCHECK" texts).getLast? =
    d.healthCheck.map fun h => (Directive.healthCheck h).render

namespace DirectDraft.Agrees

variable {t : Target} {n : Nat} {d d' : DirectDraft} {texts : List String}

theorem empty : DirectDraft.Agrees {} [] := ⟨rfl, rfl, rfl, rfl, rfl, rfl⟩

/-- What the direct builder takes in comes to directives that say the same. -/
theorem add (l : Lockfile) (mounts : List Mount) (user : String) {i : Instruction} (h : d.Agrees texts)
    (hbase : i.isBase = true → d.base = none) (hadd : d.add t.isolate n i = .ok d') :
    ∃ here next, t.directives l mounts user i = .ok (here, next) ∧
      d'.Agrees (texts ++ here.map Directive.render) := by
  obtain ⟨hruns, hbases, hcopies, henv, huser, hcheck⟩ := h
  -- what the draft gains is the directive that comes last, and the directives of the other kinds are as before
  cases i with
  | base image version digest =>
    cases hadd
    rw [hbase rfl] at hbases
    refine ⟨_, _, rfl, ?_⟩
    constructor <;> simp [Directive.keyword, *]
    rfl
  | builtBase project tag id =>
    cases tag with
    | none => cases hadd
    | some tag =>
      cases id with
      | none => cases hadd
      | some id =>
        cases hadd
        rw [hbase rfl] at hbases
        refine ⟨_, _, rfl, ?_⟩
        constructor <;> simp [Directive.keyword, *]
        rfl
  | configureRepositories commands =>
    unfold DirectDraft.add at hadd
    cases hiso : t.isolate with
    | true =>
      simp only [hiso, if_true] at hadd
      cases hadd
      refine ⟨[], user, by simp [Target.directives, hiso], ?_⟩
      constructor <;> simp [*]
    | false => simp [hiso] at hadd
  | copy layer owner =>
    cases hadd
    refine ⟨_, _, rfl, ?_⟩
    constructor <;> simp [Directive.keyword, *]
  | setUser name =>
    cases hadd
    refine ⟨_, _, rfl, ?_⟩
    constructor <;> simp [Directive.keyword, *]
  | env key value =>
    cases hadd
    refine ⟨_, _, rfl, ?_⟩
    constructor <;> simp [Directive.keyword, *]
  | healthCheck check =>
    cases hadd
    refine ⟨_, _, rfl, ?_⟩
    constructor <;> simp [Directive.keyword, *]
  | run commands => cases hadd
  | install packages => cases hadd
  | createUser name uid group gid => cases hadd

theorem addFrom (l : Lockfile) (mounts : List Mount) : ∀ (user : String) {is : List Instruction} {n : Nat}
    {d d' : DirectDraft} {texts : List String},
    d.Agrees texts → (∀ i ∈ is, i.isBase = false) → DirectDraft.addFrom t.isolate n d is = .ok d' →
    ∃ ds, t.directivesFrom l mounts user is = .ok ds ∧ d'.Agrees (texts ++ ds.map Directive.render)
  | _, [], _, _, _, _, h, _, hadd => by
    cases hadd
    exact ⟨[], rfl, by simpa using h⟩
  | user, i :: r, n, d, d', texts, h, hbase, hadd => by
    obtain ⟨e, hfirst, hrest⟩ := bind_eq_ok.1 hadd
    have hi : i.isBase = true → d.base = none := fun hi => by simp [hbase i List.mem_cons_self] at hi
    obtain ⟨here, next, hhere, he⟩ := h.add l mounts user hi hfirst
    obtain ⟨ds, hds, hd'⟩ := he.addFrom l mounts next (fun j hj => hbase j (.tail i hj)) hrest
    refine ⟨here ++ ds, bind_eq_ok.2 ⟨_, hhere, bind_eq_ok.2 ⟨ds, hds, rfl⟩⟩, ?_⟩
    rwa [List.map_append, ← List.append_assoc]

end DirectDraft.Agrees

/-- What compiles for the daemon and runs no commands is taken in by the direct builder. -/
theorem DirectDraft.exists_addFrom {t : Target} {l : Lockfile} {mounts : List Mount} :
    ∀ {is : List Instruction} {user : String} {ds : List Directive} (n : Nat) (d : DirectDraft),
    t.directivesFrom l mounts user is = .ok ds →
    (∀ project tag id, .builtBase project tag id ∈ is → id ≠ none) →
    (∀ i ∈ is, i.runsCommands t.isolate = false) → ∃ d', addFrom t.isolate n d is = .ok d'
  | [], _, _, _, d, _, _, _ => ⟨d, rfl⟩
  | i :: r, user, ds, n, d, h, hid, hruns => by
    obtain ⟨⟨here, next⟩, hhere, h⟩ := bind_eq_ok.1 h
    obtain ⟨rest, hrest, -⟩ := bind_eq_ok.1 h
    have hfirst : ∃ e, d.add t.isolate n i = .ok e := by
      have hi := hruns i List.mem_cons_self
      cases i with
      | builtBase project tag id =>
        cases tag with
        | none => cases hhere
        | some tag =>
          cases id with
          | none => exact absurd rfl (hid project (some tag) none List.mem_cons_self)
          | some id => exact ⟨_, rfl⟩
      | configureRepositories commands =>
        have hiso : t.isolate = true := by simpa [Instruction.runsCommands] using hi
        exact ⟨d, by simp [DirectDraft.add, hiso]⟩
      | run commands => cases hi
      | install packages => cases hi
      | createUser name uid group gid => cases hi
      | _ => exact ⟨_, rfl⟩
    obtain ⟨e, he⟩ := hfirst
    obtain ⟨d', hd'⟩ := exists_addFrom (n + 1) e hrest (fun p tag id hp => hid p tag id (.tail i hp))
      fun j hj => hruns j (.tail i hj)
    exact ⟨d', bind_eq_ok.2 ⟨e, he, hd'⟩⟩

/-- The mounts are known, unless the distribution cannot install from a local mirror and is asked to. -/
theorem Target.exists_mounts {t : Target} (h : t.isolate = true → t.distribution ≠ .alpine) :
    ∃ mounts, t.mounts = .ok mounts := by
  unfold Target.mounts
  cases hiso : t.isolate with
  | false => exact ⟨_, rfl⟩
  | true =>
    cases hd : t.distribution with
    | alpine => exact absurd hd (h hiso)
    | _ => exact ⟨_, rfl⟩

namespace Plan

theorem compile_eq_direct_iff {is : List Instruction} {l : Lockfile} {t : Target} {d : DirectPlan} :
    compile is l t = .ok (.direct d) ↔
      t.builder = .direct ∧ Instruction.validate is = .ok () ∧ t.directPlan is = .ok d := by
  constructor
  · intro h
    have hvalid := validate_of_compile h
    obtain ⟨_, -, h⟩ := bind_eq_ok.1 h
    cases ht : t.builder with
    | daemon =>
      rw [ht] at h
      obtain ⟨p, -, h⟩ := map_eq_ok.1 h
      cases h
    | direct =>
      rw [ht] at h
      obtain ⟨plan, hplan, h⟩ := map_eq_ok.1 h
      cases h
      exact ⟨rfl, hvalid, hplan⟩
  · rintro ⟨ht, hvalid, hplan⟩
    unfold compile
    rw [hvalid, ht]
    exact map_eq_ok.2 ⟨d, hplan, rfl⟩

end Plan

theorem Target.directPlan_eq_ok_iff {t : Target} {is : List Instruction} {d : DirectPlan} :
    t.directPlan is = .ok d ↔
      DirectDraft.addFrom t.isolate 0 {} is = .ok ⟨some d.base, d.layers, d.env, d.user, d.healthCheck⟩ := by
  unfold directPlan
  rw [bind_eq_ok]
  constructor
  · rintro ⟨⟨base, layers, env, user, check⟩, hdraft, h⟩
    cases base with
    | none => cases h
    | some base =>
      cases h
      exact hdraft
  · exact fun h => ⟨_, h, rfl⟩

/-- If the direct builder has a plan for instructions, the daemon has one that runs nothing, starts from the same
image, copies the same layers, sets the same variables and, in the last directive for each, the same user and the
same health check. If the daemon has a plan, the direct builder has one as well, given the ids of the images of
other projects, unless there is an instruction that runs commands. -/
theorem Plan.compile_agree {is : List Instruction} {l : Lockfile} {t : Target}
    (hisolate : t.isolate = true → t.distribution ≠ .alpine) :
    (∀ d, compile is l { t with builder := .direct } = .ok (.direct d) →
      ∃ p, compile is l { t with builder := .daemon } = .ok (.daemon p) ∧
        BuildFile.ofKind "RUN" p.directives = [] ∧
        BuildFile.bases p.directives = [d.base.startText] ∧
        BuildFile.ofKind "COPY" p.directives = d.layers.map (fun x => (Directive.copy x.ordinal x.owner).render) ∧
        BuildFile.ofKind "ENV" p.directives = d.env.map (fun e => (Directive.env e.1 e.2).render) ∧
        (BuildFile.ofKind "USER" p.directives).getLast? = d.user.map (fun u => (Directive.user u).render) ∧
        (BuildFile.ofKind "HEALTHCHECK" p.directives).getLast? =
          d.healthCheck.map (fun h => (Directive.healthCheck h).render)) ∧
    ((∃ p, compile is l { t with builder := .daemon } = .ok (.daemon p)) →
      (∀ project tag id, .builtBase project tag id ∈ is → id ≠ none) →
      (∀ i ∈ is, i.runsCommands t.isolate = false) →
      ∃ d, compile is l { t with builder := .direct } = .ok (.direct d)) := by
  constructor
  · intro d h
    obtain ⟨-, hvalid, hplan⟩ := compile_eq_direct_iff.1 h
    -- the first instruction is a base and finds no other; the rest are none, and the induction goes over them
    obtain ⟨mounts, hmounts⟩ := t.exists_mounts hisolate
    obtain ⟨i, rest, rfl, -, hrest⟩ := Instruction.validate_ok hvalid
    obtain ⟨e, hfirst, hfrom⟩ := bind_eq_ok.1 (Target.directPlan_eq_ok_iff.1 hplan)
    obtain ⟨here, next, hhere, he⟩ := DirectDraft.Agrees.empty.add (t := { t with builder := .daemon }) l mounts
      t.defaultUser (fun _ => rfl) hfirst
    obtain ⟨ds, hds, hd⟩ := he.addFrom (t := { t with builder := .daemon }) l mounts next hrest hfrom
    rw [List.nil_append, ← List.map_append] at hd
    refine ⟨_, compile_eq_daemon_iff.2 ⟨rfl, hvalid, mounts, here ++ ds, hmounts,
      bind_eq_ok.2 ⟨_, hhere, bind_eq_ok.2 ⟨ds, hds, rfl⟩⟩, rfl⟩, hd.runs, ?_, hd.copies, hd.env, hd.user,
      hd.healthCheck⟩
    simpa using hd.bases
  · rintro ⟨p, h⟩ hid hruns
    obtain ⟨-, hvalid, mounts, ds, -, hds, -⟩ := compile_eq_daemon_iff.1 h
    obtain ⟨draft, hdraft⟩ := DirectDraft.exists_addFrom 0 {} hds hid hruns
    obtain ⟨i, rest, rfl, hi, hrest⟩ := Instruction.validate_ok hvalid
    obtain ⟨e, hfirst, hfrom⟩ := bind_eq_ok.1 hdraft
    obtain ⟨-, -, hbase⟩ := DirectDraft.add_ok hfirst
    obtain ⟨b, hb, -⟩ := hbase hi
    have hb : draft.base = some b := (DirectDraft.addFrom_ok hfrom hrest).2.trans hb
    refine ⟨⟨b, draft.layers, draft.env, draft.user, draft.healthCheck⟩, compile_eq_direct_iff.2
      ⟨rfl, hvalid, Target.directPlan_eq_ok_iff.2 ?_⟩⟩
    rw [← hb]
    exact hdraft

namespace Sample

/-- Instructions without commands, apart from those that an isolated build leaves out. -/
def described : List Instruction := [
  .builtBase "base" (some "base:1") (some "sha256:1"),
  .copy 0 (some "1000:1000"),
  .env "A" "b c",
  .setUser "alice",
  .configureRepositories ["true"],
  .healthCheck { command := "true" },
  .setUser "bob"]

def isolated : Target := { distribution := .debian, architecture := .x86, builder := .direct, isolate := true }

def description : DirectPlan where
  base := .builtImage "base" "base:1" "sha256:1"
  layers := [⟨0, "context/layer0", "/", some "1000:1000", .preserve⟩]
  env := [("A", "b c")]
  user := some "bob"
  healthCheck := some { command := "true" }

end Sample

/-- Of two users that are set the last one counts with either builder. -/
theorem Plan.compile_agree_sample :
    Plan.compile Sample.described Lockfile.empty Sample.isolated = .ok (.direct Sample.description) ∧
      (∃ p, Plan.compile Sample.described Lockfile.empty { Sample.isolated with builder := .daemon } =
          .ok (.daemon p) ∧
        BuildFile.bases p.directives = ["# base\nFROM base:1"] ∧
        BuildFile.ofKind "COPY" p.directives = ["COPY --chown=1000:1000 context/layer0 /"] ∧
        (BuildFile.ofKind "USER" p.directives).getLast? = some "USER bob") ∧
      ∃ d, Plan.compile Sample.described Lockfile.empty Sample.isolated = .ok (.direct d) := by
  obtain ⟨hdaemon, hdirect⟩ := @Plan.compile_agree Sample.described Lockfile.empty
    Sample.isolated (by decide)
  have hplan : Plan.compile Sample.described Lockfile.empty Sample.isolated =
      .ok (.direct Sample.description) := by decide
  obtain ⟨p, hp, -, hbases, hcopies, -, huser, -⟩ := hdaemon _ hplan
  refine ⟨hplan, ⟨p, hp, hbases, ?_, huser⟩, hdirect ⟨p, hp⟩ ?_ (by decide)⟩
  · rw [hcopies]
    decide
  · simp only [Sample.described, List.mem_cons, Instruction.builtBase.injEq]
    rintro project tag id (⟨rfl, rfl, rfl⟩ | h)
    · simp
    · simp at h

end ImageRecipe
