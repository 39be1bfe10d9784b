import ImageRecipe.Proofs.BackendAgreement
import ImageRecipe.Proofs.BuildErrors

/-! One base for all that a recipe comes to. The instructions of a manifest begin with their base, and stay valid when
the images of base projects are filled in. The reference that the base then has is the one that either builder starts
from, and no later step finds fault with the instructions. -/

namespace ImageRecipe

/-- Whether an error says that instructions are invalid, or that they have no base. -/
def CompileError.faultsInstructions : CompileError → Bool
  | instruction _ | noBase => true
  | _ => false

/-- Whether a build is refused for invalid instructions, or for instructions without a base. -/
def BuildError.faultsInstructions : BuildError → Bool
  | manifest (.instructions _) => true
  | compile e => e.faultsInstructions
  | _ => false

theorem BuildError.admits_not_faultsInstructions : Admits fun e => e.faultsInstructions = false where
  store _ := rfl
  io _ := rfl
  backend _ := rfl
  session _ := rfl
  lock _ := rfl
  distribution _ := rfl

/-- Where a plan starts: a build file with the directive for the reference, below a comment if it is the image of a
project; a direct plan with the reference, or with the image of the project under it. -/
def Plan.StartsFrom (project? : Option String) (reference : String) : Plan → Prop
  | daemon p => p.directives.head? = some (match project? with
      | none => "FROM " ++ reference
      | some project => "# " ++ project ++ "\nFROM " ++ reference)
  | direct d => match project? with
      | none => d.base = .reference reference
      | some project => ∃ imageId, d.base = .builtImage project reference imageId

namespace Instruction

variable {i j : Instruction} {l : List Instruction}

/-- Valid instructions stay valid with another base in front that lacks nothing. -/
theorem validate_base (hj : j.isBase = true) (hfault : j.fault? = i.fault?) (h : validate (i :: l) = .ok ()) :
    validate (j :: l) = .ok () := by
  rw [validate] at h ⊢
  split at h
  · cases h
  · cases hbase : baseFrom? 1 l with
    | some n => simp [hbase] at h
    | none =>
      cases hi : i.fault? with
      | some reason => simp [hbase, faultFrom?, hi] at h
      | none => simpa [hbase, faultFrom?, hi, hj, hfault] using h

end Instruction

namespace Session

variable {x : Session} {i : Instruction} {l : List Instruction}

theorem resolveBase_of_not_isBase (h : i.isBase = false) : x.resolveBase i = .ok i := by
  cases i with
  | builtBase => cases h
  | _ => rfl

theorem resolveBases_of_not_isBase : ∀ {l : List Instruction}, (∀ i ∈ l, i.isBase = false) → x.resolveBases l = .ok l
  | [], _ => rfl
  | i :: l, h => by
    have hrest : x.resolveBases l = .ok l := resolveBases_of_not_isBase fun j hj => h j (.tail i hj)
    unfold resolveBases at hrest ⊢
    rw [List.mapM_cons, hrest, resolveBase_of_not_isBase (h i List.mem_cons_self)]
    rfl

/-- A base whose project has an image is filled in, and then has a reference. -/
theorem resolveBase_base (hi : i.isBase = true) (hx : ∀ project ∈ i.baseProject?, (x.resolve? project).isSome = true) :
    ∃ j reference, x.resolveBase i = .ok j ∧ j.isBase = true ∧ j.fault? = i.fault? ∧
      j.baseProject? = i.baseProject? ∧ ∀ l, Instruction.baseReference? (j :: l) = some reference := by
  cases i with
  | base image version digest => exact ⟨_, _, rfl, rfl, rfl, rfl, fun _ => rfl⟩
  | builtBase project tag id =>
    obtain ⟨r, hr⟩ := Option.isSome_iff_exists.1 (hx project rfl)
    refine ⟨.builtBase project (some r.tag) (some r.imageId), r.tag, ?_, rfl, rfl, rfl, fun _ => rfl⟩
    simp only [resolveBase, require, hr]
    rfl
  | _ => cases hi

end Session

namespace Target

variable {t : Target} {l : Lockfile} {mounts : List Mount} {i : Instruction} {is : List Instruction} {e : CompileError}

theorem directives_error {user : String} (h : t.directives l mounts user i = .error e) :
    e.faultsInstructions = false := by
  unfold directives at h
  split at h
  case h_2 =>
    cases h
    rfl
  case h_6 =>
    rcases bind_eq_error.1 h with h | ⟨commands, -, h⟩
    · unfold installCommands at h
      split at h
      · cases h
      · rcases bind_eq_error.1 h with h | ⟨pins, -, h⟩
        · obtain ⟨_, -, rfl⟩ := mapError_eq_error.1 h
          rfl
        · rcases bind_eq_error.1 h with h | ⟨_, -, h⟩
          · obtain ⟨_, -, rfl⟩ := mapError_eq_error.1 h
            rfl
          · cases h
    · cases commands <;> cases h
  all_goals cases h

theorem directivesFrom_error : ∀ {is : List Instruction} {user : String}, t.directivesFrom l mounts user is = .error e →
    e.faultsInstructions = false
  | [], _, h => by cases h
  | i :: r, user, h => by
    rw [directivesFrom] at h
    rcases bind_eq_error.1 h with h | ⟨⟨here, next⟩, -, h⟩
    · exact directives_error h
    · rcases bind_eq_error.1 h with h | ⟨_, -, h⟩
      · exact directivesFrom_error h
      · cases h

theorem daemonPlan_error (h : t.daemonPlan l is = .error e) : e.faultsInstructions = false := by
  rcases bind_eq_error.1 h with h | ⟨_, -, h⟩
  · obtain ⟨_, -, rfl⟩ := mapError_eq_error.1 h
    rfl
  · rcases bind_eq_error.1 h with h | ⟨_, -, h⟩
    · exact directivesFrom_error h
    · cases h

end Target

namespace DirectDraft

variable {isolate : Bool} {d d' : DirectDraft} {n : Nat} {i : Instruction} {e : CompileError}

theorem add_error (h : d.add isolate n i = .error e) : e.faultsInstructions = false := by
  unfold add at h
  split at h
  case h_8 =>
    split at h
    · cases h
    · cases h
      rfl
  all_goals
    cases h
    try rfl

theorem addFrom_error : ∀ {is : List Instruction} {n : Nat} {d : DirectDraft}, addFrom isolate n d is = .error e →
    e.faultsInstructions = false
  | [], _, _, h => by cases h
  | i :: r, n, d, h => by
    rcases bind_eq_error.1 h with h | ⟨_, -, h⟩
    · exact add_error h
    · exact addFrom_error h

/-- A base that is taken in is the base of the draft, under its own reference. -/
theorem add_base {reference : String} (hi : i.isBase = true)
    (href : ∀ l, Instruction.baseReference? (i :: l) = some reference) (h : d.add isolate n i = .ok d') :
    (i.baseProject? = none ∧ d'.base = some (.reference reference)) ∨
      ∃ project imageId, i.baseProject? = some project ∧ d'.base = some (.builtImage project reference imageId) := by
  cases i with
  | base image version digest =>
    cases h
    cases href []
    exact .inl ⟨rfl, rfl⟩
  | builtBase project tag id =>
    obtain rfl : tag = some reference := href []
    cases id with
    | none => cases h
    | some id =>
      cases h
      exact .inr ⟨project, id, rfl, rfl⟩
  | _ => cases hi

end DirectDraft

/-- With a base in front, the direct builder knows what to start from. -/
theorem Target.directPlan_error {t : Target} {i : Instruction} {r : List Instruction} {e : CompileError}
    (hi : i.isBase = true) (hr : ∀ j ∈ r, j.isBase = false) (h : t.directPlan (i :: r) = .error e) :
    e.faultsInstructions = false := by
  rcases bind_eq_error.1 h with h | ⟨d, hd, h⟩
  · exact DirectDraft.addFrom_error h
  · obtain ⟨first, hfirst, hrest⟩ := bind_eq_ok.1 hd
    obtain ⟨b, hb, -⟩ := (DirectDraft.add_ok hfirst).2.2 hi
    rw [(DirectDraft.addFrom_ok hrest hr).2, hb] at h
    cases h

namespace Plan

variable {is : List Instruction} {l : Lockfile} {t : Target} {p : Plan} {e : CompileError}

/-- The plan that valid instructions come to is for the builder that is asked for. -/
theorem builder_of_compile (h : compile is l t = .ok p) : p.builder = t.builder := by
  cases p with
  | daemon p => exact (compile_eq_daemon_iff.1 h).1.symm
  | direct d => exact (compile_eq_direct_iff.1 h).1.symm

/-- Valid instructions are at fault in no way when they are compiled. -/
theorem compile_error (hvalid : Instruction.validate is = .ok ()) (h : compile is l t = .error e) :
    e.faultsInstructions = false := by
  obtain ⟨i, r, rfl, hi, hr⟩ := Instruction.validate_ok hvalid
  unfold compile at h
  rw [hvalid] at h
  cases ht : t.builder with
  | daemon =>
    rw [ht] at h
    exact Target.daemonPlan_error (map_eq_error.1 h)
  | direct =>
    rw [ht] at h
    exact Target.directPlan_error hi hr (map_eq_error.1 h)

/-- Either builder starts from the reference of the base in front. -/
theorem startsFrom_of_compile {i : Instruction} {r : List Instruction} {reference : String}
    (href : ∀ l, Instruction.baseReference? (i :: l) = some reference) (h : compile (i :: r) l t = .ok p) :
    p.StartsFrom i.baseProject? reference := by
  obtain ⟨_, _, heq, hi, hr⟩ := Instruction.validate_ok (validate_of_compile h)
  cases heq
  cases p with
  | daemon p =>
    obtain ⟨-, -, mounts, ds, -, hds, rfl⟩ := compile_eq_daemon_iff.1 h
    obtain ⟨⟨here, next⟩, hhere, hds⟩ := bind_eq_ok.1 hds
    obtain ⟨rest, -, hds⟩ := bind_eq_ok.1 hds
    cases hds
    cases i with
    | base image version digest =>
      cases hhere
      cases href []
      rfl
    | builtBase project tag id =>
      obtain rfl : tag = some reference := href []
      cases hhere
      rfl
    | _ => cases hi
  | direct d =>
    obtain ⟨-, -, hplan⟩ := compile_eq_direct_iff.1 h
    obtain ⟨first, hfirst, hrest⟩ := bind_eq_ok.1 (Target.directPlan_eq_ok_iff.1 hplan)
    have hbase : some d.base = first.base := (DirectDraft.addFrom_ok hrest hr).2
    rcases DirectDraft.add_base hi href hfirst with ⟨hproject, hb⟩ | ⟨project, imageId, hproject, hb⟩
    · rw [hproject]
      exact Option.some.inj (hbase.trans hb)
    · rw [hproject]
      exact ⟨imageId, Option.some.inj (hbase.trans hb)⟩

end Plan

/-- A manifest that is read has valid instructions. -/
theorem Manifest.validate_of_parse {text : String} {m : Manifest} (h : parse text = .ok m) :
    Instruction.validate m.instructions = .ok () := by
  unfold parse at h
  split at h
  · cases h
  · split at h
    · cases h
    · split at h
      · cases h
      · split at h
        · cases h
        · next hvalid =>
          cases h
          exact hvalid

/-- The instructions of a manifest begin with a base. In every session that has the images of the base projects, the
instructions with these filled in have one reference as their base; what either builder makes of them starts from that
reference; and neither compiling them nor planning or building the manifest's image nor pinning its packages ever fails
because of the instructions or for want of a base. -/
theorem Manifest.starts_everywhere {text : String} {m : Manifest} {x : Session} (hm : parse text = .ok m)
    (hx : ∀ project ∈ m.instructions.filterMap Instruction.baseProject?, (x.resolve? project).isSome = true) :
    ∃ i is reference, m.instructions.head? = some i ∧ x.resolveBases m.instructions = .ok is ∧
      Instruction.baseReference? is = some reference ∧
      (∀ l t p, Plan.compile is l t = .ok p → p.builder = t.builder ∧ p.StartsFrom i.baseProject? reference) ∧
      (∀ l t e, Plan.compile is l t = .error e → e.faultsInstructions = false) ∧
      ∀ host path w, w.session = x →
        (∀ e, (ran (Recipe.ofManifest host m path).plan w).1 = .error e → e.faultsInstructions = false) ∧
        (∀ e, (ran (Recipe.ofManifest host m path).build w).1 = .error e → e.faultsInstructions = false) ∧
        ∀ l e, (ran ((Recipe.ofManifest host m path).generateLock l) w).1 = .error e → e.faultsInstructions = false := by
  have hvalid := validate_of_parse hm
  obtain ⟨i, rest, hlist, hi, hrest⟩ := Instruction.validate_ok hvalid
  rw [hlist] at hvalid
  obtain ⟨j, reference, hj, hjbase, hfault, hproject, href⟩ := Session.resolveBase_base (x := x) hi fun project hp =>
    hx project (List.mem_filterMap.2 ⟨i, by rw [hlist]; exact List.mem_cons_self, hp⟩)
  have hresolve : x.resolveBases m.instructions = .ok (j :: rest) := by
    have htail := Session.resolveBases_of_not_isBase (x := x) hrest
    rw [hlist]
    unfold Session.resolveBases at htail ⊢
    rw [List.mapM_cons, hj, htail]
    rfl
  have hvalid' := Instruction.validate_base hjbase hfault hvalid
  have honly : ∀ host path, Recipe.CompilesOnly (fun e => e.faultsInstructions = false)
      (Recipe.ofManifest host m path) x := by
    intro host path is his
    obtain rfl : j :: rest = is := Except.ok.inj (hresolve.symm.trans his)
    exact ⟨by simp [href], fun _ _ _ => Plan.compile_error hvalid'⟩
  refine ⟨i, j :: rest, reference, by rw [hlist]; rfl, hresolve, href rest, fun l t p hp => ?_,
    fun l t e => Plan.compile_error hvalid', ?_⟩
  · exact ⟨Plan.builder_of_compile hp, hproject ▸ Plan.startsFrom_of_compile href hp⟩
  · rintro host path w rfl
    have hadmits := BuildError.admits_not_faultsInstructions
    exact ⟨(Recipe.failsOnly_plan hadmits (honly host path)).error,
      (Recipe.failsOnly_build hadmits (honly host path)).error,
      fun l => (Recipe.failsOnly_generateLock hadmits (honly host path) l).error⟩

namespace Sample

/-- A manifest that names a tag for its base project, which is not the tag of the project's image. -/
def onBaseText : String :=
  "manifest_version = 1\n[image]\nproject = 'app'\ntag = 'app:1'\ndistribution = 'debian'\n" ++
    "[[instruction]]\nkind = 'from_built_image'\nproject = 'base'\ntag = 'base:1'\n" ++
    "[[instruction]]\nkind = 'env'\nkey = 'A'\nvalue = '1'\n"

def onBase : Manifest where
  version := 1
  image :=
    { project := "app", tag := "app:1", distribution := .debian, architecture := none, isolate := false,
      backend := .daemon, lockfile := none, workDirectory := none }
  instructions := [.builtBase "base" (some "base:1") none, .env "A" "1"]

def baseSession : Session := ⟨SortedMap.empty.insert "base" ⟨"base:2", "sha256:2", .daemon, ⟨⟨2024, 1, 1⟩, 0, 0, 0, 0⟩⟩⟩

def onDebian : Target := { distribution := .debian, architecture := .x86, builder := .daemon }

theorem parse_onBaseText : Manifest.parse onBaseText = .ok onBase := by decide +kernel

end Sample

/-- Both builders start from the tag in the session, and not from the one in the manifest. -/
theorem Manifest.starts_everywhere_sample :
    parse Sample.onBaseText = .ok Sample.onBase ∧ ∃ is p d,
      Sample.baseSession.resolveBases Sample.onBase.instructions = .ok is ∧
      Instruction.baseReference? is = some "base:2" ∧
      Plan.compile is Lockfile.empty Sample.onDebian = .ok (.daemon p) ∧
      p.directives.head? = some "# base\nFROM base:2" ∧
      Plan.compile is Lockfile.empty { Sample.onDebian with builder := .direct } = .ok (.direct d) ∧
      ∃ imageId, d.base = .builtImage "base" "base:2" imageId := by
  obtain ⟨i, is, reference, hi, his, href, hplans, -⟩ :=
    Manifest.starts_everywhere (x := Sample.baseSession) Sample.parse_onBaseText (by decide)
  refine ⟨Sample.parse_onBaseText, is, ?_⟩
  cases hi
  have hlist : Sample.baseSession.resolveBases Sample.onBase.instructions =
      .ok [.builtBase "base" (some "base:2") (some "sha256:2"), .env "A" "1"] := by decide
  cases his.symm.trans hlist
  cases href
  refine ⟨_, _, hlist, rfl, rfl, ?_, rfl, ?_⟩
  · exact (hplans Lockfile.empty Sample.onDebian _ rfl).2
  · exact (hplans Lockfile.empty { Sample.onDebian with builder := .direct } _ rfl).2

end ImageRecipe
