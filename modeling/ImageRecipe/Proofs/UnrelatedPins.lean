import ImageRecipe.Proofs.InstallExpansion

/-! Pins that a plan does not depend on. Compiling looks only for pins of packages that the instructions install, and
only for those that fit the target. Lockfiles that hold the same pins of this kind come to the same plan or to the same
error, whatever else they pin. -/

namespace ImageRecipe

variable {l l' : Lockfile} {t : Target}

namespace Lockfile

/-- Two lockfiles hold the same pins of the packages that instructions install on a target. -/
def AgreeOn (l l' : Lockfile) (t : Target) (is : List Instruction) : Prop :=
  ∀ packages, .install packages ∈ is → ∀ p : Pin, p.name ∈ packages → ¬ IsIndexFile p.name →
    p.installableOn t.distribution t.architecture = true → (p ∈ l.pins t.distribution ↔ p ∈ l'.pins t.distribution)

/-- Two lockfiles give the same pins of the packages that instructions look for on a target. -/
def LookAlike (l l' : Lockfile) (t : Target) (is : List Instruction) : Prop :=
  ∀ packages, .install packages ∈ is → ∀ name ∈ Instruction.wantedPackages packages,
    l.lookup name t.distribution t.architecture = l'.lookup name t.distribution t.architecture

theorem AgreeOn.lookAlike {is : List Instruction} (h : l.AgreeOn l' t is) (hl : l.Unambiguous)
    (hl' : l'.Unambiguous) : l.LookAlike l' t is := by
  intro packages hmem name hname
  obtain ⟨hpackage, hmarked⟩ := Instruction.mem_wantedPackages.1 hname
  ext p
  rw [hl.lookup_eq_some_iff, hl'.lookup_eq_some_iff]
  constructor
  · rintro ⟨hp, rfl, hinstallable⟩
    exact ⟨(h packages hmem p hpackage hmarked hinstallable).1 hp, rfl, hinstallable⟩
  · rintro ⟨hp, rfl, hinstallable⟩
    exact ⟨(h packages hmem p hpackage hmarked hinstallable).2 hp, rfl, hinstallable⟩

theorem LookAlike.of_cons {i : Instruction} {is : List Instruction} (h : l.LookAlike l' t (i :: is)) :
    l.LookAlike l' t is := fun packages hmem => h packages (.tail i hmem)

theorem pinsFor_congr {names : List String} {d : Distribution} {a : Architecture}
    (h : ∀ n ∈ names, l.lookup n d a = l'.lookup n d a) : l.pinsFor names d a = l'.pinsFor names d a := by
  have hmissing : (names.filter fun n => (l.lookup n d a).isNone) = names.filter fun n => (l'.lookup n d a).isNone :=
    List.filter_congr fun n hn => by rw [h n hn]
  unfold pinsFor
  rw [hmissing, List.filterMap_congr h]

end Lockfile

namespace Target

theorem installCommands_congr {packages : SortedSet String}
    (h : ∀ n ∈ Instruction.wantedPackages packages,
      l.lookup n t.distribution t.architecture = l'.lookup n t.distribution t.architecture) :
    t.installCommands l packages = t.installCommands l' packages := by
  by_cases hnil : Instruction.wantedPackages packages = []
  · rw [installCommands_of_nil hnil, installCommands_of_nil hnil]
  · rw [installCommands_of_ne_nil hnil, installCommands_of_ne_nil hnil, Lockfile.pinsFor_congr h]

/-- An instruction reads the lockfile only by looking up the packages that it installs. -/
theorem directives_congr {i : Instruction} (h : l.LookAlike l' t [i]) (mounts : List Mount) (user : String) :
    t.directives l mounts user i = t.directives l' mounts user i := by
  cases i with
  | install packages => rw [directives, directives, installCommands_congr (h packages List.mem_cons_self)]
  | builtBase project tag id => cases tag <;> rfl
  | _ => rfl

theorem directivesFrom_congr {mounts : List Mount} : ∀ {is : List Instruction} (user : String),
    l.LookAlike l' t is → t.directivesFrom l mounts user is = t.directivesFrom l' mounts user is
  | [], _, _ => rfl
  | i :: r, user, h => by
    have hi : l.LookAlike l' t [i] := fun packages hmem =>
      h packages (List.mem_cons.2 (.inl (List.mem_singleton.1 hmem)))
    rw [directivesFrom, directivesFrom, directives_congr hi]
    simp only [directivesFrom_congr _ h.of_cons]

end Target

/-- Lockfiles that hold the same pins of the packages that instructions install, among those that fit the target, come
to the same plan or to the same error. So the plan has the same digest, and its result is remembered under the same
key. -/
theorem Plan.compile_pins_congr {is : List Instruction} (hl : l.Reachable) (hl' : l'.Reachable)
    (h : l.AgreeOn l' t is) :
    compile is l t = compile is l' t ∧
      ∀ p p', compile is l t = .ok p → compile is l' t = .ok p' → p.contentHash = p'.contentHash ∧
        ∀ (r : Recipe) (w : WorkDirectory) (context : String),
          r.key ⟨w, is, p, context⟩ = r.key ⟨w, is, p', context⟩ := by
  have hlook := h.lookAlike hl.unambiguous hl'.unambiguous
  have heq : compile is l t = compile is l' t := by
    have hdaemon : t.daemonPlan l is = t.daemonPlan l' is := by
      unfold Target.daemonPlan
      simp only [Target.directivesFrom_congr _ hlook]
    unfold compile
    rw [hdaemon]
  refine ⟨heq, fun p p' hp hp' => ?_⟩
  obtain rfl : p = p' := Except.ok.inj (hp.symm.trans (heq.trans hp'))
  exact ⟨rfl, fun _ _ _ => rfl⟩

namespace Sample

/-- The lockfile with other pins beside the one that counts: of another package, distribution and architecture. -/
def crowded : Lockfile :=
  (((lockfile.insert .debian ⟨"curl", "8", "1", "all"⟩).1.insert .ubuntu (library "9" "all")).1.replacePartition .debian
    .arm [library "3" "arm64"]).1

theorem reachable_crowded : crowded.Reachable := ((reachable_lockfile.insert ..).insert ..).replacePartition ..

end Sample

/-- A library is installed at the same version whatever pins stand beside its own. -/
theorem Plan.compile_pins_congr_sample :
    Sample.crowded ≠ Sample.lockfile ∧
      Plan.compile (Sample.provisioning.take 3) Sample.lockfile Sample.debianMirror =
        Plan.compile (Sample.provisioning.take 3) Sample.crowded Sample.debianMirror := by
  refine ⟨by decide, (Plan.compile_pins_congr Sample.reachable_lockfile Sample.reachable_crowded ?_).1⟩
  intro packages hmem p hname hmarked hinstallable
  have hsame : ∀ p : Pin, p ∈ Sample.lockfile.pins .debian → p.installableOn .debian .x86 = true →
      p ∈ Sample.crowded.pins .debian := by decide
  have hsame' : ∀ p : Pin, p ∈ Sample.crowded.pins .debian → p.installableOn .debian .x86 = true →
      p ∈ Sample.lockfile.pins .debian ∨ p.name = "curl" := by decide
  have hpackages : packages = SortedSet.ofList ["libc", "__META__Packages"] := by
    simpa [Sample.provisioning] using hmem
  subst hpackages
  refine ⟨fun hp => hsame p hp hinstallable, fun hp => (hsame' p hp hinstallable).resolve_right fun hcurl => ?_⟩
  rw [hcurl] at hname
  simp at hname

end ImageRecipe
