import ImageRecipe.Plan.BuildFile
import ImageRecipe.Proofs.ContextSources
import ImageRecipe.Proofs.InstallExpansion

/-! What the directives of a plan read of the work directory is in the context of the build: the ignore file lets it
through, the plan lists it among its mounts, and the digest of the context covers it. -/

namespace ImageRecipe

/-- A path is a directory or lies below it, as their texts tell. -/
def Path.LiesIn (path directory : String) : Prop := path = directory ∨ ∃ rest, path = directory ++ "/" ++ rest

theorem layerSource_liesIn (layer : Nat) : Path.LiesIn (layerSource layer) contextDirectory := by
  refine .inr ⟨"layer" ++ Text.decimal layer, ?_⟩
  have hline : "/layer" = "/" ++ "layer" := by decide
  unfold layerSource
  rw [hline]
  simp only [String.append_assoc]

/-- The paths that the lines of an ignore file let through again. -/
def IgnoreFile.readmitted (text : String) : List String :=
  (Text.lines text.toList).filterMap fun line => (Text.dropStart? ['!'] line).map String.ofList

theorem Text.exists_intercalate (words : String) {s : String} : ∀ {l : List String}, s ∈ l →
    ∃ before after, words.intercalate l = before ++ s ++ after
  | [t], h => ⟨"", "", by simp [List.mem_singleton.1 h]⟩
  | t :: u :: r, h => by
    rw [String.intercalate_cons_cons]
    rcases List.mem_cons.1 h with rfl | h
    · exact ⟨"", words ++ words.intercalate (u :: r), by simp [String.append_assoc]⟩
    · obtain ⟨before, after, heq⟩ := exists_intercalate words h
      exact ⟨t ++ words ++ before, after, by rw [heq]; simp only [String.append_assoc]⟩

namespace Directive

/-- What a directive reads of the work directory. -/
def sources : Directive → List String
  | copy layer _ => [layerSource layer]
  | run _ mounts => mounts.map Mount.source
  | _ => []

/-- Whether a directive's text names a source: in front of the root directory that it is copied to, or in the flag of a
mount that is bound while commands run. -/
def Names (d : Directive) (source : String) : Prop :=
  (∃ flags, d.render = "COPY " ++ flags ++ source ++ " /") ∨
    ∃ m : Mount, m.source = source ∧ ∃ before after, d.render = "RUN " ++ before ++ m.flag ++ after

theorem names_of_mem_sources {d : Directive} {source : String} (h : source ∈ d.sources) : d.Names source := by
  cases d with
  | copy layer owner =>
    obtain rfl : source = layerSource layer := by simpa [sources] using h
    refine .inl ?_
    have hflag : "COPY --chown=" = "COPY " ++ "--chown=" := by decide
    have plain : ∃ flags, "COPY " ++ layerSource layer ++ " /" = "COPY " ++ flags ++ layerSource layer ++ " /" :=
      ⟨"", by simp⟩
    cases owner with
    | none => exact plain
    | some o =>
      dsimp only [render]
      split
      · exact plain
      · exact ⟨"--chown=" ++ o ++ " ", by simp only [hflag, String.append_assoc]⟩
  | run commands mounts =>
    have h : source ∈ mounts.map Mount.source := h
    obtain ⟨m, hm, rfl⟩ := List.mem_map.1 h
    have hflag : m.flag ∈ mounts.map Mount.flag := List.mem_map_of_mem hm
    obtain ⟨before, after, heq⟩ := Text.exists_intercalate " " hflag
    refine .inr ⟨m, rfl, before, after ++ (" \\\n " ++ chain commands), ?_⟩
    cases mounts with
    | nil => cases hm
    | cons n r =>
      have hrender : (run commands (n :: r)).render =
          "RUN " ++ " ".intercalate ((n :: r).map Mount.flag) ++ " \\\n " ++ chain commands := rfl
      rw [hrender, heq]
      simp only [String.append_assoc]
  | _ => cases h

theorem startsWith_render_run (commands : List String) (mounts : List Mount) :
    (run commands mounts).render.startsWith "RUN" = true := by
  rw [String.startsWith_string_iff]
  dsimp only [render]
  split <;> exact List.prefix_iff_eq_append.2 (by simp)

end Directive

namespace Target

variable {t : Target} {l : Lockfile} {mounts ms : List Mount} {user next : String} {i : Instruction}
  {here : List Directive} {is : List Instruction} {bs : List (Instruction × List Directive)}

/-- Under which names and from where a target mounts: the engine's own files, and in isolation the definition of the
local mirror, as a file or with its directory, and the packages. -/
theorem mounts_cases (h : t.mounts = .ok mounts) : (mounts.map fun m => (m.name, m.source)) ∈
    [[("docker", "ephemeral/docker")],
      [("docker", "ephemeral/docker"), ("repos", "ephemeral/repos"), ("packages", "ephemeral/packages")],
      [("docker", "ephemeral/docker"), ("repos", "ephemeral/repos/sources.list"),
        ("packages", "ephemeral/packages")]] := by
  unfold Target.mounts at h
  dsimp only at h
  split at h
  · obtain ⟨r, hr, h⟩ := bind_eq_ok.1 h
    obtain rfl := Except.ok.inj h
    unfold Distribution.localRepository at hr
    split at hr
    · cases hr
      exact .tail _ (.tail _ (.head _))
    · cases hr
      exact .tail _ (.head _)
    · cases hr
  · obtain rfl := Except.ok.inj h
    exact .head _

/-- A plan keeps every mount of its target, and no others. -/
theorem perm_entries_mounts (h : t.mounts = .ok mounts) :
    (mounts.map Mount.name).Nodup ∧ (mounts.map fun m => (m.name, m.source)).Perm
      (SortedMap.ofList (mounts.map fun m => (m.name, m.source))).entries := by
  have hname : mounts.map Mount.name = (mounts.map fun m => (m.name, m.source)).map Prod.fst := by simp
  have hcases := mounts_cases h
  rw [hname]
  generalize mounts.map (fun m => (m.name, m.source)) = pairs at hcases
  revert pairs
  decide

/-- The ignore file of a plan lets the layers through and the sources of the mounts. -/
theorem readmitted_ignoreManifest (h : t.mounts = .ok mounts) (texts : List String) :
    ∀ source ∈ contextDirectory :: mounts.map Mount.source, source ∈ IgnoreFile.readmitted
      (DaemonPlan.ignoreManifest ⟨texts, SortedMap.ofList (mounts.map fun m => (m.name, m.source))⟩) := by
  have hsource : mounts.map Mount.source = (mounts.map fun m => (m.name, m.source)).map Prod.snd := by simp
  have hcases := mounts_cases h
  dsimp only [DaemonPlan.ignoreManifest]
  rw [hsource]
  generalize mounts.map (fun m => (m.name, m.source)) = pairs at hcases
  revert pairs
  decide

/-- The layers that directives copy are those that their instruction names. -/
theorem copy_mem_directives {layer : Nat} {owner : Option String}
    (h : t.directives l mounts user i = .ok (here, next)) :
    .copy layer owner ∈ here ↔ i = .copy layer owner := by
  cases i with
  | install packages =>
    obtain ⟨_ | commands, -, h⟩ := bind_eq_ok.1 h <;> cases h <;> simp
  | configureRepositories commands =>
    cases h
    split <;> simp
  | builtBase project tag id =>
    cases tag with
    | none => cases h
    | some tag =>
      cases h
      simp
  | copy =>
    cases h
    simp [eq_comm]
  | _ =>
    cases h
    simp

/-- Commands run with the mounts of the target, unless they set up repositories. -/
theorem run_mem_directives {commands : List String} (h : t.directives l mounts user i = .ok (here, next))
    (hx : .run commands ms ∈ here) : ms = mounts ∨ ms = [] ∧ i = .configureRepositories commands := by
  cases i with
  | install packages =>
    obtain ⟨_ | commands, -, h⟩ := bind_eq_ok.1 h
    · cases h
      cases hx
    · cases h
      simp only [List.mem_cons, reduceCtorEq, Directive.run.injEq, List.not_mem_nil, false_or, or_false] at hx
      exact .inl hx.2
  | configureRepositories commands =>
    cases h
    split at hx
    · cases hx
    · simp only [List.mem_singleton, Directive.run.injEq] at hx
      exact .inr ⟨hx.2, by rw [hx.1]⟩
  | builtBase project tag id =>
    cases tag with
    | none => cases h
    | some tag =>
      cases h
      simp at hx
  | run =>
    cases h
    simp only [List.mem_singleton, Directive.run.injEq] at hx
    exact .inl hx.2
  | _ =>
    cases h
    simp at hx

theorem exists_directives_of_mem (h : t.blocksFrom l mounts user is = .ok bs) (hb : (i, here) ∈ bs) :
    ∃ user next, t.directives l mounts user i = .ok (here, next) := by
  obtain ⟨before, after, hsplit⟩ := List.append_of_mem hb
  exact ⟨_, directives_of_blocksFrom h hsplit⟩

/-- The layers that are copied are those of the instructions. -/
theorem copy_mem_of_blocksFrom (h : t.blocksFrom l mounts user is = .ok bs) (layer : Nat) (owner : Option String) :
    .copy layer owner ∈ bs.flatMap Prod.snd ↔ .copy layer owner ∈ is := by
  rw [← map_fst_of_blocksFrom h, List.mem_flatMap, List.mem_map]
  constructor
  · rintro ⟨⟨i, here⟩, hb, hx⟩
    obtain ⟨user, next, hhere⟩ := exists_directives_of_mem h hb
    exact ⟨(i, here), hb, (copy_mem_directives hhere).1 hx⟩
  · rintro ⟨⟨i, here⟩, hb, rfl⟩
    obtain ⟨user, next, hhere⟩ := exists_directives_of_mem h hb
    exact ⟨_, hb, (copy_mem_directives hhere).2 rfl⟩

/-- What directives read is a layer that is copied, or the source of a mount. -/
theorem mem_sources_of_blocksFrom (h : t.blocksFrom l mounts user is = .ok bs) {x : Directive}
    (hx : x ∈ bs.flatMap Prod.snd) {source : String} (hs : source ∈ x.sources) :
    (∃ layer, source = layerSource layer) ∨ source ∈ mounts.map Mount.source := by
  obtain ⟨⟨i, here⟩, hb, hx⟩ := List.mem_flatMap.1 hx
  obtain ⟨user, next, hhere⟩ := exists_directives_of_mem h hb
  cases x with
  | copy layer owner => exact .inl ⟨layer, by simpa [Directive.sources] using hs⟩
  | run commands ms =>
    rcases run_mem_directives hhere hx with rfl | ⟨rfl, -⟩
    · exact .inr hs
    · cases hs
  | _ => cases hs

end Target

namespace BuildContext

variable {w w' : Workshop} {d : WorkDirectory} {instructions : List Instruction} {h : Host} {l : List Part}

/-- There is a part for every place. -/
theorem mem_of_partsAt : ∀ {places : List (String × String)} {l : List Part}, partsAt h places = .ok l →
    ∀ e ∈ places, ∃ s, sourceAt h e.2 = .ok s ∧ (e.1, s) ∈ l
  | [], _, _ => fun _ he => absurd he List.not_mem_nil
  | e :: places, _, hl => by
    obtain ⟨s, rest, hs, hrest, rfl⟩ := partsAt_cons.1 hl
    rintro x (- | ⟨-, hx⟩)
    · exact ⟨s, hs, List.mem_cons_self⟩
    · obtain ⟨s', hs', hmem⟩ := mem_of_partsAt hrest x hx
      exact ⟨s', hs', .tail _ hmem⟩

/-- A digest is made of the lines of the bases and the bytes of the parts. -/
theorem parts_of_digest {p : Plan} {id : String} (hy : Yields (digest d instructions p) w id w') :
    ∃ l, partsAt w.host (placesOf d instructions p) = .ok l ∧
      id = Blake3.hex ⟨(Archive.bytesOfText (baseLines instructions) ++ bytesOf l).toArray⟩ := by
  obtain ⟨bs, _, hstream, hy⟩ := (yields_bind ..).1 hy
  obtain ⟨l, hl, rfl⟩ := parts_of_stream hstream
  exact ⟨l, hl, ((yields_pure ..).1 hy).1.symm⟩

theorem mem_copiedLayers {layer : Nat} {owner : Option String} (h : .copy layer owner ∈ instructions) :
    layer ∈ copiedLayers instructions :=
  SortedSet.mem_ofList.2 (List.mem_filterMap.2 ⟨_, h, rfl⟩)

/-- Every mount is among the places of a plan that runs commands. -/
theorem mount_mem_placesOf {plan : DaemonPlan} (hruns : ∃ x ∈ plan.directives, x.startsWith "RUN" = true)
    {name source : String} (hm : (name, source) ∈ plan.mounts.entries) :
    ("mount " ++ name, d.path source) ∈ placesOf d instructions (.daemon plan) := by
  refine List.mem_append_right _ (List.mem_map.2 ⟨(name, source), ?_, rfl⟩)
  rwa [visibleMounts_daemon, if_pos (List.any_eq_true.2 hruns)]

end BuildContext

namespace Plan

variable {is : List Instruction} {l : Lockfile} {t : Target} {plan : DaemonPlan}

/-- The directives of a daemon's plan, the mounts that the plan lists, its ignore file and the digest of its context
agree about what is read of the work directory. Whatever a directive reads is named in its text and is let through by
the ignore file. Commands that run or install see mounts with names of their own, and these with their sources are the
plan's list of mounts. And the digest is made of parts, among which is the directory of every layer that is copied and,
if commands see any mounts, the source of every mount. -/
theorem context_of_compile (hp : compile is l t = .ok (.daemon plan)) :
    ∃ mounts bs, t.mounts = .ok mounts ∧ t.blocksFrom l mounts t.defaultUser is = .ok bs ∧ bs.map Prod.fst = is ∧
      plan.directives = (bs.flatMap Prod.snd).map Directive.render ∧
      (∀ x ∈ bs.flatMap Prod.snd, ∀ source ∈ x.sources, x.Names source ∧
        ∃ path ∈ IgnoreFile.readmitted plan.ignoreManifest, Path.LiesIn source path) ∧
      (∀ i here, (i, here) ∈ bs → (∀ commands, i ≠ .configureRepositories commands) →
        ∀ commands ms, .run commands ms ∈ here → ms = mounts) ∧
      (mounts.map Mount.name).Nodup ∧ (mounts.map fun m => (m.name, m.source)).Perm plan.mounts.entries ∧
      (∀ layer owner, .copy layer owner ∈ bs.flatMap Prod.snd ↔ .copy layer owner ∈ is) ∧
      ∀ d w id w', Yields (BuildContext.digest d is (.daemon plan)) w id w' →
        ∃ parts, id = Blake3.hex
            ⟨(Archive.bytesOfText (BuildContext.baseLines is) ++ BuildContext.bytesOf parts).toArray⟩ ∧
          (∀ layer owner, .copy layer owner ∈ is →
            ∃ s, BuildContext.sourceAt w.host (d.path (layerSource layer)) = .ok s ∧
              ("layer" ++ Text.decimal layer, s) ∈ parts) ∧
          ((∃ commands ms, .run commands ms ∈ bs.flatMap Prod.snd ∧ ms ≠ []) → ∀ m ∈ mounts,
            ∃ s, BuildContext.sourceAt w.host (d.path m.source) = .ok s ∧ ("mount " ++ m.name, s) ∈ parts) := by
  obtain ⟨-, -, mounts, ds, hmounts, hds, rfl⟩ := compile_eq_daemon_iff.1 hp
  rw [Target.directivesFrom_eq] at hds
  obtain ⟨bs, hbs, rfl⟩ := map_eq_ok.1 hds
  have hreadmitted := Target.readmitted_ignoreManifest hmounts ((bs.flatMap Prod.snd).map Directive.render)
  obtain ⟨hnodup, hperm⟩ := Target.perm_entries_mounts hmounts
  refine ⟨mounts, bs, hmounts, hbs, Target.map_fst_of_blocksFrom hbs, rfl, ?_, ?_, hnodup, hperm,
    Target.copy_mem_of_blocksFrom hbs, ?_⟩
  · intro x hx source hs
    refine ⟨Directive.names_of_mem_sources hs, ?_⟩
    rcases Target.mem_sources_of_blocksFrom hbs hx hs with ⟨layer, rfl⟩ | hs
    · exact ⟨contextDirectory, hreadmitted _ List.mem_cons_self, layerSource_liesIn layer⟩
    · exact ⟨source, hreadmitted _ (.tail _ hs), .inl rfl⟩
  · intro i here hb hi commands ms hx
    obtain ⟨user, next, hhere⟩ := Target.exists_directives_of_mem hbs hb
    exact (Target.run_mem_directives hhere hx).resolve_right fun h => hi _ h.2
  · intro d w id w' hy
    obtain ⟨parts, hparts, rfl⟩ := BuildContext.parts_of_digest hy
    have hpart := BuildContext.mem_of_partsAt hparts
    refine ⟨parts, rfl, fun layer owner hcopy => ?_, ?_⟩
    · exact hpart ("layer" ++ Text.decimal layer, d.layer layer)
        (List.mem_append_left _ (List.mem_map.2 ⟨layer, BuildContext.mem_copiedLayers hcopy, rfl⟩))
    · rintro ⟨commands, ms, hx, -⟩ m hm
      have hentry : (m.name, m.source) ∈ (SortedMap.ofList (mounts.map fun m => (m.name, m.source))).entries :=
        hperm.subset (List.mem_map.2 ⟨m, hm, rfl⟩)
      have hruns : ∃ x ∈ (bs.flatMap Prod.snd).map Directive.render, x.startsWith "RUN" = true :=
        ⟨_, List.mem_map_of_mem hx, Directive.startsWith_render_run commands ms⟩
      exact hpart ("mount " ++ m.name, d.path m.source) (BuildContext.mount_mem_placesOf hruns hentry)

/-- A recipe for an isolated build that copies a layer and runs a command. -/
def Sample.isolated : List Instruction := [.base "i" "v" none, .copy 3 (some "7:7"), .run ["true"]]

def Sample.isolatedPlan : DaemonPlan where
  directives := ["FROM i:v", "COPY --chown=7:7 context/layer3 /",
    "RUN --mount=type=bind,readonly,target=/var/kiln-ephemeral,source=ephemeral/docker " ++
      "--mount=type=bind,readonly,target=/etc/apt/sources.list,source=ephemeral/repos/sources.list " ++
      "--mount=type=bind,readwrite,target=/var/kiln-packages,source=ephemeral/packages \\\n true"]
  mounts := SortedMap.ofList [("docker", "ephemeral/docker"), ("packages", "ephemeral/packages"),
    ("repos", "ephemeral/repos/sources.list")]

theorem context_of_compile_isolated :
    ∃ (mounts : List Mount) (bs : List (Instruction × List Directive)), compile Sample.isolated Lockfile.empty
        { distribution := .debian, architecture := .x86, builder := .daemon, isolate := true } =
          .ok (.daemon Sample.isolatedPlan) ∧
      bs.map Prod.fst = Sample.isolated ∧
      Sample.isolatedPlan.directives = (bs.flatMap Prod.snd).map Directive.render ∧
      (mounts.map fun m => (m.name, m.source)).Perm Sample.isolatedPlan.mounts.entries := by
  have hp : compile Sample.isolated Lockfile.empty
      { distribution := .debian, architecture := .x86, builder := .daemon, isolate := true } =
        .ok (.daemon Sample.isolatedPlan) := by decide +kernel
  obtain ⟨mounts, bs, -, -, hfst, hdirectives, -, -, -, hperm, -⟩ := context_of_compile hp
  exact ⟨mounts, bs, hp, hfst, hdirectives, hperm⟩

end Plan

end ImageRecipe
