import ImageRecipe.Proofs.DirectiveLines

/-! What a reader finds in the build file of a plan: the directives of the plan and no others, if each of them is
whole. -/

namespace ImageRecipe

open Text

namespace BuildFile

def reading (d : Directive) : List (List Char) := (readFrom .lineStart (d.render.toList ++ ['\n'])).1

/-- What a directive that ends its line is read as: a directive at the end, and no other if the comment in front is
nothing but a comment. -/
theorem readFrom_render {d : Directive} (h : keepsLine true d.statement = true) :
    readFrom .lineStart (d.render.toList ++ ['\n']) = (reading d, .lineStart) ∧ reading d ≠ [] ∧
      (reading d = [d.statement.toList] ↔ d.isWhole = true) := by
  have hstatement := readFrom_lineStart h d.head?_statement
  unfold reading
  rw [d.isWhole_eq, h, Bool.and_true, d.render_eq]
  cases d.comment? with
  | none => simp [hstatement]
  | some c =>
    have htext : (("# " ++ c ++ "\n") ++ d.statement).toList ++ ['\n'] =
        ('#' :: ' ' :: (c.toList ++ ['\n'])) ++ (d.statement.toList ++ ['\n']) := by simp
    have hcomment : readFrom .lineStart ('#' :: ' ' :: (c.toList ++ ['\n'])) =
        readFrom .comment (c.toList ++ ['\n']) := rfl
    rw [Option.elim_some, htext, readFrom_append (hcomment.trans rfl), Option.all_some, ← readFrom_comment_iff]
    rcases hc : readFrom .comment (c.toList ++ ['\n']) with ⟨xs, p⟩
    have hp := readFrom_concat (p := .comment) (x := c.toList)
    rw [hc] at hp
    rcases hp with rfl | ⟨text, rfl⟩
    · simp [hstatement]
    -- a line of the comment is a directive that goes on, and takes in the statement
    · have hgoes : readFrom (.directive ('\n' :: text)) (d.statement.toList ++ ['\n']) =
          ([('\n' :: text).reverse ++ d.statement.toList], .lineStart) := readFrom_directive _ h
      have hlonger : xs ++ [('\n' :: text).reverse ++ d.statement.toList] ≠ [d.statement.toList] := by
        intro heq
        have hlength := congrArg (fun l => l.getLast?.map List.length) heq
        simp at hlength
        omega
      rw [hgoes]
      exact ⟨rfl, by simp, iff_of_false hlonger (by simp)⟩

theorem readFrom_directives {ds : List Directive} (h : ∀ d ∈ ds, keepsLine true d.statement = true) :
    readFrom .lineStart (ds.flatMap fun d => d.render.toList ++ ['\n']) = (ds.flatMap reading, .lineStart) := by
  induction ds with
  | nil => rfl
  | cons d r ih =>
    have hfirst := (readFrom_render (h d List.mem_cons_self)).1
    rw [List.flatMap_cons, List.flatMap_cons, readFrom_append hfirst, ih fun e he => h e (.tail d he)]

theorem toList_intercalate_append (word : String) : ∀ {texts : List String}, texts ≠ [] →
    (word.intercalate texts ++ word).toList = texts.flatMap fun s => s.toList ++ word.toList
  | [s], _ => by simp
  | s :: t :: r, _ => by
    have ih := toList_intercalate_append word (List.cons_ne_nil t r)
    rw [String.intercalate_cons_cons, String.append_assoc, String.toList_append, ih]
    simp

theorem length_le_length_flatMap {α β : Type} {f : α → List β} : ∀ {l : List α}, (∀ a ∈ l, f a ≠ []) →
    l.length ≤ (l.flatMap f).length
  | [], _ => Nat.zero_le _
  | a :: l, hne => by
    have hhere := List.length_pos_iff.2 (hne a List.mem_cons_self)
    have hrest := length_le_length_flatMap fun b hb => hne b (.tail a hb)
    rw [List.flatMap_cons, List.length_append, List.length_cons]
    omega

/-- If each of some things comes to something and all of them together come to as much as there are things, each
comes to one. -/
theorem eq_of_flatMap_eq_map {α β : Type} {f : α → List β} {g : α → β} : ∀ {l : List α},
    (∀ a ∈ l, f a ≠ []) → l.flatMap f = l.map g → ∀ a ∈ l, f a = [g a]
  | [], _, _ => nofun
  | a :: l, hne, h => by
    have hrest : ∀ b ∈ l, f b ≠ [] := fun b hb => hne b (.tail a hb)
    obtain ⟨b, bs, hb⟩ := List.exists_cons_of_ne_nil (hne a List.mem_cons_self)
    rw [List.flatMap_cons, List.map_cons, hb, List.cons_append, List.cons.injEq] at h
    obtain ⟨rfl, h⟩ := h
    have hlength := congrArg List.length h
    rw [List.length_append, List.length_map] at hlength
    have hbs : bs = [] := List.length_eq_zero_iff.1 (by
      have := length_le_length_flatMap hrest
      omega)
    subst hbs
    exact List.forall_mem_cons.2 ⟨hb, eq_of_flatMap_eq_map hrest h⟩

/-- The lines above the directives. -/
def header : String := buildFileBanner ++ "\n" ++ buildFileSyntax ++ "\n"

theorem readFrom_header : readFrom .lineStart header.toList = ([], .lineStart) := by
  simp only [header, buildFileBanner, bannerRule, buildFileSyntax, String.toList_append,
    String.toList_intercalate, List.map, String.reduceToList]
  decide +kernel

variable {p : DaemonPlan} {ds : List Directive}

theorem readFrom_buildFile (hp : p.directives = ds.map Directive.render) (hne : ds ≠ []) :
    readFrom .lineStart p.buildFile.toList =
      readFrom .lineStart (ds.flatMap fun d => d.render.toList ++ ['\n']) := by
  have htext : p.buildFile.toList = header.toList ++ ds.flatMap fun d => d.render.toList ++ ['\n'] := by
    have hdirectives : p.directives ≠ [] := by simp [hp, hne]
    have hlines := toList_intercalate_append "\n" hdirectives
    rw [DaemonPlan.buildFile, String.append_assoc, String.toList_append, hlines, hp, List.flatMap_map]
    rfl
  rw [htext, readFrom_append readFrom_header]
  rfl

/-- A build file is read as the directives of its plan, one for one, exactly if each of them is whole. -/
theorem read?_buildFile_iff (hp : p.directives = ds.map Directive.render) (hne : ds ≠ []) :
    read? p.buildFile = some (ds.map Directive.statement) ↔ ∀ d ∈ ds, d.isWhole = true := by
  rw [read?_eq_some_iff, readFrom_buildFile hp hne, List.map_map]
  constructor
  -- whatever is read keeps to a line, and then each directive is read as one at least, of which there are no more
  · rintro ⟨q, hq, -⟩
    have hkeeps : ∀ d ∈ ds, keepsLine true d.statement = true := fun d hd =>
      keepsLine_of_mem_readFrom (p := .lineStart) trivial _ (by rw [hq]; exact List.mem_map_of_mem hd)
    rw [readFrom_directives hkeeps, Prod.mk.injEq] at hq
    have heach := eq_of_flatMap_eq_map (fun d hd => (readFrom_render (hkeeps d hd)).2.1) hq.1
    exact fun d hd => (readFrom_render (hkeeps d hd)).2.2.1 (heach d hd)
  · intro hwhole
    have hkeeps : ∀ d ∈ ds, keepsLine true d.statement = true := fun d hd => Directive.keepsLine_statement (hwhole d hd)
    have heach : ∀ d ∈ ds, reading d = [d.statement.toList] := fun d hd =>
      (readFrom_render (hkeeps d hd)).2.2.2 (hwhole d hd)
    refine ⟨.lineStart, ?_, nofun⟩
    rw [readFrom_directives hkeeps, List.map_eq_flatMap, List.flatMap_congr heach]
    rfl

end BuildFile

theorem Target.directives_ne_nil {t : Target} {l : Lockfile} {mounts : List Mount} {user next : String}
    {i : Instruction} {here : List Directive} (hi : i.isBase = true)
    (h : t.directives l mounts user i = .ok (here, next)) : here ≠ [] := by
  cases i with
  | base image version digest =>
    cases h
    simp
  | builtBase project tag id =>
    cases tag with
    | none => cases h
    | some tag =>
      cases h
      simp
  | _ => cases hi

/-- A daemon's plan comes to a build file in which a reader finds the directives of the plan, one for one, exactly if
no field ends the line of its directive or goes on after it. -/
theorem Plan.read_buildFile_iff {is : List Instruction} {l : Lockfile} {t : Target} {p : DaemonPlan}
    (h : compile is l t = .ok (.daemon p)) :
    ∃ mounts ds, t.mounts = .ok mounts ∧ t.directivesFrom l mounts t.defaultUser is = .ok ds ∧
      p.directives = ds.map Directive.render ∧
      (BuildFile.read? p.buildFile = some (ds.map Directive.statement) ↔ ∀ d ∈ ds, d.isWhole = true) := by
  obtain ⟨-, hvalid, mounts, ds, hmounts, hds, rfl⟩ := compile_eq_daemon_iff.1 h
  refine ⟨mounts, ds, hmounts, hds, rfl, BuildFile.read?_buildFile_iff rfl ?_⟩
  obtain ⟨i, r, rfl, hbase, -⟩ := Instruction.validate_ok hvalid
  obtain ⟨⟨here, next⟩, hhere, h⟩ := bind_eq_ok.1 hds
  obtain ⟨rest, -, h⟩ := bind_eq_ok.1 h
  rw [← Except.ok.inj h]
  exact List.append_ne_nil_of_left_ne_nil (Target.directives_ne_nil hbase hhere) rest

namespace Sample

/-- A value of two lines, the second of which looks like a directive. -/
def twoLines : List Instruction := [.base "debian" "11" none, .env "A" "1\nUSER root"]

/-- A base that was built for another project, and a command that goes on in a second line. -/
def continued : List Instruction := [.builtBase "base" (some "base:1") none, .configureRepositories ["a \\\n b", "c"]]

def debian : Target := { distribution := .debian, architecture := .x86, builder := .daemon }

def dockerMount : SortedMap String String := SortedMap.empty.insert "docker" "ephemeral/docker"

def twoLinesDirectives : List Directive := [.base "debian" "11" none, .env "A" "1\nUSER root"]

def twoLinesPlan : DaemonPlan := ⟨twoLinesDirectives.map Directive.render, dockerMount⟩

def continuedDirectives : List Directive := [.builtBase "base" "base:1", .run ["a \\\n b", "c"] []]

def continuedPlan : DaemonPlan := ⟨continuedDirectives.map Directive.render, dockerMount⟩

end Sample

/-- A value of two lines is read as the rest of its directive and another one, a command of two lines as one. -/
theorem Plan.read_buildFile_iff_sample :
    compile Sample.twoLines Lockfile.empty Sample.debian = .ok (.daemon Sample.twoLinesPlan) ∧
      BuildFile.read? Sample.twoLinesPlan.buildFile =
        some ["FROM debian:11", "ENV A=\x221", "USER root\x22"] ∧
      BuildFile.read? Sample.twoLinesPlan.buildFile ≠
        some (Sample.twoLinesDirectives.map Directive.statement) ∧
      compile Sample.continued Lockfile.empty Sample.debian = .ok (.daemon Sample.continuedPlan) ∧
      BuildFile.read? Sample.continuedPlan.buildFile =
        some (Sample.continuedDirectives.map Directive.statement) := by
  have htwo : compile Sample.twoLines Lockfile.empty Sample.debian = .ok (.daemon Sample.twoLinesPlan) :=
    compile_eq_daemon_iff.2 ⟨rfl, rfl, _, _, rfl, rfl, rfl⟩
  have hcontinued : compile Sample.continued Lockfile.empty Sample.debian = .ok (.daemon Sample.continuedPlan) :=
    compile_eq_daemon_iff.2 ⟨rfl, rfl, _, _, rfl, rfl, rfl⟩
  refine ⟨htwo, BuildFile.read?_eq_some_iff.2 ⟨.lineStart, ?_, nofun⟩, ?_, hcontinued, ?_⟩
  · have hdirectives : Sample.twoLinesPlan.directives = Sample.twoLinesDirectives.map Directive.render := rfl
    rw [BuildFile.readFrom_buildFile hdirectives nofun]
    decide
  · obtain ⟨mounts, ds, -, hds, -, hiff⟩ := read_buildFile_iff htwo
    have hds : Sample.twoLinesDirectives = ds := Except.ok.inj hds
    subst hds
    exact hiff.not.2 (by decide)
  · obtain ⟨mounts, ds, -, hds, -, hiff⟩ := read_buildFile_iff hcontinued
    have hds : Sample.continuedDirectives = ds := Except.ok.inj hds
    subst hds
    exact hiff.2 (by decide)

end ImageRecipe
