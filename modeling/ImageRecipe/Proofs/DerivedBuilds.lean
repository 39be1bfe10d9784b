import ImageRecipe.Proofs.Sessions

/-! Builds in a row of which later ones start from the images of earlier ones: what the tag of a base leads to
when the image on top of it is made. -/

namespace ImageRecipe

open Workshop

/-- The id that a tag leads to after outcomes, given where it led before: the image of the last outcome that
was made under the tag. -/
def lastMade (tag : String) (found : Option String) : List Outcome → Option String
  | [] => found
  | o :: l => lastMade tag (if o.cached = false ∧ tag = o.result.tag then some o.result.imageId else found) l

private theorem mem_zip_append {α β : Type} {p : α × β} : ∀ {l r : List α} {m : List β},
    p ∈ l.zip m → p ∈ (l ++ r).zip m
  | [], _, _, h => by simp at h
  | _ :: _, _, [], h => by simp at h
  | a :: l, r, b :: m, h => by
    rw [List.zip_cons_cons, List.mem_cons] at h
    rw [List.cons_append, List.zip_cons_cons, List.mem_cons]
    exact h.imp_right mem_zip_append

namespace Recipe

variable {s : Store} {l : List Recipe} {outs : List Outcome} {w w' : Workshop}

/-- Builds in a row leave each tag at the last image that was made under it, and what the session has of a
project is the result of its build. -/
theorem yields_buildAll (hk : ∀ r ∈ l, r.backend = .mock) (hs : w.Uses s)
    (h : Yields (buildAll l) w outs w') :
    w'.Uses s ∧ (∀ tag, w'.mockImage? tag = lastMade tag (w.mockImage? tag) outs) ∧
      ∀ project x, w'.session.resolve? project = some x →
        w.session.resolve? project = some x ∨
          ∃ b ∈ l.zip outs, b.1.project = project ∧ b.2.result = x := by
  suffices hmade : w'.Uses s ∧ ∀ tag, w'.mockImage? tag = lastMade tag (w.mockImage? tag) outs from
    ⟨hmade.1, hmade.2, fun project x => ((resolve?_buildAll h).2.2 project x).1⟩
  induction l generalizing w outs with
  | nil =>
    obtain ⟨rfl, rfl⟩ := (yields_mapM_nil ..).1 h
    exact ⟨hs, fun _ => rfl⟩
  | cons r l ih =>
    obtain ⟨o, w₁, rest, hbuild, hrest, rfl⟩ := (yields_mapM_cons ..).1 h
    have hr : r.backend = .mock := hk r (by simp)
    have hne : r.backend ≠ .daemon := by simp [hr]
    have hs₁ : w₁.Uses s := by
      have := (BuildCall.evolves (c := ⟨r, w⟩) hne hs).uses
      rwa [BuildCall.after, show ran r.build w = (.ok o, w₁) from hbuild] at this
    obtain ⟨hs', himages⟩ := ih (fun q hq => hk q (by simp [hq])) hs₁ hrest
    obtain ⟨htag, hmove⟩ := mockImage?_build hr hs hbuild
    refine ⟨hs', fun tag => ?_⟩
    rw [himages, hmove, lastMade]
    congr 1
    by_cases hcached : o.cached = false
    · rw [htag hcached]
    · simp [hcached]

/-- In a run of builds one recipe comes to the point where its image is made: the builds before it came to
outcomes, it settled on a job, and the cache has no image of it. -/
def HandsOver (l : List Recipe) (w : Workshop) (outs : List Outcome) (r : Recipe) (j : Job)
    (w' : Workshop) : Prop :=
  ∃ front rest w₁ w₂, l = front ++ r :: rest ∧ Yields (buildAll front) w outs w₁ ∧ Yields r.job w₁ j w₂ ∧
    Yields (r.cached? (r.key j)) w₂ none w'

/-- From there the run goes on with the making of the image. -/
theorem HandsOver.ran_buildAll {r : Recipe} {j : Job} (h : HandsOver l w outs r j w') :
    ∃ k : BuildResult → BuildM (List Outcome), ran (buildAll l) w = ran (r.makeImage j >>= k) w' := by
  obtain ⟨front, rest, w₁, w₂, rfl, hfront, hjob, hmiss⟩ := h
  unfold buildAll at hfront ⊢
  rw [List.mapM_append, hfront.ran_bind, List.mapM_cons]
  simp only [build, bind_assoc]
  rw [hjob.ran_bind, hmiss.ran_bind]
  simp only [materialize, bind_assoc]
  exact ⟨_, rfl⟩

/-- When the image of a recipe on top of another project's image is made, the first directive of its plan names
the tag of the image that the session has of that project, and that image is the outcome of an earlier build.
The tag leads to it just when it is the last that was made under the tag. -/
theorem HandsOver.base_iff {r : Recipe} {j : Job} (h : HandsOver l w outs r j w') (hs : w.Uses s)
    (hnew : w.session = Session.empty) (hk : ∀ q ∈ l, q.backend = .mock) {project : String}
    {tag id : Option String} (hbase : .builtBase project tag id ∈ r.instructions) :
    ∃ x plan rest, w'.session.resolve? project = some x ∧
      (∃ b ∈ l.zip outs, b.1.project = project ∧ b.2.result = x) ∧
      j.plan = .daemon plan ∧ plan.directives = ("# " ++ project ++ "\nFROM " ++ x.tag) :: rest ∧
      (w'.mockImage? x.tag = some x.imageId ↔
        lastMade x.tag (w.mockImage? x.tag) outs = some x.imageId) := by
  obtain ⟨front, rest, w₁, w₂, rfl, hfront, hjob, hmiss⟩ := h
  have hr : r.backend = .mock := hk r (by simp)
  have hne : r.backend ≠ .daemon := by simp [hr]
  obtain ⟨hs₁, himages, hresults⟩ := yields_buildAll (fun q hq => hk q (by simp [hq])) hs hfront
  obtain ⟨he, hsession, hsame⟩ :=
    (keeps_job hne Store.allowsClearing_all Store.allowsPlain_all).yields hjob hs₁
  have hlookup : Idles s Store.Frame.all w₂ w' :=
    (keeps_cached? hne (r.isDigest_key j) fun _ => trivial).yields hmiss
  obtain ⟨-, hsession', hsame'⟩ := hlookup he.uses
  have hsettles := yields_job hjob
  obtain ⟨lock, t, hbuilder, hcompile⟩ := hsettles.plan
  have hinstructions := hsettles.instructions
  obtain ⟨i, more, hlist, -, hothers⟩ := Instruction.validate_ok (Plan.validate_of_compile hcompile)
  obtain ⟨x, hx, hi⟩ : ∃ x, w₁.session.resolve? project = some x ∧
      i = .builtBase project (some x.tag) (some x.imageId) := by
    cases hri : r.instructions with
    | nil => simp [hri] at hbase
    | cons a l =>
      rw [hri] at hbase hinstructions
      obtain ⟨i', more', hi', hmore, heq⟩ := Session.resolveBases_cons hinstructions
      rw [hlist, List.cons.injEq] at heq
      obtain ⟨rfl, rfl⟩ := heq
      rcases List.mem_cons.1 hbase with rfl | hmem
      · exact Session.resolveBase_builtBase hi'
      · have := Session.isBase_of_resolveBases hmore hothers _ hmem
        simp [Instruction.isBase] at this
  rw [hlist, hi] at hcompile
  have hdaemon : t.builder = .daemon := by rw [hbuilder, hr]; rfl
  obtain ⟨name, plan, directives, hname, hplan, hfirst⟩ := Plan.compile_builtBase hdaemon hcompile
  obtain rfl := Option.some.inj hname
  have hmade : ∃ b ∈ front.zip outs, b.1.project = project ∧ b.2.result = x := by
    refine (hresults project x hx).resolve_left ?_
    rw [hnew]
    simp [Session.resolve?, Session.empty]
  obtain ⟨b, hb, hproject, hresult⟩ := hmade
  refine ⟨x, plan, directives, ?_, ⟨b, mem_zip_append hb, hproject, hresult⟩, hplan, hfirst, ?_⟩
  · rw [hsession', hsession, hx]
  · rw [hsame', hsame, himages]

end Recipe

namespace Sample

theorem exists_handsOver :
    ∃ outs j w, Recipe.HandsOver [recipe .mock .x86, derived] workshop outs derived j w := by
  obtain ⟨o, j, w, w₁, w₂, hbuild, hjob, hmiss⟩ := exists_handedOver
  have hfront : Yields (Recipe.buildAll [recipe .mock .x86]) workshop [o] w :=
    (yields_mapM_cons ..).2 ⟨o, w, [], hbuild, (yields_mapM_nil ..).2 ⟨rfl, rfl⟩, rfl⟩
  exact ⟨[o], j, w₂, [recipe .mock .x86], [], w, w₁, rfl, hfront, hjob, hmiss⟩

end Sample

/-- A base that was built in the same run on the way, with its image made under its tag. -/
theorem Recipe.HandsOver.base_iff_sample :
    ∃ outs j w, Recipe.HandsOver [Sample.recipe .mock .x86, Sample.derived] Sample.workshop outs Sample.derived j w ∧
      ∃ x, w.session.resolve? "p" = some x ∧
        (w.mockImage? x.tag = some x.imageId ↔
          lastMade x.tag (Sample.workshop.mockImage? x.tag) outs = some x.imageId) := by
  obtain ⟨outs, j, w, h⟩ := Sample.exists_handsOver
  obtain ⟨x, _, _, hx, -, -, -, hiff⟩ := h.base_iff Sample.uses_workshop rfl
    (by simp [Sample.recipe, Sample.derived]) (List.mem_singleton.2 rfl)
  exact ⟨outs, j, w, h, x, hx, hiff⟩

end ImageRecipe
