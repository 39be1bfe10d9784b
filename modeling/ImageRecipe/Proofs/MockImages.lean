import Mathlib.Data.Set.Function
import ImageRecipe.Proofs.CacheHistory

/-! The images of the mock backend over a history of builds. -/

namespace ImageRecipe

open Workshop

theorem Mock.yields_materialize {m m' : Mock} {p : Plan} {d : WorkDirectory} {tag : String}
    {a : Architecture} {h h' : Host} {x : BuildResult}
    (hy : Yields (m.materialize p d tag a) h (x, m') h') :
    x.imageId = imageId p a ∧ x.tag = tag ∧
      ∀ t, m'.images.get? t = if t = tag then some x.imageId else m.images.get? t := by
  unfold materialize at hy
  split at hy
  · exact (yields_throw _ _ _ _ hy).elim
  · obtain ⟨_, _, -, hy⟩ := (yields_bind ..).1 hy
    obtain ⟨_, _, -, hy⟩ := (yields_bind ..).1 hy
    obtain ⟨now, _, -, hy⟩ := (yields_bind ..).1 hy
    obtain ⟨heq, -⟩ := (yields_pure ..).1 hy
    cases heq
    exact ⟨rfl, rfl, fun t => SortedMap.get?_insert ..⟩

/-- An image that the mock backend makes has the id of its plan and its architecture, its tag leads to it, and
no other tag is moved. -/
theorem Recipe.yields_makeImage_mock {r : Recipe} {j : Recipe.Job} {w w' : Workshop} {x : BuildResult}
    (hk : r.backend = .mock) (h : Yields (r.makeImage j) w x w') :
    x.imageId = Mock.imageId j.plan r.architecture ∧ x.tag = r.tag ∧
      ∀ tag, w'.mockImage? tag = if tag = r.tag then some x.imageId else w.mockImage? tag := by
  obtain ⟨w₁, hlock, hchange⟩ := yields_makeImage h
  have himages : w₁.mockImage? = w.mockImage? := by
    rcases hlock with rfl | hlock
    · rfl
    · obtain ⟨host, -, rfl⟩ := (yields_onHost ..).1 hlock
      rfl
  rw [hk] at hchange
  obtain ⟨b, b', w₂, hopen, hrun, rfl⟩ := yields_changing (by decide) hchange
  obtain ⟨m, rfl⟩ := Backend.eq_mock (kind_of_backend? hopen.backend)
  obtain ⟨⟨x', m'⟩, _, hmake, hpure⟩ := (yields_bind ..).1 hrun
  obtain ⟨heq, -⟩ := (yields_pure ..).1 hpure
  cases heq
  obtain ⟨hid, htag, hget⟩ := Mock.yields_materialize hmake
  refine ⟨hid, htag, fun tag => ?_⟩
  rw [mockImage?_of_backend? (m := m') (by rw [backend?_withBackend]; rfl), hget, ← himages,
    ← hopen.mockImage, mockImage?_of_backend? hopen.backend]

/-- A mock build moves its tag to the image that it makes; a hit in the cache moves no tag. -/
theorem Recipe.mockImage?_build {s : Store} {r : Recipe} {w w' : Workshop} {o : Outcome}
    (hk : r.backend = .mock) (hs : w.Uses s) (h : Yields r.build w o w') :
    (o.cached = false → o.result.tag = r.tag) ∧
      ∀ tag, w'.mockImage? tag =
        if o.cached = false ∧ tag = r.tag then some o.result.imageId else w.mockImage? tag := by
  have hne : r.backend ≠ .daemon := by simp [hk]
  obtain ⟨j, w₁, hjob, -, hor⟩ := yields_build h
  have hkey := r.isDigest_key j
  obtain ⟨he, -, himages⟩ :=
    (keeps_job hne Store.allowsClearing_all Store.allowsPlain_all).yields hjob hs
  have hlookup : ∀ {found w₂}, Yields (r.cached? (r.key j)) w₁ found w₂ → Idles s Store.Frame.all w₁ w₂ :=
    fun hfound => (keeps_cached? hne hkey fun _ => trivial).yields hfound
  rcases hor with ⟨hcached, w₂, w₃, hhit, hwrite, hregister⟩ | ⟨hcached, w₂, w₃, hmiss, hmade, hregister⟩
  · obtain ⟨-, -, hsame⟩ := hlookup hhit he.uses
    obtain ⟨host, -, rfl⟩ := (yields_onHost ..).1 hwrite
    obtain ⟨-, rfl⟩ := yields_register.1 hregister
    refine ⟨by simp [hcached], fun tag => ?_⟩
    rw [hcached, ← himages, ← hsame]
    simp [mockImage?, backend?]
  · obtain ⟨hmiss, -, hsame⟩ := hlookup hmiss he.uses
    have hput : Keeps (s.Evolves Store.Frame.all) (s.putResult (r.key j) o.result) :=
      Store.keeps_putResult hkey fun _ => trivial
    obtain ⟨w₄, hmake, hnoted⟩ := idles_materialize Store.allowsResult_all hput hmade
    have hmade := (keeps_makeImage hne Store.allowsPlain_all (Store.allowsImages_all _) j).yields hmake hmiss.uses
    obtain ⟨-, -, hnoted⟩ := hnoted hmade.uses
    obtain ⟨-, htag, himage⟩ := yields_makeImage_mock hk hmake
    obtain ⟨-, rfl⟩ := yields_register.1 hregister
    refine ⟨fun _ => htag, fun tag => ?_⟩
    have hafter : w₃.mockImage? tag = if tag = r.tag then some o.result.imageId else w.mockImage? tag := by
      rw [hnoted, himage, hsame, himages]
    simpa [hcached, mockImage?, backend?] using hafter

theorem Architecture.name_injective {a b : Architecture} (h : a.name = b.name) : a = b := by
  cases a <;> cases b <;> simp [name] at h ⊢

/-- The texts of the cache keys that a call takes digests of. -/
def BuildCall.HashesKey (c : BuildCall) (text : String) : Prop :=
  ∃ j w, c.Settles j w ∧ text = c.recipe.keyText j

/-- The texts of the ids that the mock backend gives to the plan of a call. -/
def BuildCall.HashesImage (c : BuildCall) (a : Architecture) (text : String) : Prop :=
  ∃ j w, c.Settles j w ∧ text = Mock.imageIdText j.plan a

/-- One call alone has one text of a key, and one of an id for each architecture. -/
theorem BuildCall.injOn_hashesKey (c : BuildCall) :
    Set.InjOn Blake3.hexOfText {t | ∃ m ∈ [c], m.HashesKey t} := by
  rintro t ⟨m, hm, j, w, hj, rfl⟩ t' ⟨m', hm', j', w', hj', rfl⟩ -
  rw [List.mem_singleton] at hm hm'
  subst hm hm'
  rw [(Yields.unique hj hj').1]

theorem BuildCall.injOn_hashesImage (c : BuildCall) :
    Set.InjOn Blake3.hexOfText {t | ∃ m ∈ [c], c.HashesImage m.recipe.architecture t} := by
  rintro t ⟨m, hm, j, w, hj, rfl⟩ t' ⟨m', hm', j', w', hj', rfl⟩ -
  rw [List.mem_singleton] at hm hm'
  subst hm hm'
  rw [(Yields.unique hj hj').1]

namespace History

variable {s : Store} {calls : List BuildCall} {w : Workshop} {c : BuildCall}

/-- Calls under one key have one plan, one context, one builder and one tag. -/
theorem same_key {m : BuildCall} {j j' : Recipe.Job} {w₁ w₂ : Workshop}
    (hkeys : Set.InjOn Blake3.hexOfText {t | ∃ c ∈ calls, c.HashesKey t}) (hc : c ∈ calls) (hm : m ∈ calls)
    (hj : c.Settles j w₁) (hj' : m.Settles j' w₂) (h : m.recipe.key j' = c.recipe.key j) :
    j'.plan.contentHash = j.plan.contentHash ∧ j'.context = j.context ∧
      j'.plan.builder = j.plan.builder ∧ m.recipe.tag = c.recipe.tag := by
  apply Recipe.keyText_injective (Recipe.yields_job hj').isDigest_context
    (Recipe.yields_job hj).isDigest_context
  exact hkeys ⟨m, hm, j', w₂, hj', rfl⟩ ⟨c, hc, j, w₁, hj, rfl⟩ h

/-- Every image of a mock build is the image of the build's plan on the architecture of the call that made it.
The key of the cache has no architecture, so it is the image of the build's own architecture just when that
call had the same one. -/
theorem mock_image_iff (h : History s (c :: calls) w) (hk : c.recipe.backend = .mock)
    (hkeys : Set.InjOn Blake3.hexOfText {t | ∃ m ∈ c :: calls, m.HashesKey t})
    (himages : Set.InjOn Blake3.hexOfText {t | ∃ m ∈ c :: calls, c.HashesImage m.recipe.architecture t})
    {o : Outcome} (ho : c.outcome = .ok o) :
    ∃ j w₁, c.Settles j w₁ ∧ o.planHash = j.plan.contentHash ∧
      ∃ m ∈ c :: calls, (∃ j' x, m.Makes j' x ∧ m.recipe.key j' = c.recipe.key j ∧
          x.imageId = o.result.imageId) ∧ m.recipe.tag = c.recipe.tag ∧ (o.cached = false → m = c) ∧
        o.result.imageId = Mock.imageId j.plan m.recipe.architecture ∧
        (o.result.imageId = Mock.imageId j.plan c.recipe.architecture ↔
          m.recipe.architecture = c.recipe.architecture) := by
  obtain ⟨j, w₁, hj, hplan, m, x, ⟨j', hkey, hmakes⟩, hid, hwhere⟩ := h.outcome_made ho
  have hm : m ∈ c :: calls := by
    rcases hwhere with ⟨-, hm⟩ | ⟨-, rfl⟩
    · exact List.mem_cons_of_mem _ hm
    · exact List.mem_cons_self
  have hself : o.cached = false → m = c := by
    intro hcached
    rcases hwhere with ⟨hc, -⟩ | ⟨-, heq⟩
    · simp [hc] at hcached
    · exact heq
  obtain ⟨w₂, w₃, w₄, hj', hmiss, hmake⟩ := hmakes
  obtain ⟨hhash, -, hbuilder, htag⟩ := same_key hkeys List.mem_cons_self hm hj hj' hkey
  have hkind : m.recipe.backend = .mock := by
    rw [(Recipe.yields_job hj').builder, (Recipe.yields_job hj).builder, hk] at hbuilder
    have hne := h.ne_daemon hm
    cases hb : m.recipe.backend with
    | daemon => exact absurd hb hne
    | direct => simp [hb, BackendKind.builder] at hbuilder
    | mock => rfl
  obtain ⟨himage, -⟩ := Recipe.yields_makeImage_mock hkind hmake
  have himage' : o.result.imageId = Mock.imageId j.plan m.recipe.architecture := by
    rw [hid, himage]
    unfold Mock.imageId Mock.imageIdText
    rw [hhash]
  refine ⟨j, w₁, hj, hplan, m, hm, ⟨j', x, ⟨w₂, w₃, w₄, hj', hmiss, hmake⟩, hkey, hid.symm⟩, htag, hself,
    himage', ?_, fun ha => by rw [himage', ha]⟩
  intro hclaim
  rw [himage'] at hclaim
  have htext := himages ⟨m, hm, j, w₁, hj, rfl⟩ ⟨c, List.mem_cons_self, j, w₁, hj, rfl⟩
    ((String.append_right_inj _).1 hclaim)
  exact Architecture.name_injective ((String.append_right_inj _).1 htext)

end History

namespace Sample

/-- A recipe on top of the image of the other one. -/
def derived : Recipe :=
  { recipe .mock .x86 with project := "q", tag := "u", instructions := [.builtBase "p" none none] }

/-- A run in the workshop comes to a job with a plan and with a digest of its context. -/
def comesTo (x : BuildM Recipe.Job) (p : Plan) (context : String) : Bool :=
  match (ran x workshop).1 with
  | .ok j => decide (j.plan = p ∧ j.context = context)
  | .error _ => false

/-- The plan of one directive. -/
def onePlan (directive : String) : Plan :=
  .daemon ⟨[directive], SortedMap.ofList [("docker", "ephemeral/docker")]⟩

def directPlan : Plan := .direct ⟨.reference "i:v", [], [], none, none⟩

/-- The digest of a context of no bytes. -/
def noContext : String := "af1349b9f5f9a1a6a0404dea36dcc9499bcb25c9adc112b7cc9a93cae41f3262"

/-- The digest of the context of the other recipe, which holds the image of the one. -/
def derivedContext : String := "7b82d82bd43bbff64a0cee7b4fd511fe6a26bd6a6c66d9a9ddda9f690b929276"

def mockKey : String := "5115c69e295a97336e2348503454a1c3fb7b0eefdb9c1b78656894b38976fcc3"

def directKey : String := "494b3b6d0ceafdb86c610d6b2f6055c45e0a74f9dead8daf998197a270887c8f"

def derivedKey : String := "6c44684d00927c580dbe5666adddefcb057d0dd270d7bccca3a35caebbd51e4a"

/-- Build the one, and go on to the job of the other. -/
def deriveJob : BuildM Recipe.Job := do
  let _ ← (recipe .mock .x86).buildUnder mockKey
  derived.job

/-- The digests on the way to the key of a recipe. -/
structure LeadsToKey (p : Plan) (context hash : String) (r : Recipe) (key : String) : Prop where
  plan : p.contentHash = hash
  key : cacheKey (hash ++ ":" ++ context) p.builder r.tag = key

/-- The key of a job is computed digest by digest, so that the kernel need not hold all of them in memory. -/
theorem key_of_comesTo {x : BuildM Recipe.Job} {p : Plan} {context hash key : String} {r : Recipe}
    (hx : comesTo x p context = true) (hleads : LeadsToKey p context hash r key) {j : Recipe.Job} {w : Workshop}
    (hj : Yields x workshop j w) : r.key j = key := by
  unfold comesTo at hx
  rw [show ran x workshop = (.ok j, w) from hj] at hx
  obtain ⟨hplan, hcontext⟩ := of_decide_eq_true hx
  unfold Recipe.key
  rw [hplan, hcontext, hleads.plan, hleads.key]

-- here and below one theorem for all runs, so that the kernel holds only one of them in memory at a time
theorem leadsToKey :
    LeadsToKey (onePlan "FROM i:v") noContext
        "1fd97241e1463cd3c5693cfe0331b6e5fa1c8c6a2a0052dc5dda1f6752d107bd" (recipe .mock .x86) mockKey ∧
      LeadsToKey directPlan noContext
        "485f6223b5165eb4d30bca8a3af68ce447d57588b3f647ee0402b07321c33b02" (recipe .direct .x86) directKey ∧
      LeadsToKey (onePlan "# p\nFROM t") derivedContext
        "e218e229b2c0471d7a025be724830fd5394a24bc8b4236a3cc762580771eabc8" derived derivedKey :=
  ⟨⟨by decide +kernel, by decide +kernel⟩, ⟨by decide +kernel, by decide +kernel⟩,
    ⟨by decide +kernel, by decide +kernel⟩⟩

theorem isOk_runs :
    (comesTo (recipe .mock .x86).job (onePlan "FROM i:v") noContext = true ∧
        (ran ((recipe .mock .x86).buildUnder mockKey) workshop).1.isOk = true) ∧
      (comesTo (recipe .direct .x86).job directPlan noContext = true ∧
        (ran ((recipe .direct .x86).buildUnder directKey) workshop).1.isOk = true) ∧
      comesTo deriveJob (onePlan "# p\nFROM t") derivedContext = true ∧
        (ran (do
          let _ ← deriveJob
          pure (← derived.cached? derivedKey).isNone) workshop).1 = .ok true :=
  ⟨⟨by decide +kernel, by decide +kernel⟩, ⟨by decide +kernel, by decide +kernel⟩, by decide +kernel,
    by decide +kernel⟩

theorem key_mock {j : Recipe.Job} {w : Workshop} (hj : Yields (recipe .mock .x86).job workshop j w) :
    (recipe .mock .x86).key j = mockKey := key_of_comesTo isOk_runs.1.1 leadsToKey.1 hj

theorem key_direct {j : Recipe.Job} {w : Workshop} (hj : Yields (recipe .direct .x86).job workshop j w) :
    (recipe .direct .x86).key j = directKey := key_of_comesTo isOk_runs.2.1.1 leadsToKey.2.1 hj

theorem key_derived {j : Recipe.Job} {w : Workshop} (hj : Yields deriveJob workshop j w) :
    derived.key j = derivedKey := key_of_comesTo isOk_runs.2.2.1 leadsToKey.2.2 hj

theorem isOk_mock : (call .mock).outcome.isOk = true := by
  have hunder := isOk_runs.1.2
  rw [← Recipe.ran_build_of_key fun _ _ => key_mock] at hunder
  obtain ⟨o, ho⟩ := exists_of_isOk hunder
  obtain ⟨w, hbuild⟩ := exists_yields ho
  rw [BuildCall.outcome_of_yields (c := call .mock) hbuild]
  rfl

theorem isOk_direct : (call .direct).outcome.isOk = true := by
  have hunder := isOk_runs.2.1.2
  rw [← Recipe.ran_build_of_key fun _ _ => key_direct] at hunder
  obtain ⟨o, ho⟩ := exists_of_isOk hunder
  obtain ⟨w, hbuild⟩ := exists_yields ho
  rw [BuildCall.outcome_of_yields (c := call .direct) hbuild]
  rfl

/-- The run comes by the one build to the job of the other, which finds nothing in the cache. -/
structure HandedOver (o : Outcome) (j : Recipe.Job) (w₁ w₂ w₃ : Workshop) : Prop where
  build : Yields (recipe .mock .x86).build workshop o w₁
  job : Yields derived.job w₁ j w₂
  miss : Yields (derived.cached? (derived.key j)) w₂ none w₃

theorem exists_handedOver : ∃ o j w₁ w₂ w₃, HandedOver o j w₁ w₂ w₃ := by
  obtain ⟨w, hrun⟩ := exists_yields isOk_runs.2.2.2
  obtain ⟨j, w₂, hderive, hrun⟩ := (yields_bind ..).1 hrun
  obtain ⟨found, w₃, hfound, hpure⟩ := (yields_bind ..).1 hrun
  obtain rfl := Option.isNone_iff_eq_none.1 ((yields_pure ..).1 hpure).1
  obtain ⟨o, w₁, hbuild, hjob⟩ := (yields_bind ((recipe .mock .x86).buildUnder mockKey) _ _ _ _).1 hderive
  unfold Yields at hbuild
  rw [← Recipe.ran_build_of_key fun _ _ => key_mock] at hbuild
  rw [← key_derived hderive] at hfound
  exact ⟨o, j, w₁, w₂, w₃, hbuild, hjob, hfound⟩

end Sample

/-- The image of the first build of all is the image of its plan on its own architecture. -/
theorem History.mock_image_iff_sample :
    ∃ (o : Outcome) (j : Recipe.Job) (a : Architecture),
      (Sample.call .mock).outcome = .ok o ∧ o.result.imageId = Mock.imageId j.plan a ∧
        (o.result.imageId = Mock.imageId j.plan .x86 ↔ a = .x86) := by
  obtain ⟨o, ho⟩ := exists_of_isOk Sample.isOk_mock
  obtain ⟨j, w₁, hj, hplan, m, hm, -, -, -, hid, hiff⟩ :=
    History.mock_image_iff (Sample.history_call (by decide)) rfl (BuildCall.injOn_hashesKey _)
      (BuildCall.injOn_hashesImage _) ho
  exact ⟨o, j, m.recipe.architecture, ho, hid, hiff⟩

end ImageRecipe
