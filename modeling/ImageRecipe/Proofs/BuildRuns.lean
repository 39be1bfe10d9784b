import ImageRecipe.Proofs.BuildSteps

/-! A run of a build taken apart: the job that it settles on, the hit or the image that it makes, and what it
records. -/

namespace ImageRecipe

open Workshop

variable {w w' : Workshop}

/-- Recording an image changes the session alone, which has none of the project yet. -/
theorem Workshop.yields_register {project : String} {x : BuildResult} {u : Unit} :
    Yields (register project x) w u w' ↔
      w.session.resolve? project = none ∧
        { w with session := ⟨w.session.results.insert project x⟩ } = w' := by
  unfold register
  rw [yields_bind]
  simp only [yields_get, yields_bind, yields_workshopOfExcept, yields_set]
  unfold Session.register
  constructor
  · rintro ⟨_, _, ⟨rfl, rfl⟩, session, _, ⟨hs, rfl⟩, rfl⟩
    cases hr : w.session.resolve? project with
    | some _ => simp [hr] at hs
    | none =>
      simp only [hr, Except.ok.injEq] at hs
      exact ⟨rfl, by rw [← hs]⟩
  · rintro ⟨hr, rfl⟩
    exact ⟨w, w, ⟨rfl, rfl⟩, _, w, ⟨by rw [hr], rfl⟩, rfl⟩

namespace Recipe

variable {r : Recipe} {j : Job}

/-- What a job is made of: instructions with the images of the session filled in, the plan that they come to
and the digest of what the plan reads. -/
structure Settles (r : Recipe) (w : Workshop) (j : Job) (w' : Workshop) : Prop where
  directory : j.directory = ⟨r.workDirectory⟩
  instructions : w.session.resolveBases r.instructions = .ok j.instructions
  plan : ∃ lock t, t.builder = r.backend.builder ∧ Plan.compile j.instructions lock t = .ok j.plan
  context : Yields (BuildContext.digest j.directory j.instructions j.plan) w' j.context w'

theorem Settles.isDigest_context (h : r.Settles w j w') : IsDigest j.context := by
  obtain ⟨bs, _, -, hpure⟩ := (yields_bind ..).1 h.context
  rw [← ((yields_pure ..).1 hpure).1]
  exact isDigest_hex _

theorem Settles.builder (h : r.Settles w j w') : j.plan.builder = r.backend.builder := by
  obtain ⟨lock, t, hbuilder, hplan⟩ := h.plan
  unfold Plan.compile at hplan
  obtain ⟨_, -, hplan⟩ := bind_eq_ok.1 hplan
  rw [← hbuilder]
  split at hplan
  · next hb =>
    obtain ⟨p, -, hp⟩ := map_eq_ok.1 hplan
    rw [hb, ← hp]
    rfl
  · next hb =>
    obtain ⟨p, -, hp⟩ := map_eq_ok.1 hplan
    rw [hb, ← hp]
    rfl

theorem yields_target {instructions : List Instruction} {t : Target}
    (h : Yields (r.target instructions) w t w') : t.builder = r.backend.builder := by
  unfold target at h
  dsimp only at h
  split at h
  · obtain ⟨_, _, -, h⟩ := (yields_bind ..).1 h
    obtain ⟨_, _, -, h⟩ := (yields_bind ..).1 h
    obtain ⟨_, _, -, h⟩ := (yields_bind ..).1 h
    obtain ⟨rfl, -⟩ := (yields_pure ..).1 h
    rfl
  · obtain ⟨_, _, -, h⟩ := (yields_bind ..).1 h
    obtain ⟨_, _, -, h⟩ := (yields_bind ..).1 h
    obtain ⟨rfl, -⟩ := (yields_pure ..).1 h
    rfl

theorem yields_job (h : Yields r.job w j w') : r.Settles w j w' := by
  unfold job at h
  obtain ⟨_, _, hget, h⟩ := (yields_bind ..).1 h
  obtain ⟨rfl, rfl⟩ := (yields_get ..).1 hget
  obtain ⟨_, w₁, hprepare, h⟩ := (yields_bind ..).1 h
  obtain ⟨_, w₂, hstore, h⟩ := (yields_bind ..).1 h
  obtain ⟨instructions, w₃, hinstructions, h⟩ := (yields_bind ..).1 h
  obtain ⟨_, w₄, hopen, h⟩ := (yields_bind ..).1 h
  obtain ⟨lock, w₅, hlock, h⟩ := (yields_bind ..).1 h
  obtain ⟨t, w₆, htarget, h⟩ := (yields_bind ..).1 h
  obtain ⟨_, w₇, hmirror, h⟩ := (yields_bind ..).1 h
  obtain ⟨p, w₈, hplan, h⟩ := (yields_bind ..).1 h
  obtain ⟨context, w₉, hcontext, h⟩ := (yields_bind ..).1 h
  obtain ⟨rfl, rfl⟩ := (yields_pure ..).1 h
  refine ⟨rfl, ?_, ⟨lock, t, yields_target htarget, ((yields_workshopOfExcept ..).1 hplan).1⟩, ?_⟩
  · obtain ⟨_, -, rfl⟩ := (yields_onHost ..).1 hprepare
    obtain ⟨_, -, rfl⟩ := (yields_onHost ..).1 hstore
    exact (yields_resolvedInstructions.1 hinstructions).1
  · obtain rfl := (BuildContext.keeps_digest ..).yields hcontext
    exact hcontext

/-- A hit is a result that the cache holds, and that it is looked up changes no file. -/
theorem yields_cached?_some (hk : r.backend ≠ .daemon) {key : String} {hit : BuildResult}
    (h : Yields (r.cached? key) w (some hit) w') :
    ∃ host, Yields (w.store.getResult key) w.host (some hit) host ∧ w'.host = host := by
  unfold cached? at h
  obtain ⟨_, _, hget, h⟩ := (yields_bind ..).1 h
  obtain ⟨rfl, rfl⟩ := (yields_get ..).1 hget
  obtain ⟨found, w₁, hfound, h⟩ := (yields_bind ..).1 h
  obtain ⟨host, hget, rfl⟩ := (yields_onHost ..).1 hfound
  cases found with
  | none => simp at h
  | some hit' =>
    obtain ⟨b, w₂, hexists, h⟩ := (yields_bind ..).1 h
    split at h
    · obtain ⟨heq, rfl⟩ := (yields_pure ..).1 h
      cases heq
      refine ⟨host, hget, ?_⟩
      obtain ⟨b', hopen, hrun⟩ := yields_withOpen hk hexists
      cases b' with
      | daemon d => exact absurd (kind_of_backend? hopen.backend).symm hk
      | direct s => exact ((yields_look ..).1 hrun).2.symm
      | mock m => exact ((yields_pure ..).1 hrun).2.symm
    · obtain ⟨_, _, -, h⟩ := (yields_bind ..).1 h
      simp at h

/-- A build that makes its image in a given way if the cache has none. -/
def buildWith (r : Recipe) (make : Job → BuildM BuildResult) : BuildM Outcome := do
  let j ← r.job
  match ← r.cached? (r.key j) with
  | some hit =>
    onHost .store (j.directory.writeResult hit)
    register r.project hit
    pure ⟨hit, j.plan.contentHash, true⟩
  | none =>
    let result ← make j
    register r.project result
    pure ⟨result, j.plan.contentHash, false⟩

variable {make : Job → BuildM BuildResult}

/-- What a build comes to that makes its image in a given way. -/
theorem yields_buildWith {o : Outcome} (h : Yields (r.buildWith make) w o w') :
    ∃ j w₁, Yields r.job w j w₁ ∧ o.planHash = j.plan.contentHash ∧
      (o.cached = true ∧ (∃ w₂ w₃, Yields (r.cached? (r.key j)) w₁ (some o.result) w₂ ∧
          Yields (onHost .store (j.directory.writeResult o.result)) w₂ () w₃ ∧
          Yields (register r.project o.result) w₃ () w') ∨
        o.cached = false ∧ ∃ w₂ w₃, Yields (r.cached? (r.key j)) w₁ none w₂ ∧
          Yields (make j) w₂ o.result w₃ ∧ Yields (register r.project o.result) w₃ () w') := by
  unfold buildWith at h
  obtain ⟨j, w₁, hjob, h⟩ := (yields_bind ..).1 h
  obtain ⟨found, w₂, hfound, h⟩ := (yields_bind ..).1 h
  refine ⟨j, w₁, hjob, ?_⟩
  cases found with
  | none =>
    obtain ⟨result, w₃, hmade, h⟩ := (yields_bind ..).1 h
    obtain ⟨_, w₄, hregister, h⟩ := (yields_bind ..).1 h
    obtain ⟨rfl, rfl⟩ := (yields_pure ..).1 h
    exact ⟨rfl, .inr ⟨rfl, w₂, w₃, hfound, hmade, hregister⟩⟩
  | some hit =>
    obtain ⟨_, w₃, hwrite, h⟩ := (yields_bind ..).1 h
    obtain ⟨_, w₄, hregister, h⟩ := (yields_bind ..).1 h
    obtain ⟨rfl, rfl⟩ := (yields_pure ..).1 h
    exact ⟨rfl, .inl ⟨rfl, w₂, w₃, hfound, hwrite, hregister⟩⟩

/-- What a build comes to. -/
theorem yields_build {o : Outcome} (h : Yields r.build w o w') :
    ∃ j w₁, Yields r.job w j w₁ ∧ o.planHash = j.plan.contentHash ∧
      (o.cached = true ∧ (∃ w₂ w₃, Yields (r.cached? (r.key j)) w₁ (some o.result) w₂ ∧
          Yields (onHost .store (j.directory.writeResult o.result)) w₂ () w₃ ∧
          Yields (register r.project o.result) w₃ () w') ∨
        o.cached = false ∧ ∃ w₂ w₃, Yields (r.cached? (r.key j)) w₁ none w₂ ∧
          Yields (r.materialize j) w₂ o.result w₃ ∧ Yields (register r.project o.result) w₃ () w') :=
  yields_buildWith h

/-- A result that is found in the cache is all that a build needs, however it would make an image. -/
theorem yields_buildWith_of_hit {w₁ w₂ w₃ : Workshop} {hit : BuildResult} (hjob : Yields r.job w j w₁)
    (hhit : Yields (r.cached? (r.key j)) w₁ (some hit) w₂)
    (hwrite : Yields (onHost .store (j.directory.writeResult hit)) w₂ () w₃)
    (hregister : Yields (register r.project hit) w₃ () w') :
    Yields (r.buildWith make) w ⟨hit, j.plan.contentHash, true⟩ w' := by
  refine (yields_bind ..).2 ⟨j, w₁, hjob, (yields_bind ..).2 ⟨some hit, w₂, hhit, ?_⟩⟩
  refine (yields_bind ..).2 ⟨(), w₃, hwrite, (yields_bind ..).2 ⟨(), w', hregister, ?_⟩⟩
  exact (yields_pure ..).2 ⟨rfl, rfl⟩

/-- Make an image and note the result; it is a failure too if the cache cannot be written. -/
def materializeStrictly (r : Recipe) (j : Job) : BuildM BuildResult := do
  let result ← r.makeImage j
  onHost .store (j.directory.writeResult result)
  let store := (← get).store
  onHost .store (store.putResult (r.key j) result)
  pure result

theorem yields_materializeStrictly {x : BuildResult} : Yields (r.materializeStrictly j) w x w' ↔
    ∃ w₁ w₂, Yields (r.makeImage j) w x w₁ ∧ Yields (onHost .store (j.directory.writeResult x)) w₁ () w₂ ∧
      Yields (onHost .store (w₂.store.putResult (r.key j) x)) w₂ () w' := by
  unfold materializeStrictly
  constructor
  · intro h
    obtain ⟨result, w₁, hmade, h⟩ := (yields_bind ..).1 h
    obtain ⟨_, w₂, hwrite, h⟩ := (yields_bind ..).1 h
    obtain ⟨_, _, hget, h⟩ := (yields_bind ..).1 h
    obtain ⟨rfl, rfl⟩ := (yields_get ..).1 hget
    obtain ⟨_, w₃, hput, h⟩ := (yields_bind ..).1 h
    obtain ⟨rfl, rfl⟩ := (yields_pure ..).1 h
    exact ⟨w₁, w₂, hmade, hwrite, hput⟩
  · rintro ⟨w₁, w₂, hmade, hwrite, hput⟩
    refine (yields_bind ..).2 ⟨x, w₁, hmade, (yields_bind ..).2 ⟨(), w₂, hwrite, ?_⟩⟩
    refine (yields_bind ..).2 ⟨w₂, w₂, (yields_get ..).2 ⟨rfl, rfl⟩, (yields_bind ..).2 ⟨(), w', hput, ?_⟩⟩
    exact (yields_pure ..).2 ⟨rfl, rfl⟩

/-- A build in which nothing fails, not even writing the cache, is a build. -/
theorem yields_build_of_strictly {o : Outcome} (h : Yields (r.buildWith r.materializeStrictly) w o w') :
    Yields r.build w o w' := by
  obtain ⟨j, w₁, hjob, h⟩ := (yields_bind ..).1 h
  obtain ⟨found, w₂, hfound, h⟩ := (yields_bind ..).1 h
  refine (yields_bind ..).2 ⟨j, w₁, hjob, (yields_bind ..).2 ⟨found, w₂, hfound, ?_⟩⟩
  cases found with
  | some hit => exact h
  | none =>
    obtain ⟨x, w₅, hmade, hrest⟩ := (yields_bind ..).1 h
    obtain ⟨w₃, w₄, himage, hwrite, hnote⟩ := yields_materializeStrictly.1 hmade
    obtain ⟨host, hput, rfl⟩ := (yields_onHost ..).1 hnote
    refine (yields_bind ..).2 ⟨x, { w₄ with host }, ?_, hrest⟩
    refine (yields_bind ..).2 ⟨x, w₃, himage, (yields_bind ..).2 ⟨(), w₄, hwrite, ?_⟩⟩
    refine (yields_bind ..).2 ⟨w₄, w₄, (yields_get ..).2 ⟨rfl, rfl⟩, (yields_bind ..).2 ⟨.ok (), { w₄ with host }, ?_, ?_⟩⟩
    · refine (yields_onHost ..).2 ⟨host, ?_, rfl⟩
      unfold Yields at hput ⊢
      rw [ran_outcome, hput]
    · exact (yields_pure ..).2 ⟨rfl, rfl⟩

/-- Making an image is an action of the backend, unless the user asked to stop; before it a direct build opens
the lock of the store. -/
theorem yields_makeImage {x : BuildResult} (h : Yields (r.makeImage j) w x w') :
    ∃ w₁, (w₁ = w ∨ Yields (onHost .io w.store.openLock) w () w₁) ∧
      Yields (changing r.backend (Backend.materialize j.plan j.directory r.tag r.architecture)) w₁ x w' := by
  unfold makeImage at h
  obtain ⟨_, _, hget, h⟩ := (yields_bind ..).1 h
  obtain ⟨rfl, rfl⟩ := (yields_get ..).1 hget
  dsimp only at h
  split at h
  · obtain ⟨_, _, hthrow, -⟩ := (yields_bind ..).1 h
    exact (yields_throw _ _ _ _ hthrow).elim
  · obtain ⟨_, _, hget, h⟩ := (yields_bind ..).1 h
    obtain ⟨rfl, rfl⟩ := (yields_get ..).1 hget
    split at h
    · obtain ⟨_, w₁, hopen, h⟩ := (yields_bind ..).1 h
      exact ⟨w₁, .inr hopen, h⟩
    · exact ⟨_, .inl rfl, h⟩

/-- A direct image is made by the backend of the store once its lock is open. -/
theorem yields_makeImage_direct {s : Store} {f : Store.Frame} (hf : f.AllowsStore) (hk : r.backend = .direct)
    (hs : w.Uses s) {x : BuildResult} (h : Yields (r.makeImage j) w x w') :
    ∃ host, s.Evolves f w.host host ∧
      Yields (Direct.materialize s j.plan j.directory r.tag) host x w'.host := by
  obtain ⟨w₁, hlock, hchange⟩ := yields_makeImage h
  have hw₁ : w₁.Uses s ∧ s.Evolves f w.host w₁.host := by
    rcases hlock with rfl | hlock
    · exact ⟨hs, refl _⟩
    · rw [hs.store_eq] at hlock
      have he := ((keeps_onHost (Store.keeps_openLock (fun _ _ => hf.makes_place) hf.lock) _).yields hlock hs).1
      exact ⟨he.uses, he.host⟩
  rw [hk] at hchange
  obtain ⟨b, b', w₂, hopen, hrun, rfl⟩ := yields_changing (by decide) hchange
  obtain rfl := (hopen.uses s hw₁.1).direct hopen.backend
  obtain ⟨x', _, hmake, hpure⟩ := (yields_bind ..).1 hrun
  obtain ⟨heq, hhost⟩ := (yields_pure ..).1 hpure
  cases heq
  subst hhost
  exact ⟨w₁.host, hw₁.2, hmake⟩

/-- An image that is made goes into the work directory, and into the cache if it can be written. -/
theorem yields_materialize {x : BuildResult} (h : Yields (r.materialize j) w x w') :
    ∃ w₁ w₂, Yields (r.makeImage j) w x w₁ ∧
      Yields (onHost .store (j.directory.writeResult x)) w₁ () w₂ ∧
      ∃ y, Yields (onHost .store (w₂.store.putResult (r.key j) x).outcome) w₂ y w' := by
  unfold materialize at h
  obtain ⟨result, w₁, hmade, h⟩ := (yields_bind ..).1 h
  obtain ⟨_, w₂, hwrite, h⟩ := (yields_bind ..).1 h
  obtain ⟨_, _, hget, h⟩ := (yields_bind ..).1 h
  obtain ⟨rfl, rfl⟩ := (yields_get ..).1 hget
  obtain ⟨y, w₃, hput, h⟩ := (yields_bind ..).1 h
  obtain ⟨rfl, rfl⟩ := (yields_pure ..).1 h
  exact ⟨w₁, w₂, hmade, hwrite, y, hput⟩

/-- A build whose key is known beforehand. -/
def buildUnder (r : Recipe) (key : String) : BuildM Outcome := do
  let j ← r.job
  match ← r.cached? key with
  | some hit =>
    onHost .store (j.directory.writeResult hit)
    register r.project hit
    pure ⟨hit, j.plan.contentHash, true⟩
  | none =>
    let result ← r.makeImage j
    onHost .store (j.directory.writeResult result)
    let store := (← get).store
    let _ ← onHost .store (store.putResult key result).outcome
    register r.project result
    pure ⟨result, j.plan.contentHash, false⟩

theorem ran_build_of_key {key : String} (hkey : ∀ j w', Yields r.job w j w' → r.key j = key) :
    ran r.build w = ran (r.buildUnder key) w := by
  unfold build buildUnder materialize
  rw [ran_bind, ran_bind]
  rcases hjob : ran r.job w with ⟨e | j, w'⟩
  · rfl
  · cases hkey j w' hjob
    refine congrArg (fun f => ran (r.cached? (r.key j) >>= f) w') (funext fun o => ?_)
    cases o <;> simp only [bind_assoc, pure_bind]

/-- All that follows the making of an image is to note it. -/
theorem idles_materialize {s : Store} {f : Store.Frame} {x : BuildResult} (hf : f.AllowsResult)
    (hput : Keeps (s.Evolves f) (s.putResult (r.key j) x)) (h : Yields (r.materialize j) w x w') :
    ∃ w₁, Yields (r.makeImage j) w x w₁ ∧ Idles s f w₁ w' := by
  obtain ⟨w₁, w₂, hmake, hwrite, y, hnote⟩ := yields_materialize h
  have hresult := (keeps_onHost (WorkDirectory.keeps_writeResult (s := s) hf x) _).yields hwrite
  refine ⟨w₁, hmake, fun hs => ?_⟩
  have huses := (hresult hs).1.uses
  rw [huses.store_eq] at hnote
  exact IsTrans.trans (r := Idles s f) _ _ _ hresult ((keeps_onHost hput.outcome _).yields hnote) hs

end Recipe

end ImageRecipe
