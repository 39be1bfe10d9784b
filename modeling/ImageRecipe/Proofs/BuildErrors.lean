import ImageRecipe.Proofs.Sessions

/-! What builds fail with. Every action on the way is followed through the errors that it may end with: those of a build
are of the host, the store, the backend, the session and the lockfile, and those that its instructions come to when they
are compiled. -/

namespace ImageRecipe

open Workshop

section Runs

variable {σ ε α β : Type} {P : ε → Prop} {x : ExceptT ε (StateM σ) α} {f : α → ExceptT ε (StateM σ) β} {s : σ}

/-- An action from a state does not fail but with errors of a kind. -/
structure FailsOnly (P : ε → Prop) (x : ExceptT ε (StateM σ) α) (s : σ) : Prop where
  error : ∀ e, (ran x s).1 = .error e → P e

namespace FailsOnly

theorem pure (a : α) : FailsOnly P (pure a : ExceptT ε (StateM σ) α) s where
  error e h := by
    rw [ran_pure] at h
    cases h

theorem throw {e : ε} (h : P e) : FailsOnly P (throw e : ExceptT ε (StateM σ) α) s where
  error e' he := by
    rw [ran_throw] at he
    cases he
    exact h

theorem get : FailsOnly P (get : ExceptT ε (StateM σ) σ) s where
  error e h := by
    rw [ran_get] at h
    cases h

theorem modify (g : σ → σ) : FailsOnly P (modify g : ExceptT ε (StateM σ) PUnit) s where
  error e h := by
    rw [ran_modify] at h
    cases h

theorem set (s' : σ) : FailsOnly P (set s' : ExceptT ε (StateM σ) PUnit) s where
  error e h := by
    rw [ran_set] at h
    cases h

/-- Two actions in a row fail with an error of the first, or with one of the second after a value of the first. -/
theorem bind (hx : FailsOnly P x s) (hf : ∀ a t, Yields x s a t → FailsOnly P (f a) t) : FailsOnly P (x >>= f) s := by
  constructor
  intro e h
  rcases hrun : ran (x >>= f) s with ⟨o, t⟩
  rw [hrun] at h
  dsimp only at h
  subst h
  rcases ran_bind_eq_error.1 hrun with hfirst | ⟨a, t', hy, hsecond⟩
  · exact hx.error e (by rw [hfirst])
  · exact (hf a t' hy).error e (by rw [hsecond])

/-- An action that is done under a condition before others. -/
theorem when {c : Prop} [Decidable c] {y : ExceptT ε (StateM σ) β} (hx : FailsOnly P x s)
    (hf : ∀ a t, FailsOnly P (f a) t) (hy : FailsOnly P y s) : FailsOnly P (if c then x >>= f else y) s := by
  split
  · exact hx.bind fun a t _ => hf a t
  · exact hy

theorem mapM {g : α → ExceptT ε (StateM σ) β} (hg : ∀ a s, FailsOnly P (g a) s) :
    ∀ (l : List α) (s : σ), FailsOnly P (l.mapM g) s
  | [], _ => by
    rw [List.mapM_nil]
    exact FailsOnly.pure _
  | a :: l, s => by
    rw [List.mapM_cons]
    refine (hg a s).bind fun b t _ => (FailsOnly.mapM hg l t).bind fun bs t' _ => ?_
    exact FailsOnly.pure _

theorem foldlM {g : β → α → ExceptT ε (StateM σ) β} (hg : ∀ b a s, FailsOnly P (g b a) s) :
    ∀ (l : List α) (b : β) (s : σ), FailsOnly P (l.foldlM g b) s
  | [], _, _ => by
    rw [List.foldlM_nil]
    exact FailsOnly.pure _
  | a :: l, b, s => by
    rw [List.foldlM_cons]
    exact (hg b a s).bind fun c t _ => FailsOnly.foldlM hg l c t

end FailsOnly

end Runs

section Workshop

variable {ε α : Type} {P : BuildError → Prop} {w : Workshop}

/-- A kind of errors that has all those which no instructions are to blame for. -/
structure BuildError.Admits (P : BuildError → Prop) : Prop where
  store : ∀ e, P (.store e)
  io : ∀ f, P (.io f)
  backend : ∀ e, P (.backend e)
  session : ∀ e, P (.session e)
  lock : ∀ e, P (.compile (.lock e))
  distribution : ∀ e, P (.compile (.distribution e))

theorem failsOnly_onHost {wrap : ε → BuildError} (h : ∀ e, P (wrap e)) (x : HostM ε α) : FailsOnly P (onHost wrap x) w where
  error e he := by
    rw [ran_onHost] at he
    obtain ⟨e', -, rfl⟩ := mapError_eq_error.1 he
    exact h e'

theorem failsOnly_ofExcept {wrap : ε → BuildError} {x : Except ε α} (h : ∀ e, x = .error e → P (wrap e)) :
    FailsOnly P (ofExcept wrap x) w where
  error e he := by
    rw [ran_workshopOfExcept] at he
    obtain ⟨e', he', rfl⟩ := mapError_eq_error.1 he
    exact h e' he'

variable (hP : BuildError.Admits P)
include hP

theorem failsOnly_openBackend (k : BackendKind) : FailsOnly P (openBackend k) w := by
  unfold openBackend
  refine FailsOnly.get.bind fun w' t _ => ?_
  split
  · exact FailsOnly.pure _
  · exact (failsOnly_onHost hP.backend _).bind fun b t _ => (FailsOnly.modify _).bind fun _ t _ => FailsOnly.pure _

theorem failsOnly_withOpen (k : BackendKind) (x : Backend → BackendM α) : FailsOnly P (withOpen k x) w :=
  (failsOnly_openBackend hP k).bind fun _ _ _ => failsOnly_onHost hP.backend _

theorem failsOnly_changing (k : BackendKind) (x : Backend → BackendM (α × Backend)) : FailsOnly P (changing k x) w :=
  (failsOnly_withOpen hP k x).bind fun _ _ _ => (FailsOnly.modify _).bind fun _ _ _ => FailsOnly.pure _

theorem failsOnly_register (project : String) (x : BuildResult) : FailsOnly P (register project x) w :=
  FailsOnly.get.bind fun _ _ _ => (failsOnly_ofExcept fun e _ => hP.session e).bind fun _ _ _ => FailsOnly.set _

namespace BuildContext

theorem failsOnly_sourceBytes (path : String) : FailsOnly P (sourceBytes path) w := by
  unfold sourceBytes
  refine FailsOnly.get.bind fun _ _ _ => ?_
  dsimp only
  split
  · exact failsOnly_onHost (fun _ => hP.store _) _
  · split
    · exact (failsOnly_onHost hP.io _).bind fun _ _ _ => FailsOnly.pure _
    · exact FailsOnly.pure _

theorem failsOnly_digest (d : WorkDirectory) (is : List Instruction) (p : Plan) : FailsOnly P (digest d is p) w := by
  have hheaded : ∀ (heading path : String) (w : Workshop), FailsOnly P (headed heading path) w :=
    fun _ path _ => (failsOnly_sourceBytes hP path).bind fun _ _ _ => FailsOnly.pure _
  unfold digest stream
  refine FailsOnly.bind ?_ fun _ _ _ => FailsOnly.pure _
  exact (FailsOnly.mapM (fun _ _ => hheaded ..) _ _).bind fun _ _ _ =>
    (FailsOnly.mapM (fun _ _ => hheaded ..) _ _).bind fun _ _ _ => FailsOnly.pure _

end BuildContext

namespace Recipe

variable {r : Recipe}

theorem failsOnly_resolvedInstructions : FailsOnly P r.resolvedInstructions w :=
  FailsOnly.get.bind fun _ _ _ => failsOnly_ofExcept fun e _ => hP.session e

theorem failsOnly_loadLock : FailsOnly P r.loadLock w :=
  (failsOnly_onHost hP.io _).bind fun _ _ _ => by
    split
    · exact failsOnly_onHost hP.lock _
    · exact FailsOnly.pure _

/-- The user of the base image is asked for without an error of its own when there is a base. -/
theorem failsOnly_target {is : List Instruction} (hbase : Instruction.baseReference? is ≠ none) :
    FailsOnly P (r.target is) w := by
  obtain ⟨base, hbase⟩ := Option.ne_none_iff_exists'.1 hbase
  have hof : baseOf is = pure base := by
    unfold baseOf
    rw [hbase]
  unfold target
  rw [hof]
  dsimp only
  split
  · exact (FailsOnly.pure _).bind fun _ _ _ => (failsOnly_changing hP ..).bind fun _ _ _ =>
      FailsOnly.get.bind fun _ _ _ => FailsOnly.pure _
  · exact (FailsOnly.pure _).bind fun _ _ _ => FailsOnly.get.bind fun _ _ _ => FailsOnly.pure _

theorem failsOnly_writeMirror (d : WorkDirectory) : FailsOnly P (r.writeMirror d) w := by
  unfold writeMirror
  split
  · exact FailsOnly.get.bind fun _ _ _ => (failsOnly_ofExcept fun e _ => hP.distribution e).bind fun _ _ _ =>
      (failsOnly_onHost hP.store _).bind fun _ _ _ => FailsOnly.pure _
  · exact FailsOnly.pure _

/-- Instructions that a recipe comes to in a session have a base, and compiling them fails only with errors of a kind. -/
def CompilesOnly (P : BuildError → Prop) (r : Recipe) (x : Session) : Prop :=
  ∀ is, x.resolveBases r.instructions = .ok is → Instruction.baseReference? is ≠ none ∧
    ∀ l t e, Plan.compile is l t = .error e → P (.compile e)

theorem failsOnly_plan (h : r.CompilesOnly P w.session) : FailsOnly P r.plan w := by
  refine (failsOnly_resolvedInstructions hP).bind fun is _ his => ?_
  obtain ⟨hresolve, rfl⟩ := yields_resolvedInstructions.1 his
  obtain ⟨hbase, hcompile⟩ := h is hresolve
  exact (failsOnly_openBackend hP _).bind fun _ _ _ => (failsOnly_loadLock hP).bind fun _ _ _ =>
    (failsOnly_target hP hbase).bind fun _ _ _ => failsOnly_ofExcept (hcompile _ _)

theorem failsOnly_job (h : r.CompilesOnly P w.session) : FailsOnly P r.job w := by
  have hready : FailsOnly P r.getReady w :=
    FailsOnly.get.bind fun _ _ _ => (failsOnly_onHost hP.store _).bind fun _ _ _ => failsOnly_onHost hP.store _
  rw [job_eq]
  refine hready.bind fun _ w' hy => ?_
  -- getting ready leaves the session as it is, so the instructions are those of the session at first
  have hsession : w'.session = w.session := sameSession_getReady.yields hy
  refine (failsOnly_resolvedInstructions hP).bind fun is w'' his => ?_
  obtain ⟨hresolve, rfl⟩ := yields_resolvedInstructions.1 his
  obtain ⟨hbase, hcompile⟩ := h is (by rw [← hsession, hresolve])
  exact (failsOnly_openBackend hP _).bind fun _ _ _ => (failsOnly_loadLock hP).bind fun _ _ _ =>
    (failsOnly_target hP hbase).bind fun _ _ _ => (failsOnly_writeMirror hP _).bind fun _ _ _ =>
      (failsOnly_ofExcept (hcompile _ _)).bind fun _ _ _ => (BuildContext.failsOnly_digest hP ..).bind fun _ _ _ =>
        FailsOnly.pure _

theorem failsOnly_cached? (key : String) : FailsOnly P (r.cached? key) w := by
  unfold cached?
  refine FailsOnly.get.bind fun _ _ _ => (failsOnly_onHost hP.store _).bind fun found _ _ => ?_
  cases found with
  | none => exact FailsOnly.pure _
  | some hit =>
    refine (failsOnly_withOpen hP ..).bind fun b _ _ => ?_
    split
    · exact FailsOnly.pure _
    · exact (failsOnly_onHost hP.store _).bind fun _ _ _ => FailsOnly.pure _

theorem failsOnly_materialize (j : Job) : FailsOnly P (r.materialize j) w := by
  have hmake : ∀ w, FailsOnly P (do
      let store := (← get).store
      if j.plan.builder = .direct then onHost .io store.openLock
      changing r.backend (Backend.materialize j.plan j.directory r.tag r.architecture)) w :=
    fun _ => FailsOnly.get.bind fun _ _ _ => FailsOnly.when (failsOnly_onHost hP.io _)
      (fun _ _ => failsOnly_changing hP ..) (failsOnly_changing hP ..)
  have himage : FailsOnly P (r.makeImage j) w := by
    unfold makeImage
    exact FailsOnly.get.bind fun _ _ _ => FailsOnly.when (FailsOnly.throw (hP.backend _)) (fun _ => hmake) (hmake _)
  exact himage.bind fun _ _ _ => (failsOnly_onHost hP.store _).bind fun _ _ _ => FailsOnly.get.bind fun _ _ _ =>
    (failsOnly_onHost hP.store _).bind fun _ _ _ => FailsOnly.pure _

/-- A build fails with an error that no instructions are to blame for, or as its instructions do when they are
compiled. -/
theorem failsOnly_build (h : r.CompilesOnly P w.session) : FailsOnly P r.build w := by
  refine (failsOnly_job hP h).bind fun j _ _ => (failsOnly_cached? hP _).bind fun found _ _ => ?_
  cases found with
  | none =>
    exact (failsOnly_materialize hP j).bind fun _ _ _ => (failsOnly_register hP ..).bind fun _ _ _ => FailsOnly.pure _
  | some hit =>
    exact (failsOnly_onHost hP.store _).bind fun _ _ _ => (failsOnly_register hP ..).bind fun _ _ _ => FailsOnly.pure _

theorem failsOnly_lockFor (base : String) (packages : List String) (l : Lockfile) (a : Architecture) :
    FailsOnly P (r.lockFor base packages l a) w := by
  unfold lockFor
  refine (failsOnly_withOpen hP ..).bind fun pins _ _ => ?_
  refine FailsOnly.when (FailsOnly.throw (hP.lock _)) (fun _ _ => ?_) ?_ <;>
  · rcases l.replacePartition r.distribution a pins with ⟨l', e | ⟨⟩⟩
    · exact FailsOnly.throw (hP.lock e)
    · exact FailsOnly.pure l'

/-- Pinning the packages of a recipe fails with an error that no instructions are to blame for. -/
theorem failsOnly_generateLock (h : r.CompilesOnly P w.session) (l : List Architecture) :
    FailsOnly P (r.generateLock l) w := by
  have hsave : ∀ (lock : Lockfile) (w : Workshop), FailsOnly P (do
      onHost .ofLock (lock.save r.lockfile)
      pure lock : BuildM Lockfile) w :=
    fun _ _ => (failsOnly_onHost hP.lock _).bind fun _ _ _ => FailsOnly.pure _
  unfold generateLock
  refine (failsOnly_resolvedInstructions hP).bind fun is _ his => ?_
  obtain ⟨hresolve, rfl⟩ := yields_resolvedInstructions.1 his
  obtain ⟨base, hbase⟩ := Option.ne_none_iff_exists'.1 (h is hresolve).1
  have hof : FailsOnly P (baseOf is) w := by
    unfold baseOf
    rw [hbase]
    exact FailsOnly.pure _
  refine hof.bind fun base _ _ => (failsOnly_loadLock hP).bind fun lock _ _ => ?_
  dsimp only
  split
  · exact (FailsOnly.pure _).bind fun _ _ _ => hsave _ _
  · exact (failsOnly_openBackend hP _).bind fun _ _ _ =>
      (FailsOnly.foldlM (fun _ _ _ => failsOnly_lockFor hP ..) _ _ _).bind fun _ _ _ => hsave _ _

end Recipe

end Workshop

end ImageRecipe
