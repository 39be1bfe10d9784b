import ImageRecipe.Build.Basic
import ImageRecipe.Proofs.BuildFrame
import ImageRecipe.Proofs.Digest

/-! The frames of a build's own steps. -/

namespace ImageRecipe

open Workshop

variable {s : Store} {f : Store.Frame}

namespace BuildContext

/-- Reading a build's context changes nothing. -/
theorem keeps_sourceBytes (path : String) : Keeps Eq (sourceBytes path) := by
  unfold sourceBytes
  refine Keeps.get.bind fun w => ?_
  dsimp only
  split
  · exact Keeps.onHost_eq (Keeps.inspect ..) _
  · split
    · exact (Keeps.onHost_eq (Keeps.inspect ..) _).bind fun _ => Keeps.pure _
    · exact Keeps.pure _

theorem keeps_headed (heading path : String) : Keeps Eq (headed heading path) :=
  (keeps_sourceBytes path).bind fun _ => Keeps.pure _

theorem keeps_digest (w : WorkDirectory) (instructions : List Instruction) (p : Plan) :
    Keeps Eq (digest w instructions p) := by
  unfold digest stream
  apply Keeps.bind _ fun _ => Keeps.pure _
  exact (Keeps.mapM _ fun n _ => keeps_headed ..).bind fun _ =>
    (Keeps.mapM _ fun m _ => keeps_headed ..).bind fun _ => Keeps.pure _

end BuildContext

namespace Mock

theorem keeps_materialize (hf : f.AllowsNames) (m : Mock) (p : Plan) (w : WorkDirectory) (tag : String)
    (a : Architecture) : Keeps (s.Evolves f) (m.materialize p w tag a) := by
  unfold materialize
  split
  · exact Keeps.throw _
  · exact ((WorkDirectory.keeps_writeBuildFile hf _).failingAs _).bind fun _ =>
      ((WorkDirectory.keeps_writeIgnoreFile hf _).failingAs _).bind fun _ =>
        Keeps.now.bind fun _ => Keeps.pure _

end Mock

namespace Direct

theorem keeps_materialize {tag : String} (hs : f.AllowsStore) (hi : f.AllowsImages tag) (p : Plan)
    (w : WorkDirectory) : Keeps (s.Evolves f) (materialize s p w tag) := by
  unfold materialize
  split
  · exact Keeps.throw _
  · exact ((keeps_putPlan hs hi _ w).failingAs _).bind fun _ => Keeps.now.bind fun _ => Keeps.pure _

end Direct

namespace Recipe

variable {r : Recipe} {w w' : Workshop} {base : String}

theorem yields_resolvedInstructions {instructions : List Instruction} :
    Yields r.resolvedInstructions w instructions w' ↔
      w.session.resolveBases r.instructions = .ok instructions ∧ w = w' := by
  unfold resolvedInstructions
  simp only [yields_bind, yields_get, yields_workshopOfExcept]
  constructor
  · rintro ⟨_, _, ⟨rfl, rfl⟩, h⟩
    exact h
  · exact fun h => ⟨w, w, ⟨rfl, rfl⟩, h⟩

theorem yields_baseOf {instructions : List Instruction} :
    Yields (baseOf instructions) w base w' ↔ Instruction.baseReference? instructions = some base ∧ w = w' := by
  unfold baseOf
  cases Instruction.baseReference? instructions <;> simp

theorem keeps_resolvedInstructions : Keeps (Idles s f) r.resolvedInstructions :=
  keeps_get fun _ _ => keeps_ofExcept ..

theorem keeps_loadLock : Keeps (Idles s f) r.loadLock := by
  have hload : Keeps (s.Evolves f) (Lockfile.load r.lockfile) :=
    ((Keeps.readText _).failingAs _).bind fun _ => Keeps.ofExcept _
  unfold loadLock
  refine (keeps_onHost (Keeps.look ..) _).bind fun b => ?_
  split
  · exact keeps_onHost hload _
  · exact Keeps.pure _

theorem keeps_target {instructions : List Instruction}
    (hbase : r.backend = .daemon → ∀ base, Instruction.baseReference? instructions = some base →
      Engine.Suits f base) : Keeps (Idles s f) (r.target instructions) := by
  have hof : Keeps (Idles s f) (baseOf instructions) := by
    unfold baseOf
    split
    · exact Keeps.pure _
    · exact Keeps.throw _
  have huser : ∀ base, Instruction.baseReference? instructions = some base →
      Keeps (Idles s f) (changing r.backend (Backend.defaultUser base)) := by
    intro base hb
    apply keeps_changing
    · intro b hk _
      cases b with
      | daemon d =>
        exact (Daemon.keeps_defaultUser (hbase hk.symm base hb)).bind fun _ => Keeps.pure _
      | direct | mock => exact Keeps.pure _
    · intro b h a b' h' hy
      cases b with
      | daemon d =>
        obtain ⟨_, _, -, hy⟩ := (yields_bind ..).1 hy
        obtain ⟨heq, -⟩ := (yields_pure ..).1 hy
        cases heq
        exact ⟨rfl, rfl, rfl⟩
      | direct | mock =>
        obtain ⟨heq, -⟩ := (yields_pure ..).1 hy
        cases heq
        exact ⟨rfl, rfl, rfl⟩
  have hrest : ∀ user, Keeps (Idles s f) (do
      let settings := (← get).settings
      pure (⟨r.distribution, r.architecture, r.backend.builder, r.isolate, user,
        settings.ephemeralTarget, settings.repositoryName⟩ : Target)) :=
    fun _ => keeps_get fun _ _ => Keeps.pure _
  unfold target
  dsimp only
  split
  · refine ⟨fun w => Keeps.bind_at (hof.run w) fun base w' hy => ?_⟩
    exact ((huser base (yields_baseOf.1 hy).1).bind fun user => hrest user).run w'
  · exact (Keeps.pure _).bind fun user => hrest user

theorem keeps_writeMirror (w : WorkDirectory) (hf : f.AllowsNames) : Keeps (Idles s f) (r.writeMirror w) := by
  unfold writeMirror
  split
  · refine keeps_get fun _ _ => keeps_ofExcept_bind fun d hd => ?_
    exact (keeps_onHost (WorkDirectory.keeps_writeRepository hf hd) _).bind fun _ => Keeps.pure _
  · exact Keeps.pure _

/-- The work directory and the store are got ready before anything else. -/
def getReady (r : Recipe) : BuildM Unit := do
  let store := (← get).store
  onHost .store (⟨r.workDirectory⟩ : WorkDirectory).prepare
  onHost .store store.prepare

/-- What a job comes to once the work directory and the store are ready. -/
def settle (r : Recipe) : BuildM Job := do
  let instructions ← r.resolvedInstructions
  let _ ← openBackend r.backend
  let lock ← r.loadLock
  let t ← r.target instructions
  r.writeMirror ⟨r.workDirectory⟩
  let p ← ofExcept .compile (Plan.compile instructions lock t)
  let context ← BuildContext.digest ⟨r.workDirectory⟩ instructions p
  pure ⟨⟨r.workDirectory⟩, instructions, p, context⟩

theorem job_eq (r : Recipe) : r.job = r.getReady >>= fun _ => r.settle := by
  unfold job getReady settle
  simp only [bind_assoc]

theorem idles_getReady {w : Workshop} (hf : f.AllowsStore)
    (hw : s.Evolves f w.host (ran (⟨r.workDirectory⟩ : WorkDirectory).prepare w.host).2) :
    Idles s f w (ran r.getReady w).2 := by
  intro hs
  unfold getReady
  rw [ran_bind, ran_get]
  dsimp only
  rw [hs.store_eq]
  refine Keeps.bind_at (R := Idles s f) ?_ (fun _ w' _ => (keeps_onHost (Store.keeps_prepare hf) _).run w') hs
  intro hs
  rw [ran_onHost]
  exact ⟨.onHost hs hw, rfl, rfl⟩

/-- The reference of the image that a build starts from suits the engine as a word of a call. -/
def BaseSuits (r : Recipe) (f : Store.Frame) (x : Session) : Prop :=
  ∀ l base, x.resolveBases r.instructions = .ok l → Instruction.baseReference? l = some base → Engine.Suits f base

theorem idles_settle {w : Workshop} (hf : f.AllowsNames) (hbase : r.backend = .daemon → r.BaseSuits f w.session) :
    Idles s f w (ran r.settle w).2 := by
  unfold settle
  apply Keeps.bind_at (keeps_resolvedInstructions.run w)
  intro instructions w₁ hy
  obtain ⟨hresolve, rfl⟩ := yields_resolvedInstructions.1 hy
  refine Keeps.run ?_ w
  refine (keeps_openBackend _).bind fun _ => keeps_loadLock.bind fun lock => ?_
  refine (keeps_target fun hk base => hbase hk _ base hresolve).bind fun t => (keeps_writeMirror _ hf).bind fun _ => ?_
  refine (keeps_ofExcept ..).bind fun p => (Keeps.of_eq (BuildContext.keeps_digest ..)).bind fun context => ?_
  exact Keeps.pure _

theorem idles_job {w : Workshop} (hstore : f.AllowsStore) (hf : f.AllowsNames)
    (hbase : r.backend = .daemon → r.BaseSuits f w.session)
    (hw : s.Evolves f w.host (ran (⟨r.workDirectory⟩ : WorkDirectory).prepare w.host).2) :
    Idles s f w (ran r.job w).2 := by
  intro hs
  have hready : Idles s f w (ran r.getReady w).2 := idles_getReady hstore hw
  rw [job_eq]
  refine Keeps.bind_at (R := Idles s f) hready (fun _ w₁ hy => idles_settle hf ?_) hs
  have hsession := (hready hs).2.1
  rw [hy] at hsession
  rw [show w₁.session = w.session from hsession]
  exact hbase

theorem keeps_job (hk : r.backend ≠ .daemon) (hc : f.AllowsClearing) (hf : f.AllowsPlain) :
    Keeps (Idles s f) r.job :=
  ⟨fun w => idles_job hf.store hf.writes (fun h => absurd h hk) ((WorkDirectory.keeps_prepare hc hf).run w.host)⟩

theorem keeps_imageExists {id : String} (hid : r.backend = .daemon → Engine.Suits f id) :
    Keeps (Idles s f) (withOpen r.backend (Backend.imageExists id)) := by
  apply keeps_withOpen
  intro b hb _
  cases b with
  | daemon d => exact Daemon.keeps_imageExists (hid hb.symm)
  | direct s => exact Keeps.look ..
  | mock => exact Keeps.pure _

/-- A look into the cache hands the id of the image that is found there to the backend. -/
theorem idles_cached? {w : Workshop} {key : String} (hkey : IsDigest key)
    (he : ∀ S, (f S (S ++ Store.cacheNames key)).drops)
    (hid : r.backend = .daemon → ∀ hit h, Yields (w.store.getResult key) w.host (some hit) h →
      Engine.Suits f hit.imageId) : Idles s f w (ran (r.cached? key) w).2 := by
  intro hs
  unfold cached?
  rw [ran_bind, ran_get]
  dsimp only
  rw [hs.store_eq] at hid ⊢
  refine Keeps.bind_at (R := Idles s f) ((keeps_onHost (Store.keeps_getResult hkey he) _).run w) ?_ hs
  intro found w₁ hy
  obtain ⟨host, hget, -⟩ := (yields_onHost ..).1 hy
  cases found with
  | none => exact (Keeps.pure _).run w₁
  | some hit =>
    refine ((keeps_imageExists fun hk => hid hk hit host hget).bind fun b => ?_).run w₁
    split
    · exact Keeps.pure _
    · exact (keeps_onHost (Store.keeps_dropResult hkey he) _).bind fun _ => Keeps.pure _

theorem keeps_cached? (hk : r.backend ≠ .daemon) {key : String} (hkey : IsDigest key)
    (he : ∀ S, (f S (S ++ Store.cacheNames key)).drops) : Keeps (Idles s f) (r.cached? key) :=
  ⟨fun _ => idles_cached? hkey he fun h => absurd h hk⟩

/-- Making an image keeps to a frame. The engine is to leave the image id in the work directory, with no link that
leads it elsewhere. -/
theorem works_makeImage {w : Workshop} (hw : f.AllowsPlain) (hi : f.AllowsImages r.tag)
    (hd : r.backend = .daemon → Daemon.AllowsForgetting f ∧ Engine.Suits f r.tag ∧
      (f.WritesAll ∨ s.Plain w.host ∧ w.host.files.NoLinkNamed imageIdName)) (j : Job) : Works s f w (ran (r.makeImage j) w).2 := by
  have hmaterialize : ∀ w₁ : Workshop, s.Evolves f w.host w₁.host → Works s f w₁
      (ran (changing r.backend (Backend.materialize j.plan j.directory r.tag r.architecture)) w₁).2 := by
    intro w₁ hw₁
    apply works_changing
    · intro b h hb hs hsame
      cases b with
      | daemon d =>
        obtain ⟨hforget, htag, hpast⟩ := hd hb.symm
        have hpast₁ : f.WritesAll ∨ h.files.NoLinkNamed imageIdName := by
          rw [hsame.files]
          exact hpast.imp_right fun ⟨hplain, hlink⟩ => Store.noLinkNamed_of_evolves hw₁ hplain hlink
        have hmake := Daemon.keeps_materialize (d := d) (w := j.directory) (a := r.architecture) (s := s) hw.writes
          hforget htag j.plan
        exact (hmake.bind fun _ => Keeps.pure _).run h hpast₁
      | direct s' =>
        obtain rfl : s' = s := hs s' rfl
        exact ((Direct.keeps_materialize hw.store hi ..).bind fun _ => Keeps.pure _).run h
      | mock m => exact ((Mock.keeps_materialize hw.writes ..).bind fun _ => Keeps.pure _).run h
    · intro b h a b' h' hy
      cases b with
      | daemon | direct | mock =>
        obtain ⟨_, _, -, hy⟩ := (yields_bind ..).1 hy
        obtain ⟨heq, -⟩ := (yields_pure ..).1 hy
        cases heq
        rfl
  intro hs
  unfold makeImage
  rw [ran_bind, ran_get]
  dsimp only
  split
  · rw [ran_bind, ran_throw]
    exact .refl hs
  · rw [ran_bind, ran_get]
    dsimp only
    rw [hs.store_eq]
    split
    · have hopen : Keeps (Works s f) (onHost .io s.openLock) :=
        Idles.works (keeps_onHost (Store.keeps_openLock (fun _ _ => hw.store.makes_place) hw.store.lock) _)
      refine Keeps.bind_at (R := Works s f) (hopen.run w) (fun _ w₁ hy => hmaterialize w₁ ?_) hs
      exact (hopen.yields hy hs).host
    · exact hmaterialize w (refl _) hs

theorem keeps_makeImage (hk : r.backend ≠ .daemon) (hw : f.AllowsPlain) (hi : f.AllowsImages r.tag)
    (j : Job) : Keeps (Works s f) (r.makeImage j) :=
  ⟨fun _ => works_makeImage hw hi (fun h => absurd h hk) j⟩

end Recipe

end ImageRecipe
