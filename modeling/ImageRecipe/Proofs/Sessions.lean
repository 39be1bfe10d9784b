import Mathlib.Data.List.Forall2
import ImageRecipe.Proofs.Instructions
import ImageRecipe.Proofs.MockImages

/-! What the session holds in the course of builds. Nothing but the end of a build that succeeds records anything,
so after a run the session has the results of the builds before the first failure, and each image on top of another
project's image starts from the one that was made before it in the run. -/

namespace ImageRecipe

open Workshop

section Runs

variable {σ ε α β : Type} {f : α → ExceptT ε (StateM σ) β}

/-- A run over a list goes on to the first element that fails, if there is one. -/
theorem ran_mapM (f : α → ExceptT ε (StateM σ) β) (l : List α) (s : σ) :
    ∃ front bs t, Yields (front.mapM f) s bs t ∧
      (l = front ∧ ran (l.mapM f) s = (.ok bs, t) ∨
        ∃ a rest e, l = front ++ a :: rest ∧ (ran (f a) t).1 = .error e ∧
          ran (l.mapM f) s = (.error e, (ran (f a) t).2)) := by
  induction l generalizing s with
  | nil => exact ⟨[], [], s, (yields_mapM_nil ..).2 ⟨rfl, rfl⟩, .inl ⟨rfl, rfl⟩⟩
  | cons a l ih =>
    rcases hrun : ran (f a) s with ⟨e | b, s'⟩
    · refine ⟨[], [], s, (yields_mapM_nil ..).2 ⟨rfl, rfl⟩, .inr ⟨a, l, e, rfl, by rw [hrun], ?_⟩⟩
      rw [List.mapM_cons, ran_bind, hrun]
    · obtain ⟨front, bs, t, hfront, hl⟩ := ih s'
      refine ⟨a :: front, b :: bs, t, (yields_mapM_cons ..).2 ⟨b, s', bs, hrun, hfront, rfl⟩, ?_⟩
      rw [List.mapM_cons, Yields.ran_bind hrun, ran_bind]
      rcases hl with ⟨rfl, hran⟩ | ⟨c, rest, e, rfl, herror, hran⟩
      · exact .inl ⟨rfl, by rw [hran]; rfl⟩
      · exact .inr ⟨c, rest, e, rfl, herror, by rw [hran]⟩

/-- A run over two lists in a row. -/
theorem yields_mapM_append {l l' : List α} {s s' : σ} {bs : List β} :
    Yields ((l ++ l').mapM f) s bs s' ↔
      ∃ front t back, Yields (l.mapM f) s front t ∧ Yields (l'.mapM f) t back s' ∧ bs = front ++ back := by
  induction l generalizing s bs with
  | nil =>
    simp only [List.nil_append, yields_mapM_nil]
    constructor
    · intro h
      exact ⟨[], s, bs, ⟨rfl, rfl⟩, h, rfl⟩
    · rintro ⟨_, _, back, ⟨rfl, rfl⟩, h, rfl⟩
      exact h
  | cons a l ih =>
    simp only [List.cons_append, yields_mapM_cons, ih]
    constructor
    · rintro ⟨b, t, _, hb, ⟨front, t', back, hfront, hback, rfl⟩, rfl⟩
      exact ⟨b :: front, t', back, ⟨b, t, front, hb, hfront, rfl⟩, hback, rfl⟩
    · rintro ⟨_, t', back, ⟨b, t, front, hb, hfront, rfl⟩, hback, rfl⟩
      exact ⟨b, t, front ++ back, hb, ⟨front, t', back, hfront, hback, rfl⟩, rfl⟩

theorem length_mapM {l : List α} {s s' : σ} {bs : List β} (h : Yields (l.mapM f) s bs s') :
    bs.length = l.length := by
  induction l generalizing s bs with
  | nil => rw [((yields_mapM_nil ..).1 h).1, List.length_nil, List.length_nil]
  | cons a l ih =>
    obtain ⟨b, t, bs, -, hrest, rfl⟩ := (yields_mapM_cons ..).1 h
    rw [List.length_cons, List.length_cons, ih hrest]

end Runs

namespace Workshop

variable {ε α : Type}

/-- The session is the same before and after. -/
def SameSession (w w' : Workshop) : Prop := w'.session = w.session

instance : Std.Refl SameSession where
  refl _ := rfl

instance : IsTrans Workshop SameSession where
  trans _ _ _ h h' := h'.trans h

/-- Nothing in the workshop changes but its host. -/
def OnlyHost (w w' : Workshop) : Prop := { w with host := w'.host } = w'

instance : Std.Refl OnlyHost where
  refl _ := rfl

instance : IsTrans Workshop OnlyHost where
  trans w w' w'' h h' := by
    unfold OnlyHost at h h' ⊢
    rw [← h', ← h]

theorem OnlyHost.session {w w' : Workshop} (h : OnlyHost w w') : SameSession w w' :=
  (congrArg Workshop.session h).symm

theorem onlyHost_onHost (wrap : ε → BuildError) (x : HostM ε α) : Keeps OnlyHost (onHost wrap x) := by
  constructor
  intro w
  rw [ran_onHost]
  rfl

theorem sameSession_onHost (wrap : ε → BuildError) (x : HostM ε α) : Keeps SameSession (onHost wrap x) :=
  (onlyHost_onHost wrap x).mono fun _ _ h => h.session

theorem sameSession_ofExcept (wrap : ε → BuildError) (x : Except ε α) :
    Keeps SameSession (ofExcept wrap x) := by
  constructor
  intro w
  rw [ran_workshopOfExcept]
  rfl

theorem sameSession_withBackend (b : Backend) :
    Keeps SameSession (modify fun w => w.withBackend b : BuildM PUnit) := ⟨fun _ => rfl⟩

theorem sameSession_openBackend (k : BackendKind) : Keeps SameSession (openBackend k) := by
  unfold openBackend
  refine Keeps.get.bind fun w => ?_
  split
  · exact Keeps.pure _
  · exact (sameSession_onHost ..).bind fun b => (sameSession_withBackend b).bind fun _ => Keeps.pure _

theorem sameSession_withOpen (k : BackendKind) (x : Backend → BackendM α) :
    Keeps SameSession (withOpen k x) :=
  (sameSession_openBackend k).bind fun _ => sameSession_onHost ..

theorem sameSession_changing (k : BackendKind) (x : Backend → BackendM (α × Backend)) :
    Keeps SameSession (changing k x) :=
  (sameSession_withOpen k x).bind fun (_, b) => (sameSession_withBackend b).bind fun _ => Keeps.pure _

end Workshop

namespace Recipe

variable {r : Recipe} {w w' : Workshop}

theorem sameSession_resolvedInstructions : Keeps SameSession r.resolvedInstructions :=
  Keeps.get.bind fun _ => sameSession_ofExcept ..

theorem sameSession_loadLock : Keeps SameSession r.loadLock :=
  (sameSession_onHost ..).bind fun _ => by
    split
    · exact sameSession_onHost ..
    · exact Keeps.pure _

theorem sameSession_target (instructions : List Instruction) : Keeps SameSession (r.target instructions) := by
  have hbase : Keeps SameSession (baseOf instructions) := by
    unfold baseOf
    split
    · exact Keeps.pure _
    · exact Keeps.throw _
  unfold target
  dsimp only
  split
  · exact hbase.bind fun base => (sameSession_changing ..).bind fun user => Keeps.get.bind fun _ => Keeps.pure _
  · exact (Keeps.pure _).bind fun user => Keeps.get.bind fun _ => Keeps.pure _

theorem sameSession_writeMirror (d : WorkDirectory) : Keeps SameSession (r.writeMirror d) := by
  unfold writeMirror
  split
  · exact Keeps.get.bind fun _ => (sameSession_ofExcept ..).bind fun _ =>
      (sameSession_onHost ..).bind fun _ => Keeps.pure _
  · exact Keeps.pure _

theorem sameSession_cached? (key : String) : Keeps SameSession (r.cached? key) := by
  unfold cached?
  refine Keeps.get.bind fun _ => (sameSession_onHost ..).bind fun found => ?_
  cases found with
  | none => exact Keeps.pure _
  | some hit =>
    refine (sameSession_withOpen ..).bind fun b => ?_
    split
    · exact Keeps.pure _
    · exact (sameSession_onHost ..).bind fun _ => Keeps.pure _

theorem sameSession_makeImage (j : Job) : Keeps SameSession (r.makeImage j) := by
  have hmake : Keeps SameSession (do
      let store := (← get).store
      if j.plan.builder = .direct then onHost .io store.openLock
      changing r.backend (Backend.materialize j.plan j.directory r.tag r.architecture)) :=
    Keeps.get.bind fun _ =>
      Keeps.when (sameSession_onHost ..) (fun _ => sameSession_changing ..) (sameSession_changing ..)
  unfold makeImage
  exact Keeps.get.bind fun _ => Keeps.when (Keeps.throw _) (fun _ => hmake) hmake

theorem sameSession_materialize (j : Job) : Keeps SameSession (r.materialize j) :=
  (sameSession_makeImage j).bind fun _ => (sameSession_onHost ..).bind fun _ =>
    Keeps.get.bind fun _ => (sameSession_onHost ..).bind fun _ => Keeps.pure _

theorem onlyHost_getReady : Keeps OnlyHost r.getReady :=
  Keeps.get.bind fun _ => (onlyHost_onHost ..).bind fun _ => onlyHost_onHost ..

theorem sameSession_getReady : Keeps SameSession r.getReady :=
  onlyHost_getReady.mono fun _ _ h => h.session

theorem sameSession_job : Keeps SameSession r.job := by
  rw [job_eq]
  refine sameSession_getReady.bind fun _ => ?_
  exact sameSession_resolvedInstructions.bind fun _ => (sameSession_openBackend _).bind fun _ =>
    sameSession_loadLock.bind fun _ => (sameSession_target _).bind fun _ => (sameSession_writeMirror _).bind fun _ =>
    (sameSession_ofExcept ..).bind fun _ => (Keeps.of_eq (BuildContext.keeps_digest ..)).bind fun _ => Keeps.pure _

/-- All of a build but its record in the session. -/
def produce (r : Recipe) : BuildM Outcome := do
  let j ← r.job
  match ← r.cached? (r.key j) with
  | some hit =>
    onHost .store (j.directory.writeResult hit)
    pure ⟨hit, j.plan.contentHash, true⟩
  | none =>
    let result ← r.materialize j
    pure ⟨result, j.plan.contentHash, false⟩

theorem build_eq (r : Recipe) : r.build = r.produce >>= fun o => register r.project o.result >>= fun _ => pure o := by
  unfold build produce
  simp only [bind_assoc]
  congr 1
  funext j
  congr 1
  funext found
  cases found <;> simp only [bind_assoc, pure_bind]

theorem sameSession_produce : Keeps SameSession r.produce := by
  refine sameSession_job.bind fun _ => (sameSession_cached? _).bind fun found => ?_
  cases found with
  | none => exact (sameSession_materialize _).bind fun _ => Keeps.pure _
  | some => exact (sameSession_onHost ..).bind fun _ => Keeps.pure _

/-- A build that succeeds records its result, of a project that had none. -/
theorem session_build {o : Outcome} (h : Yields r.build w o w') :
    w.session.resolve? r.project = none ∧
      w'.session = ⟨w.session.results.insert r.project o.result⟩ := by
  rw [build_eq] at h
  obtain ⟨o', w₁, hproduce, h⟩ := (yields_bind ..).1 h
  obtain ⟨_, w₂, hregister, h⟩ := (yields_bind ..).1 h
  obtain ⟨rfl, rfl⟩ := (yields_pure ..).1 h
  obtain ⟨hnone, rfl⟩ := yields_register.1 hregister
  have hsame : w₁.session = w.session := sameSession_produce.yields hproduce
  rw [hsame] at hnone
  exact ⟨hnone, by rw [hsame]⟩

/-- A build that fails leaves the session as it was. -/
theorem session_build_error {e : BuildError} (h : (ran r.build w).1 = .error e) :
    (ran r.build w).2.session = w.session := by
  rw [build_eq, ran_bind] at h ⊢
  have hproduce : SameSession w (ran r.produce w).2 := sameSession_produce.run w
  rcases hran : ran r.produce w with ⟨e' | o, w₁⟩
  · rw [hran] at hproduce
    exact hproduce
  · rw [hran] at h hproduce
    simp only [register, ran_bind, ran_get, ran_workshopOfExcept] at h ⊢
    cases hregister : w₁.session.register r.project o.result with
    | error e' => exact hproduce
    | ok session => simp [hregister] at h

end Recipe


/-- Instructions whose bases have the tag and the image id of the project's result among some builds, whatever
they had before. Nothing else is changed. -/
def FilledIn (made : List (Recipe × Outcome)) : List Instruction → List Instruction → Prop :=
  List.Forall₂ fun i i' => match i with
    | .builtBase project _ _ => ∃ b ∈ made, b.1.project = project ∧
        i' = .builtBase project (some b.2.result.tag) (some b.2.result.imageId)
    | i => i' = i

namespace Session

variable {s : Session}

theorem filledIn_of_resolveBases {made : List (Recipe × Outcome)}
    (hs : ∀ project x, s.resolve? project = some x → ∃ b ∈ made, b.1.project = project ∧ b.2.result = x) :
    ∀ {l js : List Instruction}, s.resolveBases l = .ok js → FilledIn made l js
  | [], _, h => by
    cases h
    exact .nil
  | i :: l, _, h => by
    obtain ⟨j, rest, hj, hrest, rfl⟩ := resolveBases_cons h
    refine .cons ?_ (filledIn_of_resolveBases hs hrest)
    cases i with
    | builtBase project tag id =>
      obtain ⟨x, hx, rfl⟩ := resolveBase_builtBase hj
      obtain ⟨b, hb, hproject, rfl⟩ := hs project x hx
      exact ⟨b, hb, hproject, rfl⟩
    | _ => exact (Except.ok.inj hj).symm

/-- The base projects of instructions that the session has no image of. -/
def missing (s : Session) (l : List Instruction) : List String :=
  (l.filterMap Instruction.baseProject?).filter fun p => (s.resolve? p).isNone

/-- Bases are filled in alike from sessions with the same images of the base projects. -/
theorem resolveBases_congr {s' : Session} : ∀ {l : List Instruction},
    (∀ p ∈ l.filterMap Instruction.baseProject?, s'.resolve? p = s.resolve? p) → s'.resolveBases l = s.resolveBases l
  | [], _ => rfl
  | i :: l, h => by
    have hrest : s'.resolveBases l = s.resolveBases l := resolveBases_congr fun p hp => by
      obtain ⟨j, hj, hproject⟩ := List.mem_filterMap.1 hp
      exact h p (List.mem_filterMap.2 ⟨j, .tail i hj, hproject⟩)
    have hbase : s'.resolveBase i = s.resolveBase i := by
      cases i with
      | builtBase project tag id => simp only [resolveBase, require, h project (List.mem_filterMap.2 ⟨_, .head l, rfl⟩)]
      | _ => rfl
    unfold resolveBases at hrest ⊢
    rw [List.mapM_cons, List.mapM_cons, hrest, hbase]

theorem resolveBases_missing {q : String} {more : List String} : ∀ {l : List Instruction},
    s.missing l = q :: more → s.resolveBases l = .error (.notBuilt q)
  | [], h => by simp [missing] at h
  | i :: l, h => by
    have hrest : s.missing l = q :: more → s.resolveBases l = .error (.notBuilt q) := resolveBases_missing
    unfold resolveBases at hrest ⊢
    unfold missing at h hrest
    rw [List.mapM_cons]
    cases i with
    | builtBase project tag id =>
      rw [List.filterMap_cons_some (f := Instruction.baseProject?) (b := project) rfl] at h
      cases hp : s.resolve? project with
      | none =>
        rw [List.filter_cons_of_pos (by simp [hp])] at h
        cases h
        simp [resolveBase, require, hp, Except.map, bind, Except.bind]
      | some x =>
        rw [List.filter_cons_of_neg (by simp [hp])] at h
        rw [hrest h]
        simp [resolveBase, require, hp, Except.map, bind, Except.bind]
    | _ =>
      rw [hrest h]
      rfl

end Session

namespace Recipe

variable {l : List Recipe} {outs : List Outcome} {w w' : Workshop}

/-- What the session has after builds is what it had and what they came to, each of a project that had nothing. -/
theorem resolve?_buildAll (h : Yields (buildAll l) w outs w') :
    (l.map project).Nodup ∧ (∀ r ∈ l, w.session.resolve? r.project = none) ∧
      ∀ p x, w'.session.resolve? p = some x ↔
        w.session.resolve? p = some x ∨ ∃ b ∈ l.zip outs, b.1.project = p ∧ b.2.result = x := by
  induction l generalizing w outs with
  | nil =>
    obtain ⟨rfl, rfl⟩ := (yields_mapM_nil ..).1 h
    simp
  | cons r l ih =>
    obtain ⟨o, w₁, rest, hbuild, hrest, rfl⟩ := (yields_mapM_cons ..).1 h
    obtain ⟨hnodup, hnone, hresults⟩ := ih hrest
    obtain ⟨hfree, hsession⟩ := session_build hbuild
    have hresolve : ∀ p, w₁.session.resolve? p =
        if p = r.project then some o.result else w.session.resolve? p := by
      intro p
      rw [hsession]
      exact SortedMap.get?_insert ..
    have hother : ∀ q ∈ l, q.project ≠ r.project ∧ w.session.resolve? q.project = none := by
      intro q hq
      have := hnone q hq
      rw [hresolve] at this
      split at this
      · simp at this
      · next hne => exact ⟨hne, this⟩
    refine ⟨?_, ?_, fun p x => ?_⟩
    · rw [List.map_cons, List.nodup_cons]
      refine ⟨fun hmem => ?_, hnodup⟩
      obtain ⟨q, hq, heq⟩ := List.mem_map.1 hmem
      exact (hother q hq).1 heq
    · intro q hq
      rcases List.mem_cons.1 hq with rfl | hq
      · exact hfree
      · exact (hother q hq).2
    · rw [hresults, hresolve]
      simp only [List.zip_cons_cons, List.mem_cons, or_and_right, exists_or, exists_eq_left]
      split
      · next heq =>
        subst heq
        simp [hfree]
      · next hne => simp [Ne.symm hne]

/-- A build on top of a project that the session has no image of gets its work directory and the store ready, and
then fails. -/
theorem ran_build_missing {r : Recipe} {q : String} {more : List String}
    (h : w.session.missing r.instructions = q :: more) :
    ran r.build w = ran (r.getReady >>= fun _ => throw (.session (.notBuilt q))) w := by
  unfold build
  rw [job_eq]
  simp only [bind_assoc]
  rw [ran_bind, ran_bind]
  have hsame : SameSession w (ran r.getReady w).2 := sameSession_getReady.run w
  rcases hrun : ran r.getReady w with ⟨e | _, w₁⟩
  · rfl
  · rw [hrun] at hsame
    have hinstructions : ran r.resolvedInstructions w₁ = (.error (.session (.notBuilt q)), w₁) := by
      unfold resolvedInstructions
      rw [ran_bind, ran_get]
      simp only [ran_workshopOfExcept]
      rw [hsame, Session.resolveBases_missing h, mapError_error]
    unfold settle
    simp only [bind_assoc]
    rw [ran_bind, hinstructions]
    rfl

/-- A build in a run is of instructions whose bases are filled in from the builds before it. -/
theorem yields_buildAll_filledIn (hnew : w.session = Session.empty) {before after : List Recipe} {r : Recipe}
    (h : Yields (buildAll (before ++ r :: after)) w outs w') :
    ∃ done o more w₁ j w₂, outs = done ++ o :: more ∧ Yields (buildAll before) w done w₁ ∧
      Yields r.job w₁ j w₂ ∧ o.planHash = j.plan.contentHash ∧
      FilledIn (before.zip done) r.instructions j.instructions ∧
      ∃ lock t, Plan.compile j.instructions lock t = .ok j.plan := by
  obtain ⟨done, w₁, back, hdone, hback, rfl⟩ := yields_mapM_append.1 h
  obtain ⟨o, w₂, more, hbuild, -, rfl⟩ := (yields_mapM_cons ..).1 hback
  obtain ⟨j, w₃, hjob, hhash, -⟩ := yields_build hbuild
  have hsettles := yields_job hjob
  obtain ⟨lock, t, -, hplan⟩ := hsettles.plan
  refine ⟨done, o, more, w₁, j, w₃, rfl, hdone, hjob, hhash, ?_, lock, t, hplan⟩
  refine Session.filledIn_of_resolveBases (fun project x hx => ?_) hsettles.instructions
  refine (((resolve?_buildAll hdone).2.2 project x).1 hx).resolve_left ?_
  rw [hnew]
  simp [Session.resolve?, Session.empty]

/-- In a session that is new, builds in a row go on to the first that fails. Then the session has just the results
of the builds before it, all of different projects. Each of these was compiled with its bases filled in from
the results before its own. If the recipe that fails is on top of a project that has no result yet, then its
build has done no more than to get the work directory and the store ready, unless that failed already. -/
theorem session_buildAll (l : List Recipe) (hnew : w.session = Session.empty) :
    ∃ front outs w₁, Yields (buildAll front) w outs w₁ ∧ (front.map project).Nodup ∧
      (∀ p x, (ran (buildAll l) w).2.session.resolve? p = some x ↔
        ∃ b ∈ front.zip outs, b.1.project = p ∧ b.2.result = x) ∧
      (∀ before r after, front = before ++ r :: after →
        ∃ done o more w₂ j w₃, outs = done ++ o :: more ∧ Yields (buildAll before) w done w₂ ∧
          Yields r.job w₂ j w₃ ∧ o.planHash = j.plan.contentHash ∧
          FilledIn (before.zip done) r.instructions j.instructions ∧
          ∃ lock t, Plan.compile j.instructions lock t = .ok j.plan) ∧
      (l = front ∧ ran (buildAll l) w = (.ok outs, w₁) ∨
        ∃ r rest e, l = front ++ r :: rest ∧ (ran r.build w₁).1 = .error e ∧
          ran (buildAll l) w = (.error e, (ran r.build w₁).2) ∧
          ∀ q more, ((r.instructions.filterMap Instruction.baseProject?).filter
              fun p => decide (p ∉ front.map project)) = q :: more →
            ran r.build w₁ = ran (r.getReady >>= fun _ => throw (.session (.notBuilt q))) w₁ ∧
              (ran r.build w₁).2 = { w₁ with host := (ran r.build w₁).2.host }) := by
  obtain ⟨front, outs, w₁, hfront, hrun⟩ := ran_mapM build l w
  obtain ⟨hnodup, -, hresults⟩ := resolve?_buildAll hfront
  have hlength := length_mapM hfront
  have hempty : ∀ p, w.session.resolve? p = none := by
    intro p
    rw [hnew]
    rfl
  have hheld : ∀ p x, w₁.session.resolve? p = some x ↔
      ∃ b ∈ front.zip outs, b.1.project = p ∧ b.2.result = x := by
    intro p x
    rw [hresults, hempty]
    simp
  have hsession : (ran (buildAll l) w).2.session = w₁.session := by
    rcases hrun with ⟨-, hran⟩ | ⟨r, rest, e, -, herror, hran⟩
    · rw [buildAll, hran]
    · rw [buildAll, hran]
      exact session_build_error herror
  refine ⟨front, outs, w₁, hfront, hnodup, ?_, ?_, ?_⟩
  · rw [hsession]
    exact hheld
  · rintro before r after rfl
    exact yields_buildAll_filledIn hnew hfront
  · rcases hrun with hall | ⟨r, rest, e, hl, herror, hran⟩
    · exact .inl hall
    · refine .inr ⟨r, rest, e, hl, herror, hran, fun q more hq => ?_⟩
      have hmissing : w₁.session.missing r.instructions = q :: more := by
        rw [← hq]
        refine List.filter_congr fun p _ => ?_
        rw [Bool.eq_iff_iff, Option.isNone_iff_eq_none, decide_eq_true_iff, Option.eq_none_iff_forall_ne_some]
        constructor
        · intro hnone hmem
          obtain ⟨r, hr, rfl⟩ := List.mem_map.1 hmem
          rw [← List.map_fst_zip hlength.ge] at hr
          obtain ⟨b, hb, rfl⟩ := List.mem_map.1 hr
          exact hnone b.2.result ((hheld _ _).2 ⟨b, hb, rfl, rfl⟩)
        · intro hnot x hx
          obtain ⟨b, hb, rfl, -⟩ := (hheld _ _).1 hx
          exact hnot (List.mem_map_of_mem (List.of_mem_zip hb).1)
      refine ⟨ran_build_missing hmissing, ?_⟩
      rw [ran_build_missing hmissing]
      exact ((onlyHost_getReady.bind fun _ => Keeps.throw _).run w₁).symm

end Recipe

/-- The session of a run of two builds, the second on top of the first, has the image of the first. -/
theorem Recipe.session_buildAll_sample :
    ∃ x, (ran (buildAll [Sample.recipe .mock .x86, Sample.derived]) Sample.workshop).2.session.resolve? "p" =
      some x := by
  obtain ⟨front, outs, w, hfront, -, hheld, -, hrun⟩ :=
    Recipe.session_buildAll [Sample.recipe .mock .x86, Sample.derived] (w := Sample.workshop) rfl
  have hfirst : ∃ front', front = Sample.recipe .mock .x86 :: front' := by
    rcases hrun with ⟨rfl, -⟩ | ⟨r, rest, e, hl, herror, -⟩
    · exact ⟨_, rfl⟩
    · cases front with
      | nil =>
        obtain ⟨-, rfl⟩ := (yields_mapM_nil ..).1 hfront
        rw [List.nil_append, List.cons.injEq] at hl
        rw [← hl.1] at herror
        obtain ⟨o, ho⟩ := exists_of_isOk Sample.isOk_mock
        have hrun : Yields (Sample.recipe .mock .x86).build Sample.workshop o (Sample.call .mock).after :=
          BuildCall.yields_of_outcome (c := Sample.call .mock) ho
        rw [hrun] at herror
        cases herror
      | cons _ front' =>
        rw [List.cons_append, List.cons.injEq] at hl
        exact ⟨front', by rw [hl.1]⟩
  obtain ⟨front', rfl⟩ := hfirst
  obtain ⟨o, _, _, -, -, rfl⟩ := (yields_mapM_cons ..).1 hfront
  exact ⟨o.result, (hheld "p" o.result).2 ⟨(Sample.recipe .mock .x86, o), by simp, rfl, rfl⟩⟩

end ImageRecipe
