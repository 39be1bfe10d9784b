import ImageRecipe.Proofs.Sessions

/-! What builds leave behind that fail. Until a build has its result it writes no file with the name of a result
and no entry of the cache, and it removes only the cache's entry under its own key; what it may lose besides
is what lies where the repository definitions of an earlier build are cleared away. -/

namespace ImageRecipe

open Workshop

namespace Store

/-- The bytes that the store holds under a key. -/
def cacheFile? (s : Store) (h : Host) (key : String) : Option ByteArray :=
  h.files.content? (s.place h.directory ++ cacheNames key)

/-- The frame of a build that has no result yet, given the places that it clears and the keys that it may forget. -/
def Frame.unfinished (cleared : Location → Prop) (own : String → Prop) : Frame := fun S l =>
  { makes := True
    empties := ∃ R, cleared R ∧ R <+: l
    drops := (∃ key, own key ∧ IsDigest key ∧ l = S ++ cacheNames key) ∨ ∃ outer, l = outer ++ [imageIdName]
    writes := fun _ => (∀ outer, l ≠ outer ++ [resultName]) ∧ ∀ key, IsDigest key → l ≠ S ++ cacheNames key }

variable {s : Store} {h h' : Host} {cleared : Location → Prop} {own : String → Prop}

theorem last_inj {l l' : Location} {n n' : FileName} (h : l ++ [n] = l' ++ [n']) : n = n' :=
  List.singleton_inj.1 (List.append_inj_right' h rfl)

theorem allowsPlain_unfinished : (Frame.unfinished cleared own).AllowsPlain where
  makes _ _ := trivial
  writes S outer n _ hn := by
    refine ⟨fun outer' heq => hn.ne_resultName (last_inj heq), ?_⟩
    intro key hkey heq
    rw [last_eq_of_cacheNames heq] at hn
    exact hkey.not_isPlain_json hn

theorem allowsImages_unfinished (tag : String) : (Frame.unfinished cleared own).AllowsImages tag where
  fans _ _ _ _ _ := trivial
  objects S ns hash _ hhash := by
    refine ⟨fun outer heq => hhash.ne_resultName (last_inj heq), ?_⟩
    intro key _
    rw [List.append_assoc, List.append_assoc]
    exact append_ne_cacheNames (mt FileName.ofText_injective (by decide)) key
  records S hash _ hhash := by
    refine ⟨fun outer heq => hhash.ne_resultName_json (last_inj heq), ?_⟩
    intro key _
    rw [List.append_assoc]
    exact append_ne_cacheNames (mt FileName.ofText_injective (by decide)) key
  tag S _ := by
    refine ⟨fun outer heq => (isDigest_hexOfText tag).ne_resultName ?_, fun key _ =>
      append_ne_cacheNames (mt FileName.ofText_injective (by decide)) key⟩
    have := congrArg List.getLast? heq
    simpa [tagNames] using this

theorem allowsForgetting_unfinished : Daemon.AllowsForgetting (Frame.unfinished cleared own) :=
  fun _ outer => .inr ⟨outer, rfl⟩

/-- Whatever has the name of a result, and is no directory, stays as it is where nothing is cleared. -/
theorem Evolves.entry?_result (he : s.Evolves (Frame.unfinished cleared own) h h') (hp : s.Plain h)
    {outer : Location} (hl : ∀ R, cleared R → ¬ R <+: outer ++ [resultName]) {x : Entry}
    (hx : x.isDirectory = false) :
    h'.files.entry? (outer ++ [resultName]) = some x ↔ h.files.entry? (outer ++ [resultName]) = some x := by
  have hchange := (he hp).2.files (outer ++ [resultName])
  have heq := hchange.eq_of_entry hx (by
    rintro e (⟨R, hR, hpre⟩ | ⟨⟨key, -, hkey, heq⟩ | ⟨outer', heq⟩, -⟩)
    · exact hl R hR hpre
    · exact hkey.ne_resultName_json (last_eq_of_cacheNames heq).symm
    · exact absurd (last_inj heq) (by decide +kernel))
    fun _ hw => hw.1 outer rfl
  constructor
  · intro hsome
    rw [← heq (.inr hsome), hsome]
  · intro hsome
    rw [heq (.inl hsome), hsome]

/-- An entry of the cache stays as it is, or it was one of the build's own and is gone. -/
theorem Evolves.cacheFile? (he : s.Evolves (Frame.unfinished cleared own) h h') (hp : s.Plain h)
    (hS : ∀ R, cleared R → ¬ R <+: s.place h.directory) {key : String} (hkey : IsDigest key) :
    s.cacheFile? h' key = s.cacheFile? h key ∨ own key ∧ s.cacheFile? h' key = none := by
  obtain ⟨hsetting, hchanges⟩ := he hp
  have hchange := hchanges.near_of_not_empties (fun ⟨R, hR, hpre⟩ => hS R hR hpre) _
    (.inr ⟨_, repositoriesName_notMem_cacheNames hkey, rfl⟩)
  unfold Store.cacheFile? FileTree.content?
  rw [hsetting.directory]
  generalize h.files.entry? (s.place h.directory ++ cacheNames key) = e at hchange ⊢
  generalize h'.files.entry? (s.place h.directory ++ cacheNames key) = e' at hchange ⊢
  have hown : (Frame.unfinished cleared own (s.place h.directory) (s.place h.directory ++ cacheNames key)).kept.Loses e →
      own key := by
    rintro (hempty | ⟨⟨key', hown, -, heq⟩ | ⟨outer, heq⟩, -⟩)
    · exact hempty.elim
    · rw [cacheNames_injective (List.append_cancel_left heq)]
      exact hown
    · refine absurd (last_eq_of_cacheNames heq.symm).symm fun hname => ?_
      have := congrArg (fun t : String => t.toList.length) (FileName.ofText_injective hname)
      simp [hkey.length_eq] at this
  cases hchange with
  | same => exact .inl rfl
  | lost hlost => exact .inr ⟨hown hlost, rfl⟩
  | made mode _ hmade =>
    rcases hmade with rfl | hlost
    · exact .inl rfl
    · exact .inr ⟨hown hlost, rfl⟩
  | written _ _ hw => exact absurd rfl (hw.2 key hkey)

end Store

namespace Recipe

variable {r : Recipe} {s : Store} {f : Store.Frame} {w w' : Workshop}

/-- What a build has when it has a result: the job, and the result, which the cache may have had. -/
structure Draft where
  job : Job
  result : BuildResult
  cached : Bool

/-- Find the result of a build in the cache, or make its image. -/
def obtain (r : Recipe) : BuildM Draft := do
  let j ← r.job
  match ← r.cached? (r.key j) with
  | some hit => pure ⟨j, hit, true⟩
  | none => pure ⟨j, ← r.makeImage j, false⟩

/-- Note the result of a build in the work directory and, if it is new, in the cache. -/
def note (r : Recipe) (d : Draft) : BuildM Unit := do
  onHost .store (d.job.directory.writeResult d.result)
  if !d.cached then
    let store := (← get).store
    let _ ← onHost .store (store.putResult (r.key d.job) d.result).outcome

theorem build_eq_note (r : Recipe) : r.build = (do
    let d ← r.obtain
    r.note d
    register r.project d.result
    pure ⟨d.result, d.job.plan.contentHash, d.cached⟩) := by
  unfold build obtain note materialize
  simp only [bind_assoc]
  congr 1
  funext j
  congr 1
  funext found
  cases found <;> simp [bind_assoc, pure_bind]

/-- A key is the build's own if the job comes to it. -/
def OwnKey (r : Recipe) (w : Workshop) (key : String) : Prop := ∃ j w₁, Yields r.job w j w₁ ∧ r.key j = key

/-- The engine can be called without doing more to the files than a frame allows: so can be said of each word that
a build hands on to it, and of the file in which it is to leave the image id. -/
structure CallsSuit (r : Recipe) (s : Store) (f : Store.Frame) (w : Workshop) : Prop where
  base : r.BaseSuits f w.session
  found : ∀ j w₁ hit h, Yields r.job w j w₁ → Yields (s.getResult (r.key j)) w₁.host (some hit) h →
    Engine.Suits f hit.imageId
  tag : Engine.Suits f r.tag
  forgets : Daemon.AllowsForgetting f
  unlinked : f.WritesAll ∨ s.Plain w.host ∧ w.host.files.NoLinkNamed imageIdName

theorem callsSuit_all (r : Recipe) (s : Store) (w : Workshop) : r.CallsSuit s .all w where
  base _ _ _ _ := .inl Store.writesAll_all
  found _ _ _ _ _ _ := .inl Store.writesAll_all
  tag := .inl Store.writesAll_all
  forgets _ _ := trivial
  unlinked := .inl Store.writesAll_all

theorem works_obtain (hf : f.AllowsPlain) (hi : f.AllowsImages r.tag)
    (hprepare : s.Evolves f w.host (ran (⟨r.workDirectory⟩ : WorkDirectory).prepare w.host).2)
    (hdrops : ∀ key, r.OwnKey w key → ∀ S, (f S (S ++ Store.cacheNames key)).drops)
    (hcalls : r.backend = .daemon → r.CallsSuit s f w) : Works s f w (ran r.obtain w).2 := by
  have hjob : Idles s f w (ran r.job w).2 := idles_job hf.store hf.writes (fun hk => (hcalls hk).base) hprepare
  intro hs
  refine Keeps.bind_at (R := Works s f) (fun hs => (hjob hs).1) (fun j w₁ hj => ?_) hs
  have he₁ := (hjob hs).1
  rw [hj] at he₁
  have hfound : Idles s f w₁ (ran (r.cached? (r.key j)) w₁).2 := by
    refine idles_cached? (r.isDigest_key j) (hdrops _ ⟨j, w₁, hj, rfl⟩) fun hk hit h hget => ?_
    rw [he₁.uses.store_eq] at hget
    exact (hcalls hk).found j w₁ hit h hj hget
  refine Keeps.bind_at (R := Works s f) (fun hs => (hfound hs).1) fun found w₂ hy => ?_
  have he₂ := (hfound he₁.uses).1
  rw [hy] at he₂
  cases found with
  | some hit => exact (Keeps.pure _).run w₂
  | none =>
    refine Keeps.bind_at (R := Works s f) (works_makeImage hf hi (fun hk => ?_) j) fun _ w₃ _ => (Keeps.pure _).run w₃
    obtain ⟨-, -, htag, hforgets, hunlinked⟩ := hcalls hk
    refine ⟨hforgets, htag, hunlinked.imp_right fun ⟨hp, hlink⟩ => ?_⟩
    have he := IsTrans.trans (r := s.Evolves f) _ _ _ he₁.host he₂.host
    exact ⟨hp.evolves he, Store.noLinkNamed_of_evolves he hp hlink⟩

/-- The result of a build cannot be written into its work directory. -/
def FailsToWrite (r : Recipe) (w : Workshop) (e : BuildError) : Prop :=
  ∃ d w₁, Yields r.obtain w d w₁ ∧ (ran (onHost .store (d.job.directory.writeResult d.result)) w₁).1 = .error e

/-- Noting a result fails only if the result cannot be written into the work directory. -/
theorem note_error {d : Draft} {e : BuildError} (h : (ran (r.note d) w).1 = .error e) :
    (ran (onHost .store (d.job.directory.writeResult d.result)) w).1 = .error e := by
  unfold note at h
  rw [ran_bind] at h
  rcases hwrite : ran (onHost .store (d.job.directory.writeResult d.result)) w with ⟨e' | _, w₁⟩
  · rw [hwrite] at h
    exact h
  · rw [hwrite] at h
    dsimp only at h
    split at h
    · simp only [ran_bind, ran_get, ran_onHost, ran_outcome, mapError_ok, ran_pure, reduceCtorEq] at h
    · cases h

/-- If it is not in noting its result that a build fails, it fails before it has one. -/
theorem ran_build_error {e : BuildError} (h : (ran r.build w).1 = .error e)
    (hnew : ∀ p, e ≠ .session (.alreadyBuilt p)) (hwrite : ¬ r.FailsToWrite w e) :
    (ran r.build w).2 = (ran r.obtain w).2 := by
  rw [build_eq_note, ran_bind] at h ⊢
  rcases hobtain : ran r.obtain w with ⟨e' | d, w₁⟩
  · rfl
  rw [hobtain] at h
  exfalso
  dsimp only at h
  rw [ran_bind] at h
  rcases hnote : ran (r.note d) w₁ with ⟨e' | _, w₂⟩
  · rw [hnote] at h
    cases h
    exact hwrite ⟨d, w₁, hobtain, note_error (by rw [hnote])⟩
  · rw [hnote] at h
    dsimp only at h
    unfold register Session.register at h
    simp only [ran_bind, ran_get, ran_workshopOfExcept] at h
    cases hresolve : w₂.session.resolve? r.project with
    | some x =>
      rw [hresolve] at h
      cases h
      exact hnew _ rfl
    | none => simp [hresolve] at h

/-- A result is dated at the end of its making. -/
theorem createdAt_makeImage {j : Job} {x : BuildResult} (h : Yields (r.makeImage j) w x w') :
    x.createdAt = w'.host.clock := by
  obtain ⟨w₁, -, hchange⟩ := yields_makeImage h
  obtain ⟨b, b', host, w₂, -, -, hrun, rfl⟩ := yields_changing_opened hchange
  change x.createdAt = w₂.host.clock
  cases b with
  | daemon d =>
    obtain ⟨_, _, hmake, hpure⟩ := (yields_bind ..).1 hrun
    obtain ⟨heq, rfl⟩ := (yields_pure ..).1 hpure
    cases heq
    unfold Daemon.materialize at hmake
    split at hmake
    · exact (yields_throw _ _ _ _ hmake).elim
    · obtain ⟨_, _, -, hmake⟩ := (yields_bind ..).1 hmake
      obtain ⟨o, _, -, hmake⟩ := (yields_bind ..).1 hmake
      split at hmake
      · obtain ⟨_, _, hthrow, -⟩ := (yields_bind ..).1 hmake
        exact (yields_throw _ _ _ _ hthrow).elim
      · obtain ⟨_, _, -, hmake⟩ := (yields_bind ..).1 hmake
        obtain ⟨_, _, hnow, hpure⟩ := (yields_bind ..).1 hmake
        obtain ⟨rfl, rfl⟩ := yields_now.1 hnow
        obtain ⟨rfl, rfl⟩ := (yields_pure ..).1 hpure
        rfl
  | direct s =>
    obtain ⟨_, _, hmake, hpure⟩ := (yields_bind ..).1 hrun
    obtain ⟨heq, rfl⟩ := (yields_pure ..).1 hpure
    cases heq
    unfold Direct.materialize at hmake
    split at hmake
    · exact (yields_throw _ _ _ _ hmake).elim
    · obtain ⟨_, _, -, hmake⟩ := (yields_bind ..).1 hmake
      obtain ⟨_, _, hnow, hpure⟩ := (yields_bind ..).1 hmake
      obtain ⟨rfl, rfl⟩ := yields_now.1 hnow
      obtain ⟨rfl, rfl⟩ := (yields_pure ..).1 hpure
      rfl
  | mock m =>
    obtain ⟨_, _, hmake, hpure⟩ := (yields_bind ..).1 hrun
    obtain ⟨heq, rfl⟩ := (yields_pure ..).1 hpure
    cases heq
    unfold Mock.materialize at hmake
    split at hmake
    · exact (yields_throw _ _ _ _ hmake).elim
    · obtain ⟨_, _, -, hmake⟩ := (yields_bind ..).1 hmake
      obtain ⟨_, _, -, hmake⟩ := (yields_bind ..).1 hmake
      obtain ⟨_, _, hnow, hpure⟩ := (yields_bind ..).1 hmake
      obtain ⟨rfl, rfl⟩ := yields_now.1 hnow
      obtain ⟨heq, rfl⟩ := (yields_pure ..).1 hpure
      cases heq
      rfl

/-- The result of a build has a time that a clock could show, if the host's clock shows one. -/
theorem real_obtain {d : Draft} (hclock : w'.host.clock.Real) (h : Yields r.obtain w d w') :
    d.result.createdAt.Real := by
  obtain ⟨j, w₁, -, h⟩ := (yields_bind ..).1 h
  obtain ⟨found, w₂, hfound, h⟩ := (yields_bind ..).1 h
  cases found with
  | some hit =>
    obtain ⟨rfl, -⟩ := (yields_pure ..).1 h
    obtain ⟨_, _, -, hfound⟩ := (yields_bind ..).1 hfound
    obtain ⟨found, _, hget, hfound⟩ := (yields_bind ..).1 hfound
    obtain ⟨_, hget, -⟩ := (yields_onHost ..).1 hget
    cases found with
    | none => simp at hfound
    | some hit' =>
      obtain ⟨b, _, -, hfound⟩ := (yields_bind ..).1 hfound
      split at hfound
      · obtain ⟨heq, -⟩ := (yields_pure ..).1 hfound
        cases heq
        exact Store.real_getResult hget
      · obtain ⟨_, _, -, hfound⟩ := (yields_bind ..).1 hfound
        simp at hfound
  | none =>
    obtain ⟨x, w₃, hmake, h⟩ := (yields_bind ..).1 h
    obtain ⟨rfl, rfl⟩ := (yields_pure ..).1 h
    rw [createdAt_makeImage hmake]
    exact hclock

theorem directory_obtain {d : Draft} (h : Yields r.obtain w d w') : d.job.directory = ⟨r.workDirectory⟩ := by
  obtain ⟨j, w₁, hjob, h⟩ := (yields_bind ..).1 h
  obtain ⟨found, w₂, -, h⟩ := (yields_bind ..).1 h
  obtain rfl : d.job = j := by
    cases found with
    | some hit => rw [← ((yields_pure ..).1 h).1]
    | none =>
      obtain ⟨x, w₃, -, h⟩ := (yields_bind ..).1 h
      rw [← ((yields_pure ..).1 h).1]
  exact (yields_job hjob).directory

/-- Whether it fails or not, to put a result into the cache writes one file or does nothing. -/
private theorem ran_putResult {key : String} (hkey : IsDigest key) (x : BuildResult) (h : Host) :
    (ran (s.putResult key x) h).2 = h ∨ ∃ outer, (ran (s.putResult key x) h).2 = { h with
      files := h.files.put (outer ++ [FileName.ofText (key ++ ".json")])
        (.file writtenMode (written x.toDocument)) } := by
  unfold Store.putResult Store.writeDocument Store.onFiles
  rw [ran_failingAs]
  refine (ran_writeBytes _ _ h).imp_right fun ⟨l, hl, heq⟩ => ?_
  obtain ⟨outer, rfl⟩ := FileTree.resolve_last hkey.proper_json (by simp)
    (Path.exists_rawNames_join _ ⟨[], RawPath.names_of_slash_notMem hkey.proper_json.slash_notMem⟩) hl
  exact ⟨outer, heq⟩

/-- What noting a result does to the files: it is put where the path of the work directory's result leads, and
what else changes is one more file at most. -/
theorem yields_note {d : Draft} {u : Unit} (h : Yields (r.note d) w u w') :
    ∃ l, w.host.files.resolve false w.host.directory d.job.directory.resultFile = .ok l ∧
      w'.host.directory = w.host.directory ∧ w.host.files.GainsFiles w'.host.files ∧
      w'.host.files.entry? l = some (.file writtenMode (written d.result.toDocument)) := by
  unfold note at h
  obtain ⟨_, w₁, hwrite, h⟩ := (yields_bind ..).1 h
  obtain ⟨host, hresult, rfl⟩ := (yields_onHost ..).1 hwrite
  obtain ⟨l, hl, -, hhost⟩ := yields_writeBytes ((yields_onFiles ..).1 hresult)
  obtain ⟨outer, rfl⟩ := FileTree.resolve_last proper_resultName (by simp)
    (Path.exists_rawNames_join _ ⟨[], RawPath.names_of_slash_notMem proper_resultName.slash_notMem⟩) hl
  have hdirectory : host.directory = w.host.directory := by rw [hhost]
  have hgains : w.host.files.GainsFiles host.files := by
    rw [hhost]
    exact (FileTree.GainsFiles.refl _).put _ _ _
  have hself : host.files.entry? (outer ++ [resultName]) =
      some (.file writtenMode (written d.result.toDocument)) := by
    rw [hhost]
    exact FileTree.entry?_put_self _ (by simp) _
  refine ⟨_, hl, ?_⟩
  split at h
  · obtain ⟨_, _, hget, h⟩ := (yields_bind ..).1 h
    obtain ⟨rfl, rfl⟩ := (yields_get ..).1 hget
    obtain ⟨y, _, hput, h⟩ := (yields_bind ..).1 h
    obtain ⟨-, rfl⟩ := (yields_pure ..).1 h
    obtain ⟨host', hrun, rfl⟩ := (yields_onHost ..).1 hput
    obtain rfl := congrArg Prod.snd hrun
    have hkey := r.isDigest_key d.job
    dsimp only
    rcases ran_putResult (s := w.store) hkey d.result host with heq | ⟨front, heq⟩
    · rw [ran_outcome, heq]
      exact ⟨hdirectory, hgains, hself⟩
    · rw [ran_outcome, heq]
      refine ⟨hdirectory, hgains.put _ _ _, ?_⟩
      rw [FileTree.entry?_put_of_ne _ fun h => hkey.ne_resultName_json (Store.last_inj h).symm]
      exact hself
  · obtain ⟨-, rfl⟩ := (yields_pure ..).1 h
    exact ⟨hdirectory, hgains, hself⟩

/-- The result that a build comes to is read from its work directory, as long as the way there does not lead through
the place where it is written. -/
theorem yields_readResult {o : Outcome} (h : Yields r.build w o w') (hreal : o.result.createdAt.Real)
    (hdirectory : w'.host.files.isDirectory w'.host.directory r.workDirectory = true) :
    Yields (⟨r.workDirectory⟩ : WorkDirectory).readResult w'.host o.result w'.host := by
  rw [build_eq_note] at h
  obtain ⟨d, w₁, hobtain, h⟩ := (yields_bind ..).1 h
  obtain ⟨_, w₂, hnote, h⟩ := (yields_bind ..).1 h
  obtain ⟨_, w₃, hregister, h⟩ := (yields_bind ..).1 h
  obtain ⟨rfl, rfl⟩ := (yields_pure ..).1 h
  obtain ⟨-, rfl⟩ := yields_register.1 hregister
  obtain ⟨l, hl, hd, hgains, hentry⟩ := yields_note hnote
  rw [directory_obtain hobtain] at hl
  dsimp only at hdirectory hreal ⊢
  rw [hd] at hdirectory
  have hresolve := hgains.resolve_join proper_resultName hdirectory hl (by simp [hentry])
  have hread : w₂.host.files.read w₂.host.directory (⟨r.workDirectory⟩ : WorkDirectory).resultFile =
      .ok (written d.result.toDocument) := by
    rw [hd]
    refine FileTree.read_eq hresolve hentry ?_
    simp [Entry.grants, Entry.hasBit, Entry.mode, writtenMode, Right.bit]
  exact yields_readDocument.2 ⟨rfl, _, hread, BuildResult.readBack?_written_of_real hreal⟩

/-- The engine is handed no word that names a file for an image id, but the one that names the work directory's, and
no link leads away from there. -/
structure CallsInert (r : Recipe) (s : Store) (w : Workshop) : Prop where
  base : ∀ l base, w.session.resolveBases r.instructions = .ok l →
    Instruction.baseReference? l = some base → Engine.Inert base
  found : ∀ j w₁ hit h, Yields r.job w j w₁ → Yields (s.getResult (r.key j)) w₁.host (some hit) h →
    Engine.Inert hit.imageId
  tag : Engine.Inert r.tag
  unlinked : w.host.files.NoLinkNamed imageIdName

/-- A place is not among those that a build clears, nor below one of them. -/
def Spares (r : Recipe) (w : Workshop) (l : Location) : Prop :=
  ∀ R, (⟨r.workDirectory⟩ : WorkDirectory).Clears w.host R → ¬ R <+: l

theorem evolves_obtain (hs : w.Uses s) (hp : s.Plain w.host) (hcalls : r.backend = .daemon → r.CallsInert s w) :
    s.Evolves (.unfinished ((⟨r.workDirectory⟩ : WorkDirectory).Clears w.host) (r.OwnKey w)) w.host
      (ran r.obtain w).2.host := by
  have hsuit (hk : r.backend = .daemon) :
      r.CallsSuit s (.unfinished ((⟨r.workDirectory⟩ : WorkDirectory).Clears w.host) (r.OwnKey w)) w := by
    obtain ⟨hbase, hfound, htag, hunlinked⟩ := hcalls hk
    exact ⟨fun l base hl hb => (hbase l base hl hb).suits,
      fun j w₁ hit h hj hget => (hfound j w₁ hit h hj hget).suits, htag.suits,
      Store.allowsForgetting_unfinished, .inr ⟨hp, hunlinked⟩⟩
  refine (works_obtain Store.allowsPlain_unfinished (Store.allowsImages_unfinished r.tag) ?_ ?_ hsuit hs).host
  · exact WorkDirectory.evolves_prepare Store.allowsPlain_unfinished fun l l' hclears hpre => ⟨l, hclears, hpre⟩
  · rintro key ⟨j, w₁, hj, rfl⟩ S
    exact .inl ⟨_, ⟨j, w₁, hj, rfl⟩, r.isDigest_key j, rfl⟩

/-- Nothing in a build sets the clock. -/
theorem clock_obtain (hs : w.Uses s) (hp : s.Plain w.host) : (ran r.obtain w).2.host.clock = w.host.clock := by
  have hworks := works_obtain Store.allowsPlain_all (Store.allowsImages_all r.tag)
    ((WorkDirectory.keeps_prepare (s := s) Store.allowsClearing_all Store.allowsPlain_all).run w.host)
    (fun _ _ _ => trivial) (fun _ => r.callsSuit_all s w) hs
  exact (hworks.host hp).1.clock

/-- The result of a build has a time that a clock could show, if the host's clock showed one before. -/
theorem real_build (hs : w.Uses s) (hp : s.Plain w.host) (hclock : w.host.clock.Real) {o : Outcome}
    (h : Yields r.build w o w') : o.result.createdAt.Real := by
  rw [build_eq_note] at h
  obtain ⟨d, w₁, hobtain, h⟩ := (yields_bind ..).1 h
  obtain ⟨_, w₂, -, h⟩ := (yields_bind ..).1 h
  obtain ⟨_, w₃, -, h⟩ := (yields_bind ..).1 h
  obtain ⟨rfl, -⟩ := (yields_pure ..).1 h
  have hkeeps := clock_obtain (r := r) hs hp
  rw [show ran r.obtain w = (.ok d, w₁) from hobtain] at hkeeps
  refine real_obtain ?_ hobtain
  rw [hkeeps]
  exact hclock

end Recipe

namespace Sample

/-- A key of the cache. -/
def zeros : String := String.ofList (List.replicate 64 '0')

theorem isDigest_zeros : IsDigest zeros := by
  unfold zeros
  refine ⟨by simp, fun c hc => ?_⟩
  obtain rfl : c = '0' := by simpa using hc
  decide

/-- A workshop with a store at a path, on a host with directories, and then with more that lies in them. -/
def furnished (root : String) (directories : List (List String)) (more : List (List String × Entry)) : Workshop :=
  let entries := directories.map (fun l => (l, Entry.directory directoryMode)) ++ more
  let files := entries.foldl (fun t e => t.put (Location.ofTexts e.1) e.2) FileTree.empty
  { workshop with store := ⟨root⟩, host := { files } }

/-- The store lies where the repository definitions of builds are. -/
def nested : Workshop :=
  furnished "/w/ephemeral/repos"
    [["w"], ["w", "ephemeral"], ["w", "ephemeral", "repos"], ["w", "ephemeral", "repos", "store"],
      ["w", "ephemeral", "repos", "store", "cache"]]
    [(["w", "ephemeral", "repos", "store", "cache", zeros ++ ".json"], .file writtenMode ByteArray.empty)]

/-- The cache of the store is a link to where the repository definitions of builds are. -/
def linked : Workshop :=
  furnished "/s" [["w"], ["w", "ephemeral"], ["w", "ephemeral", "repos"], ["s"], ["s", "store"]]
    [(["w", "ephemeral", "repos", zeros ++ ".json"], .file writtenMode ByteArray.empty),
      (["s", "store", "cache"], .link (RawPath.ofText "/w/ephemeral/repos"))]

/-- A work directory that is itself where its repository definitions are. -/
def looped : Workshop :=
  furnished "/s" [["w"], ["w", "repos"]]
    [(["w", "repos", "image-build.json"], .file writtenMode ByteArray.empty),
      (["w", "repos", "ephemeral"], .link (RawPath.ofText ".."))]

/-- A recipe for the work directory that is itself where its repository definitions are. -/
def inLoop : Recipe := { derived with workDirectory := "/w/repos" }

end Sample

namespace Recipe

variable {r : Recipe} {w : Workshop}

/-- A build on top of a project without an image ends once everything is ready, and before it has a key. -/
theorem ran_build_of_missing {q : String} {more : List String} (h : w.session.missing r.instructions = q :: more)
    (hready : (ran r.getReady w).1 = .ok ()) :
    ran r.build w = (.error (.session (.notBuilt q)), (ran r.getReady w).2) ∧ ∀ key, ¬ r.OwnKey w key := by
  have hrun : ran r.getReady w = (.ok (), (ran r.getReady w).2) := Prod.ext hready rfl
  refine ⟨?_, ?_⟩
  · rw [ran_build_missing h, ran_bind, hrun]
    rfl
  · rintro key ⟨j, w₁, hj, -⟩
    have hsettles := (yields_job hj).instructions
    rw [Session.resolveBases_missing h] at hsettles
    cases hsettles

end Recipe

end ImageRecipe
