import ImageRecipe.Proofs.BuildRuns
import ImageRecipe.Proofs.StoreReads

/-! Where the results in the cache come from: in a history of builds on one store, each of them was made by
an earlier build under the same key. -/

namespace ImageRecipe

open Workshop

namespace Store

variable {s : Store}

/-- The frame in which everything may be written but the results in the cache, and of these the ones that
were made. -/
def Frame.caching (Made : String → BuildResult → Prop) : Store.Frame := fun S l =>
  { makes := True
    empties := True
    drops := True
    writes := fun data => ∀ key, IsDigest key → l = S ++ cacheNames key →
      ∃ x, Made key x ∧ data = written x.toDocument }

variable {Made : String → BuildResult → Prop}

theorem allowsClearing_caching : (Frame.caching Made).AllowsClearing := fun _ _ _ _ => trivial

theorem allowsPlain_caching : (Frame.caching Made).AllowsPlain where
  makes _ _ := trivial
  writes S outer n data hn key hkey heq := by
    rw [last_eq_of_cacheNames heq] at hn
    exact absurd hn hkey.not_isPlain_json

theorem allowsResult_caching : (Frame.caching Made).AllowsResult :=
  fun _ _ _ _ hkey heq => absurd (last_eq_of_cacheNames heq).symm hkey.ne_resultName_json

theorem allowsImages_caching (tag : String) : (Frame.caching Made).AllowsImages tag where
  fans _ _ _ _ _ := trivial
  objects S ns hash _ _ _ _ heq := by
    rw [List.append_assoc, List.append_assoc] at heq
    exact absurd heq (append_ne_cacheNames (mt FileName.ofText_injective (by decide)) _)
  records S hash _ _ _ _ heq := by
    rw [List.append_assoc] at heq
    exact absurd heq (append_ne_cacheNames (mt FileName.ofText_injective (by decide)) _)
  tag S _ _ _ heq := absurd heq (append_ne_cacheNames (mt FileName.ofText_injective (by decide)) _)

theorem keeps_putResult_caching {key : String} {x : BuildResult} (hkey : IsDigest key) (hx : Made key x) :
    Keeps (s.Evolves (Frame.caching Made)) (s.putResult key x) := by
  apply keeps_putResult hkey
  intro S key' hkey' heq
  obtain rfl := cacheNames_injective (List.append_cancel_left heq)
  exact ⟨x, hx, rfl⟩

/-- A result that is found after steps that keep to the frame was there before, or it was made. -/
theorem Evolves.result? {h h' : Host} (he : s.Evolves (Frame.caching Made) h h') (hp : s.Plain h)
    {key : String} (hkey : IsDigest key) {x : BuildResult} (hx : s.result? h' key = some x) :
    s.result? h key = some x ∨ ∃ y, Made key y ∧ x.tag = y.tag ∧ x.imageId = y.imageId := by
  obtain ⟨hsetting, hfiles⟩ := he hp
  unfold Store.result? at hx
  rw [hsetting.directory] at hx
  obtain ⟨data, hdata, hread⟩ := Option.bind_eq_some_iff.1 hx
  rcases hfiles.files.content? hdata with hold | hnew
  · left
    unfold Store.result?
    rw [hold]
    exact hread
  · right
    obtain ⟨y, hy, rfl⟩ := hnew key hkey rfl
    obtain ⟨htag, hid, -⟩ := BuildResult.readBack?_written hread
    exact ⟨y, hy, htag, hid⟩

end Store

/-- A call of a build: what is built, and the workshop as it is before. -/
structure BuildCall where
  recipe : Recipe
  workshop : Workshop

namespace BuildCall

variable (c : BuildCall)

def outcome : Except BuildError Outcome := (ran c.recipe.build c.workshop).1

/-- The workshop as the call leaves it. -/
def after : Workshop := (ran c.recipe.build c.workshop).2

/-- The job that the call settles on, and the workshop at that moment. -/
def Settles (j : Recipe.Job) (w : Workshop) : Prop := Yields c.recipe.job c.workshop j w

/-- The call found no image for its job, and its backend made one. -/
def Makes (j : Recipe.Job) (x : BuildResult) : Prop :=
  ∃ w₁ w₂ w₃, c.Settles j w₁ ∧ Yields (c.recipe.cached? (c.recipe.key j)) w₁ none w₂ ∧
    Yields (c.recipe.makeImage j) w₂ x w₃

/-- The call made a result under a key. -/
def MakesUnder (key : String) (x : BuildResult) : Prop := ∃ j, c.recipe.key j = key ∧ c.Makes j x

variable {c}

theorem yields_of_outcome {o : Outcome} (h : c.outcome = .ok o) :
    Yields c.recipe.build c.workshop o c.after := by
  unfold Yields
  rw [← h]
  rfl

theorem outcome_of_yields {o : Outcome} {w : Workshop} (h : Yields c.recipe.build c.workshop o w) :
    c.outcome = .ok o := congrArg Prod.fst h

/-- A build changes the results in the cache by those alone that it makes. -/
theorem evolves {s : Store} (hk : c.recipe.backend ≠ .daemon) (hs : c.workshop.Uses s) :
    Workshop.Evolves s (Store.Frame.caching c.MakesUnder) c.workshop c.after := by
  have hw := @Store.allowsPlain_caching c.MakesUnder
  have hresult : ∀ (d : WorkDirectory) (x : BuildResult),
      Keeps (Works s (Store.Frame.caching c.MakesUnder)) (onHost .store (d.writeResult x)) :=
    fun d x => Idles.works (keeps_onHost (WorkDirectory.keeps_writeResult Store.allowsResult_caching x) _)
  suffices h : Works s (Store.Frame.caching c.MakesUnder) c.workshop c.after from h hs
  unfold after Recipe.build
  apply Keeps.bind_at ((Idles.works (Recipe.keeps_job hk Store.allowsClearing_caching hw)).run c.workshop)
  intro j w₁ hjob
  have hkey := c.recipe.isDigest_key j
  apply Keeps.bind_at ((Idles.works (Recipe.keeps_cached? hk hkey fun _ => trivial)).run w₁)
  intro found w₂ hfound
  cases found with
  | some hit =>
    exact ((hresult _ _).bind fun _ => (keeps_register ..).bind fun _ => Keeps.pure _).run w₂
  | none =>
    refine Keeps.bind_at ?_ fun x w₃ _ => ((keeps_register ..).bind fun _ => Keeps.pure _).run w₃
    unfold Recipe.materialize
    apply Keeps.bind_at ((Recipe.keeps_makeImage hk hw (Store.allowsImages_caching _) j).run w₂)
    intro x w₃ hmade
    have hx : c.MakesUnder (c.recipe.key j) x := ⟨j, rfl, w₁, w₂, w₃, hjob, hfound, hmade⟩
    refine ((hresult _ x).bind fun _ => ?_).run w₃
    constructor
    intro w hs
    rw [ran_bind, ran_get]
    dsimp only
    rw [hs.store_eq]
    have hput := Idles.works (keeps_onHost (Store.keeps_putResult_caching (s := s) hkey hx).outcome .store)
    exact (hput.bind fun _ => Keeps.pure _).run w hs

end BuildCall

/-- What may happen between two calls: the backends stay, the session starts anew, and the host changes as it
likes as long as the store is plain where it was and the cache gains nothing. -/
structure Workshop.Meanwhile (s : Store) (w w' : Workshop) : Prop where
  uses : w'.Uses s
  settings : w'.settings = w.settings
  backends : w'.backends = w.backends
  plain : s.Plain w'.host
  directory : w'.host.directory = w.host.directory
  cache : ∀ key, s.result? w'.host key = s.result? w.host key ∨ s.result? w'.host key = none

/-- Calls of builds on one store that had no results at first, the last call first, and the workshop that
they lead to. -/
inductive History (s : Store) : List BuildCall → Workshop → Prop
  | start {w : Workshop} (huses : w.Uses s) (hplain : s.Plain w.host)
    (hempty : ∀ key, s.result? w.host key = none) : History s [] w
  | call {calls : List BuildCall} {w : Workshop} {c : BuildCall} (h : History s calls w)
    (hc : w.Meanwhile s c.workshop) (hk : c.recipe.backend ≠ .daemon) : History s (c :: calls) c.after

namespace History

variable {s : Store} {calls : List BuildCall} {w : Workshop}

theorem ne_daemon (h : History s calls w) {c : BuildCall} (hc : c ∈ calls) : c.recipe.backend ≠ .daemon := by
  induction h with
  | start => simp at hc
  | call _ _ hk ih =>
    rcases List.mem_cons.1 hc with rfl | hc
    · exact hk
    · exact ih hc

/-- Every call began in a workshop with the store, which was plain then. -/
theorem usable (h : History s calls w) {c : BuildCall} (hc : c ∈ calls) :
    c.workshop.Uses s ∧ s.Plain c.workshop.host := by
  induction h with
  | start => simp at hc
  | call _ hmeanwhile _ ih =>
    rcases List.mem_cons.1 hc with rfl | hc
    · exact ⟨hmeanwhile.uses, hmeanwhile.plain⟩
    · exact ih hc

/-- Every result in the cache was made by one of the calls under its key. -/
theorem made (h : History s calls w) {key : String} (hkey : IsDigest key) {x : BuildResult}
    (hx : s.result? w.host key = some x) :
    ∃ c ∈ calls, ∃ y, c.MakesUnder key y ∧ x.tag = y.tag ∧ x.imageId = y.imageId := by
  induction h generalizing x with
  | start _ _ hempty => simp [hempty] at hx
  | @call calls w c _ hc hk ih =>
    rcases ((BuildCall.evolves hk hc.uses).host).result? hc.plain hkey hx with hold | ⟨y, hy, hsame⟩
    · have hbefore : s.result? w.host key = some x := by
        rcases hc.cache key with heq | hnone
        · rw [← heq, hold]
        · rw [hnone] at hold
          simp at hold
      obtain ⟨m, hm, hmade⟩ := ih hbefore
      exact ⟨m, List.mem_cons_of_mem _ hm, hmade⟩
    · exact ⟨c, List.mem_cons_self, y, hy, hsame⟩

/-- What a call finds in the cache was made by an earlier call under the same key. -/
theorem hit {c : BuildCall} (h : History s (c :: calls) w) {j : Recipe.Job} {w₁ w₂ : Workshop}
    (hj : c.Settles j w₁) {x : BuildResult}
    (hhit : Yields (c.recipe.cached? (c.recipe.key j)) w₁ (some x) w₂) :
    ∃ m ∈ calls, ∃ y, m.MakesUnder (c.recipe.key j) y ∧ x.imageId = y.imageId := by
  cases h with
  | call h hc hk =>
    have hkey := c.recipe.isDigest_key j
    have hframe := @Store.allowsClearing_caching fun _ _ => False
    have hjob := ((Recipe.keeps_job hk hframe Store.allowsPlain_caching).yields hj hc.uses).1
    obtain ⟨host, hget, -⟩ := Recipe.yields_cached?_some hk hhit
    rw [hjob.uses.store_eq] at hget
    have hfound := ((hjob.plain hc.plain).getResult hkey hget).2
    rcases hjob.host.result? hc.plain hkey hfound with hold | ⟨_, hy, -⟩
    · rcases hc.cache (c.recipe.key j) with heq | hnone
      · obtain ⟨m, hm, y, hy, -, hid⟩ := h.made hkey (heq.symm.trans hold)
        exact ⟨m, hm, y, hy, hid⟩
      · rw [hnone] at hold
        simp at hold
    · exact hy.elim

/-- Every image that a call comes to was made by a call under its key: by itself if it is not cached, by an
earlier one if it is. -/
theorem outcome_made {c : BuildCall} (h : History s (c :: calls) w) {o : Outcome} (ho : c.outcome = .ok o) :
    ∃ j w₁, c.Settles j w₁ ∧ o.planHash = j.plan.contentHash ∧
      ∃ m y, m.MakesUnder (c.recipe.key j) y ∧ o.result.imageId = y.imageId ∧
        (o.cached = true ∧ m ∈ calls ∨ o.cached = false ∧ m = c) := by
  obtain ⟨j, w₁, hj, hplan, ⟨hcached, w₂, w₃, hhit, -⟩ | ⟨hcached, w₂, w₃, hmiss, hmade, -⟩⟩ :=
    Recipe.yields_build (BuildCall.yields_of_outcome ho)
  · obtain ⟨m, hm, y, hy, hid⟩ := h.hit hj hhit
    exact ⟨j, w₁, hj, hplan, m, y, hy, hid, .inl ⟨hcached, hm⟩⟩
  · obtain ⟨w₄, _, hmake, -⟩ := Recipe.yields_materialize hmade
    exact ⟨j, w₁, hj, hplan, c, o.result, ⟨j, rfl, w₁, w₂, w₄, hj, hmiss, hmake⟩, rfl, .inr ⟨hcached, rfl⟩⟩

end History

namespace Sample

/-- A recipe without anything but a base, for an architecture and a backend. -/
def recipe (k : BackendKind) (a : Architecture) : Recipe :=
  { project := "p", tag := "t", distribution := .ubuntu, architecture := a, isolate := false, backend := k
    instructions := [.base "i" "v" none], workDirectory := "/w", lockfile := "/l" }

def store : Store := ⟨"/s"⟩

/-- A workshop on a host with nothing but an empty directory to work in. -/
def workshop : Workshop :=
  { settings := {}, store
    host := { files := FileTree.empty.put [FileName.ofText "w"] (.directory directoryMode) } }

theorem uses_workshop : workshop.Uses store := ⟨rfl, by simp [workshop]⟩

theorem entry?_workshop (l : Location) : workshop.host.files.entry? l =
    if l = [] ∨ l = [FileName.ofText "w"] then some (.directory directoryMode) else none := by
  unfold workshop
  by_cases h : l = [FileName.ofText "w"]
  · subst h
    rw [FileTree.entry?_put_self _ (by simp)]
    simp
  · rw [FileTree.entry?_put_of_ne _ h]
    cases l with
    | nil => simp
    | cons n l =>
      rw [if_neg (by simpa using h)]
      exact SortedMap.get?_empty (n :: l)

theorem plain_workshop : store.Plain workshop.host where
  staysBelow := by
    unfold Path.StaysBelow
    decide +kernel
  link_free l _ target h := by
    rw [entry?_workshop] at h
    split at h <;> simp at h

theorem rooted_workshop : workshop.host.files.Rooted := by
  intro l n h
  rw [entry?_workshop] at h ⊢
  have hl : l ++ [n] = [FileName.ofText "w"] := by
    by_contra hne
    simp [hne] at h
  have : l = [] := by
    have := congrArg List.length hl
    simpa using this
  exact ⟨directoryMode, by simp [this]⟩

theorem result?_workshop (key : String) : store.result? workshop.host key = none := by
  unfold Store.result? FileTree.content?
  rw [entry?_workshop]
  have hne : store.place workshop.host.directory ++ Store.cacheNames key ≠ [] ∧
      store.place workshop.host.directory ++ Store.cacheNames key ≠ [FileName.ofText "w"] := by
    constructor
    · simp [Store.cacheNames]
    · intro h
      have := congrArg List.length h
      simp [Store.cacheNames] at this
  simp [hne.1, hne.2]

/-- The first build in the workshop. -/
def call (k : BackendKind) : BuildCall := ⟨recipe k .x86, workshop⟩

variable {k : BackendKind}

theorem history_call (hk : k ≠ .daemon) : History store [call k] (call k).after :=
  .call (.start uses_workshop plain_workshop result?_workshop)
    ⟨uses_workshop, rfl, rfl, plain_workshop, rfl, fun _ => .inl rfl⟩ hk

end Sample

end ImageRecipe
