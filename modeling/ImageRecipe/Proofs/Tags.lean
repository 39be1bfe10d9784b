import ImageRecipe.Proofs.MockImages

/-! Where tags lead after builds. -/

namespace ImageRecipe

open Workshop

namespace Store

variable {s : Store} {h h' : Host} {tag : String}

/-- A frame in which the file of a tag is neither written nor removed on its own. -/
structure Frame.Spares (f : Frame) (tag : String) : Prop where
  drops : ∀ S, ¬ (f S (S ++ tagNames tag)).drops
  writes : ∀ S data, ¬ (f S (S ++ tagNames tag)).writes data

/-- As long as nothing near the store is emptied, a tag that is spared leads where it led. -/
theorem leadsTo_of_near {f : Frame} (hf : f.Spares tag) (hp : s.Plain h) (hp' : s.Plain h')
    (hd : h'.directory = h.directory) (hr : h.files.Rooted)
    (hn : ∀ l, Near (s.place h.directory) l →
      Entry.Changes (f (s.place h.directory) l).kept (h.files.entry? l) (h'.files.entry? l)) :
    s.leadsTo h tag = s.leadsTo h' tag := by
  have hnear : ∀ p, p <+: s.place h.directory ++ tagNames tag → Near (s.place h.directory) p :=
    fun p => near_of_isPrefix (repositoriesName_notMem_tagNames tag)
  have htag : ∀ mode data,
      h.files.entry? (s.place h.directory ++ tagNames tag) = some (.file mode data) ∨
        h'.files.entry? (s.place h.directory ++ tagNames tag) = some (.file mode data) →
      h'.files.entry? (s.place h.directory ++ tagNames tag) =
        h.files.entry? (s.place h.directory ++ tagNames tag) := by
    intro mode data
    apply (hn _ (hnear _ List.prefix_rfl)).eq_of_entry (x := .file mode data) rfl _ (hf.writes _)
    rintro e (hl | ⟨hl, -⟩)
    · exact hl
    · exact hf.drops _ hl
  by_cases hfile : ∃ data, h.files.content? (s.place h.directory ++ tagNames tag) = some data
  · obtain ⟨data, hdata⟩ := hfile
    obtain ⟨mode, hentry⟩ := FileTree.content?_eq_some.1 hdata
    apply leadsTo_congr hp hp' hd
    rintro p ⟨rest, hrest⟩
    by_cases hnil : rest = []
    · rw [← hrest, hnil, List.append_nil] at htag hentry
      exact (htag mode data (.inl hentry)).symm
    · obtain ⟨m, hdir⟩ := hr.of_prefix hnil (by rw [hrest, hentry]; simp)
      have hp := hn p (hnear p ⟨rest, hrest⟩)
      rw [hdir] at hp ⊢
      exact (hp.directory (by simp [Entry.Leave.kept])).symm
  · have hnone : ∀ id, s.leadsTo h tag ≠ some id := fun id hl => hfile (hp.content?_of_leadsTo hl)
    have hnone' : ∀ id, s.leadsTo h' tag ≠ some id := by
      intro id hl
      obtain ⟨data, hdata⟩ := hp'.content?_of_leadsTo hl
      rw [hd] at hdata
      obtain ⟨mode, hentry⟩ := FileTree.content?_eq_some.1 hdata
      rw [htag mode data (.inr hentry)] at hentry
      exact hfile ⟨data, FileTree.content?_eq_some.2 ⟨mode, hentry⟩⟩
    rw [Option.eq_none_iff_forall_ne_some.2 hnone, Option.eq_none_iff_forall_ne_some.2 hnone']

/-- The frame in which repository definitions are cleared and files with the names that all builds use are
written. -/
def Frame.plainly : Frame := fun _ l =>
  { makes := True
    empties := ∃ outer, outer ++ [repositoriesName] <+: l
    drops := False
    writes := fun _ => ∃ outer n, l = outer ++ [n] ∧ FileName.IsPlain n }

/-- The frame in which everything is written but the file of a tag, and nothing is removed. -/
def Frame.noting (tag : String) : Frame := fun S l =>
  { makes := True
    empties := False
    drops := False
    writes := fun _ => l ≠ S ++ tagNames tag }

private theorem last_eq {S outer : Location} {a b n : FileName} (h : S ++ [a, b] = outer ++ [n]) : n = b := by
  have := congrArg List.getLast? h
  simpa using this.symm

theorem spares_plainly : Frame.plainly.Spares tag where
  drops _ := id
  writes S _ := by
    rintro ⟨outer, n, heq, hn⟩
    rw [last_eq heq] at hn
    exact (isDigest_hexOfText tag).not_isPlain hn

theorem spares_noting : (Frame.noting tag).Spares tag where
  drops _ := id
  writes _ _ hw := hw rfl

theorem allowsClearing_plainly : Frame.plainly.AllowsClearing := fun _ outer _ h => ⟨outer, h⟩

theorem allowsPlain_plainly : Frame.plainly.AllowsPlain where
  makes _ _ := trivial
  writes _ outer n _ hn := ⟨outer, n, rfl, hn⟩

theorem allowsResult_noting : (Frame.noting tag).AllowsResult :=
  fun _ _ _ heq => (isDigest_hexOfText tag).ne_resultName (last_eq heq.symm).symm

theorem keeps_putResult_noting {key : String} (hkey : IsDigest key) (x : BuildResult) :
    Keeps (s.Evolves (Frame.noting tag)) (s.putResult key x) := by
  apply keeps_putResult hkey
  intro S heq
  have hnames := List.append_cancel_left heq
  simp only [cacheNames, tagNames, List.map_cons, List.cons.injEq] at hnames
  exact absurd hnames.1 (mt FileName.ofText_injective (by decide))

/-- What is noted beside a tag does not move it. -/
theorem Evolves.leadsTo_eq (he : s.Evolves (Frame.noting tag) h h') (hp : s.Plain h) (hr : h.files.Rooted) :
    s.leadsTo h tag = s.leadsTo h' tag :=
  leadsTo_of_near spares_noting hp (hp.evolves he) (he hp).1.directory hr ((he hp).2.near_of_not_empties id)

/-- A store in which a result is found after its user's preparations was not cleared by them, and its tags
lead where they led. -/
theorem Evolves.leadsTo_eq_of_hit (he : s.Evolves Frame.plainly h h') (hp : s.Plain h) (hr : h.files.Rooted)
    {key : String} (hkey : IsDigest key) {x : BuildResult} (hx : s.result? h' key = some x) :
    s.leadsTo h tag = s.leadsTo h' tag := by
  obtain ⟨⟨hd, -⟩, hc⟩ := he hp
  apply leadsTo_of_near spares_plainly hp (hp.evolves he) hd hr
  apply hc.near.resolve_right
  rintro ⟨-, hlost⟩
  obtain ⟨data, hdata, -⟩ := Option.bind_eq_some_iff.1 hx
  obtain ⟨mode, hentry⟩ := FileTree.content?_eq_some.1 hdata
  have := hlost _ (repositoriesName_notMem_cacheNames hkey)
  rw [hd] at hentry
  rw [hentry] at this
  cases this with
  | written _ _ hw =>
    obtain ⟨outer, n, heq, hn⟩ := hw
    rw [last_eq heq] at hn
    exact hkey.not_isPlain_json hn

theorem Plain.leadsTo_putImage (hp : s.Plain h) {r : ImageRecord} {id : String}
    (hy : Yields (s.putImage r tag) h id h') : s.leadsTo h' tag = some id := by
  unfold putImage at hy
  obtain ⟨b, _, hlook, hy⟩ := (yields_bind ..).1 hy
  obtain ⟨-, rfl⟩ := (yields_look ..).1 hlook
  have htag : ∀ {h₁}, s.Plain h₁ → Yields (do
      writeDocument (s.tagPath tag) (TagEntry.toDocument ⟨tag, r.id⟩)
      pure r.id) h₁ id h' → s.leadsTo h' tag = some id := by
    intro h₁ hp₁ hy
    obtain ⟨_, h₂, hwrite, hy⟩ := (yields_bind ..).1 hy
    obtain ⟨rfl, rfl⟩ := (yields_pure ..).1 hy
    exact leadsTo_of_write hp₁ hwrite
  split at hy
  · obtain ⟨_, h₁, hrecord, hy⟩ := (yields_bind ..).1 hy
    have hkeeps : Keeps (s.Evolves Frame.all) (writeDocument (s.recordPath r.id) r.toDocument) :=
      Keeps.onFiles (keeps_writeBytes fun _ _ _ _ => trivial)
    exact htag (hp.evolves (hkeeps.yields hrecord)) hy
  · exact htag hp hy

end Store

/-- An image that the direct backend makes is the one that its tag leads to. -/
theorem Direct.leadsTo_putPlan {s : Store} {p : DirectPlan} {d : WorkDirectory} {tag id : String}
    {h h' : Host} (hp : s.Plain h) (hy : Yields (putPlan s p d tag) h id h') : s.leadsTo h' tag = some id := by
  unfold putPlan at hy
  obtain ⟨_, h₁, hprepare, hy⟩ := (yields_bind ..).1 hy
  obtain ⟨layers, h₂, hlayers, hy⟩ := (yields_bind ..).1 hy
  have hp₁ := hp.evolves ((Store.keeps_prepare Store.allowsPlain_all.store).yields hprepare)
  have hkeeps : ∀ l ∈ p.layers, Keeps (s.Evolves Store.Frame.all) (putLayer s d l) :=
    fun l _ => keeps_putLayer (Store.allowsImages_all tag).toAllowsObjects d l
  have hp₂ := hp₁.evolves ((Keeps.mapM _ hkeeps).yields hlayers)
  exact hp₂.leadsTo_putImage hy

/-- The id that a tag leads to in the backend of a kind. -/
def Workshop.leadsTo (w : Workshop) (k : BackendKind) (tag : String) : Option String :=
  match k with
  | .daemon => none
  | .direct => w.store.leadsTo w.host tag
  | .mock => w.mockImage? tag

namespace Recipe

variable {s : Store} {r : Recipe} {j : Job} {w w' : Workshop} {x : BuildResult}

/-- After a direct image is made its tag leads to it, and the files are as before up to steps of the store. -/
theorem leadsTo_makeImage (hk : r.backend = .direct) (hs : w.Uses s) (hp : s.Plain w.host)
    (h : Yields (r.makeImage j) w x w') : s.leadsTo w'.host r.tag = some x.imageId := by
  obtain ⟨host, he, hmake⟩ := yields_makeImage_direct Store.allowsPlain_all.store hk hs h
  unfold Direct.materialize at hmake
  split at hmake
  · exact (yields_throw _ _ _ _ hmake).elim
  · obtain ⟨id, _, hput, hmake⟩ := (yields_bind ..).1 hmake
    obtain ⟨now, _, hnow, hmake⟩ := (yields_bind ..).1 hmake
    obtain ⟨rfl, rfl⟩ := (yields_pure ..).1 hmake
    obtain ⟨_, _, hget, hclock⟩ := (yields_bind ..).1 hnow
    obtain ⟨rfl, rfl⟩ := (yields_get ..).1 hget
    obtain ⟨-, hsame⟩ := (yields_pure ..).1 hclock
    exact hsame ▸ Direct.leadsTo_putPlan (hp.evolves he) ((yields_failingAs ..).1 hput)

/-- A direct build leaves its tag at the image that it comes to just when the image was made, or the tag led
to it before. -/
theorem leadsTo_build_direct {o : Outcome} (hk : r.backend = .direct) (hs : w.Uses s) (hp : s.Plain w.host)
    (hr : w.host.files.Rooted) (h : Yields r.build w o w') :
    s.leadsTo w'.host r.tag = some o.result.imageId ↔
      o.cached = false ∨ s.leadsTo w.host r.tag = some o.result.imageId := by
  have hne : r.backend ≠ .daemon := by simp [hk]
  have hresult : ∀ (d : WorkDirectory) (x : BuildResult),
      Keeps (Idles s (Store.Frame.noting r.tag)) (onHost .store (d.writeResult x)) :=
    fun d x => keeps_onHost (WorkDirectory.keeps_writeResult Store.allowsResult_noting x) _
  obtain ⟨j, w₁, hjob, -, hor⟩ := yields_build h
  have hkey := r.isDigest_key j
  have he := ((keeps_job hne Store.allowsClearing_plainly Store.allowsPlain_plainly).yields hjob hs).1
  have hp₁ := he.plain hp
  have hr₁ := (he.host hp).2.rooted hr
  have hlookup : ∀ {found w₂}, Yields (r.cached? (r.key j)) w₁ found w₂ →
      Evolves s Store.Frame.all w₁ w₂ :=
    fun hfound => ((keeps_cached? hne hkey fun _ => trivial).yields hfound he.uses).1
  rcases hor with ⟨hcached, w₂, w₃, hhit, hwrite, hregister⟩ | ⟨hcached, w₂, w₃, hmiss, hmade, hregister⟩
  · obtain ⟨host, hget, hhost⟩ := yields_cached?_some hne hhit
    rw [he.uses.store_eq] at hget
    obtain ⟨rfl, hfound⟩ := hp₁.getResult hkey hget
    have hbefore : s.leadsTo w.host r.tag = s.leadsTo w₁.host r.tag :=
      he.host.leadsTo_eq_of_hit hp hr hkey hfound
    have hnoted := ((hresult ..).yields hwrite (hlookup hhit).uses).1.host
    rw [hhost] at hnoted
    obtain ⟨-, rfl⟩ := yields_register.1 hregister
    rw [hbefore, hnoted.leadsTo_eq hp₁ hr₁, hcached]
    simp
  · have hput : Keeps (s.Evolves (Store.Frame.noting r.tag)) (s.putResult (r.key j) o.result) :=
      Store.keeps_putResult_noting hkey _
    obtain ⟨w₄, hmake, hnoted⟩ := idles_materialize Store.allowsResult_noting hput hmade
    have hmiss := hlookup hmiss
    have hmade := (keeps_makeImage hne Store.allowsPlain_all (Store.allowsImages_all _) j).yields hmake hmiss.uses
    have hp₂ := hmiss.plain hp₁
    have hr₄ := (hmade.host hp₂).2.rooted ((hmiss.host hp₁).2.rooted hr₁)
    obtain ⟨-, rfl⟩ := yields_register.1 hregister
    rw [← (hnoted hmade.uses).1.host.leadsTo_eq (hmade.plain hp₂) hr₄,
      leadsTo_makeImage hk hmiss.uses hp₂ hmake, hcached]
    simp

end Recipe

namespace Workshop

variable {s : Store}

theorem keeps_clean {f : Store.Frame} {k : BackendKind} (hk : k ≠ .daemon) (tag : String)
    (hf : ∀ S, (f S (S ++ Store.tagNames tag)).drops) : Keeps (Works s f) (clean k tag) := by
  apply keeps_changing_works
  · intro b hb hs
    cases b with
    | daemon => exact absurd hb.symm hk
    | direct s' =>
      obtain rfl : s' = s := hs s' rfl
      have huntag : Keeps (s'.Evolves f) (Direct.remove s' tag) := ((Store.keeps_untag hf).failingAs _).bind fun _ => Keeps.pure _
      exact huntag.bind fun _ => Keeps.pure _
    | mock m => exact Keeps.pure _
  · intro b h a b' h' hy
    cases b with
    | daemon | direct =>
      obtain ⟨_, _, -, hy⟩ := (yields_bind ..).1 hy
      obtain ⟨heq, -⟩ := (yields_pure ..).1 hy
      cases heq
      rfl
    | mock =>
      obtain ⟨heq, -⟩ := (yields_pure ..).1 hy
      cases heq
      rfl

end Workshop

/-- The workshops that a new one with a store comes to by builds and by removals of tags, in any order, while
anything may happen to its host in between and sessions begin anew. -/
inductive Course (s : Store) : Workshop → Prop
  | start {w : Workshop} (hstore : w.store = s) (hnew : w.backends = []) : Course s w
  | build {w : Workshop} {r : Recipe} (h : Course s w) (hk : r.backend ≠ .daemon) :
    Course s (ran r.build w).2
  | clean {w : Workshop} {k : BackendKind} (h : Course s w) (hk : k ≠ .daemon) (tag : String) :
    Course s (ran (Workshop.clean k tag) w).2
  | change {w : Workshop} (h : Course s w) (host : Host) (session : Session) :
    Course s { w with host, session }

namespace Course

variable {s : Store} {w w' : Workshop} {r : Recipe}

theorem uses (h : Course s w) : w.Uses s := by
  induction h with
  | start hstore hnew => exact ⟨hstore, by simp [hnew]⟩
  | @build w r _ hk ih => exact (BuildCall.evolves (c := ⟨r, w⟩) hk ih).uses
  | clean _ hk tag ih => exact ((keeps_clean (f := Store.Frame.all) hk tag fun _ => trivial).run _ ih).uses
  | change _ _ _ ih => exact ⟨ih.store_eq, ih.backends⟩

/-- After a build the recipe's tag leads to the image that the build came to just when the image was made, or
when the tag led there before: a hit in the cache moves no tag. -/
theorem leadsTo_build_iff (h : Course s w) (hk : r.backend ≠ .daemon)
    (hfiles : r.backend = .direct → s.Plain w.host ∧ w.host.files.Rooted) {o : Outcome}
    (hb : Yields r.build w o w') :
    w'.leadsTo r.backend r.tag = some o.result.imageId ↔
      o.cached = false ∨ w.leadsTo r.backend r.tag = some o.result.imageId := by
  cases hkind : r.backend with
  | daemon => exact absurd hkind hk
  | direct =>
    obtain ⟨hp, hr⟩ := hfiles hkind
    have hafter : w'.Uses s := by
      have := (BuildCall.evolves (c := ⟨r, w⟩) hk h.uses).uses
      rwa [BuildCall.after, show ran r.build w = (.ok o, w') from hb] at this
    unfold Workshop.leadsTo
    rw [hafter.store_eq, h.uses.store_eq]
    exact Recipe.leadsTo_build_direct hkind h.uses hp hr hb
  | mock =>
    unfold Workshop.leadsTo
    rw [(Recipe.mockImage?_build hkind h.uses hb).2]
    cases o.cached <;> simp

/-- The first build of all leaves its tag at the image that it makes. -/
theorem leadsTo_build_iff_sample :
    ∃ o, (Sample.call .direct).outcome = .ok o ∧
      ((Sample.call .direct).after.leadsTo (Sample.recipe .direct .x86).backend (Sample.recipe .direct .x86).tag =
          some o.result.imageId ↔
        o.cached = false ∨ Sample.workshop.leadsTo (Sample.recipe .direct .x86).backend
          (Sample.recipe .direct .x86).tag = some o.result.imageId) := by
  obtain ⟨o, ho⟩ := exists_of_isOk Sample.isOk_direct
  have hstart : Course Sample.store Sample.workshop := .start rfl rfl
  have hyields : Yields (Sample.recipe .direct .x86).build Sample.workshop o (Sample.call .direct).after :=
    BuildCall.yields_of_outcome (c := Sample.call .direct) ho
  have hdaemon : (Sample.recipe .direct .x86).backend ≠ .daemon := by simp [Sample.recipe]
  exact ⟨o, ho, leadsTo_build_iff hstart hdaemon (fun _ => ⟨Sample.plain_workshop, Sample.rooted_workshop⟩) hyields⟩

end Course

end ImageRecipe
