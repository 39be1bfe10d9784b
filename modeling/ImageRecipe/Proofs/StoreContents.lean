import ImageRecipe.Proofs.Aftermaths
import ImageRecipe.Proofs.LayersApart

/-! What a store still holds while files are written around it and in it. Paths of the store lead where they led, what
they led to is still there, and only files with the name of its version or of a result in its cache can disturb it. -/

namespace ImageRecipe

open FileTree (Carries)

namespace Store

variable {s : Store} {h h' : Host} {S l : Location} {path key : String} {ns : List FileName}

theorem contents_of_ne {n : FileName} (hn : n ≠ FileName.ofText "version") (ns : List FileName) :
    Contents S (S ++ n :: ns) := by
  refine ⟨List.prefix_append .., fun heq => hn ?_⟩
  exact (List.cons.inj (List.append_cancel_left heq)).1

theorem allowsImages_contents (tag : String) : (Frame.within Contents).AllowsImages tag where
  fans _ _ _ hd hl := near_of_fan hd hl
  objects S ns hash _ _ := by
    rw [List.append_assoc, List.append_assoc]
    exact contents_of_ne (mt FileName.ofText_injective (by decide)) _
  records S hash _ _ := by
    rw [List.append_assoc]
    exact contents_of_ne (mt FileName.ofText_injective (by decide)) _
  tag _ _ := contents_of_ne (mt FileName.ofText_injective (by decide)) _

theorem contents_cacheNames (S : Location) (key : String) : Contents S (S ++ cacheNames key) :=
  contents_of_ne (mt FileName.ofText_injective (by decide)) _

theorem keeps_openLock_contents : Keeps (s.Evolves (Frame.within Contents)) s.openLock :=
  keeps_openLock (fun _ _ hl => .inl hl) fun _ => contents_of_ne (mt FileName.ofText_injective (by decide)) _

theorem drops_contents (hkey : IsDigest key) (S : Location) : (Frame.within Contents S (S ++ cacheNames key)).drops :=
  ⟨contents_cacheNames S key, key, hkey, rfl⟩

/-- No link comes up where directories are made and files are written. -/
theorem Plain.anywhere (hp : s.Plain h) (hd : h'.directory = h.directory)
    (he : h.files.Evolves (Frame.anywhere (s.place h.directory)) h'.files) : s.Plain h' where
  staysBelow := hp.staysBelow
  link_free l hl target htarget := by
    rw [hd] at hl
    exact hp.link_free l hl target (link_of_within he htarget)

/-- A path of the store leads where it led. -/
theorem Leads.resolve_anywhere (hl : s.Leads path ns) (hp : s.Plain h) (hd : h'.directory = h.directory)
    (he : h.files.Evolves (Frame.anywhere (s.place h.directory)) h'.files) {last last' : Bool}
    (hr : h.files.resolve last h.directory path = .ok l) : h'.files.resolve last' h'.directory path = .ok l := by
  have hunlinked := hl.unlinked (hp.anywhere hd he)
  rw [hd] at hunlinked ⊢
  exact (hl.unlinked hp).resolve_kept hunlinked (fun _ _ _ => directory_of_within he) hr

/-- What is there is not lost, but for the results in the cache. -/
theorem ne_none_of_anywhere {t t' : FileTree} (he : t.Evolves (Frame.anywhere S) t') (h : t.entry? l ≠ none)
    (hl : ∀ key, IsDigest key → l ≠ S ++ cacheNames key) : t'.entry? l ≠ none := by
  intro hnone
  have hchange := he l
  rw [hnone] at hchange
  generalize t.entry? l = e at hchange h
  cases hchange with
  | same => exact h rfl
  | lost hloses =>
    rcases hloses with hempty | ⟨⟨-, key, hkey, heq⟩, -⟩
    · exact hempty
    · exact hl key hkey heq

/-- What a path of the store leads to is still there, unless it is a result in the cache. -/
theorem Leads.pathExists_anywhere (hl : s.Leads path ns) (hns : ∀ S key, S ++ ns ≠ S ++ cacheNames key) (hp : s.Plain h)
    (hd : h'.directory = h.directory) (he : h.files.Evolves (Frame.anywhere (s.place h.directory)) h'.files)
    (hexists : h.files.pathExists h.directory path = true) : h'.files.pathExists h'.directory path = true := by
  obtain ⟨l, e, hr, hentry⟩ := FileTree.pathExists_iff.1 hexists
  obtain rfl := hl.resolve_eq hp hr
  have hkept := ne_none_of_anywhere he (by simp [hentry]) fun key _ => hns _ key
  obtain ⟨e', he'⟩ := Option.ne_none_iff_exists'.1 hkept
  exact FileTree.pathExists_iff.2 ⟨_, e', hl.resolve_anywhere hp hd he hr, he'⟩

/-- A file of the store that stays is read as before. -/
theorem Leads.read_anywhere (hl : s.Leads path ns) (hp : s.Plain h) (hd : h'.directory = h.directory)
    (he : h.files.Evolves (Frame.anywhere (s.place h.directory)) h'.files) {data : ByteArray}
    (hentry : h'.files.entry? (s.place h.directory ++ ns) = h.files.entry? (s.place h.directory ++ ns))
    (hread : h.files.read h.directory path = .ok data) : h'.files.read h'.directory path = .ok data := by
  obtain ⟨l, mode, hr, -⟩ := FileTree.read_ok hread
  have hr' : h'.files.resolve true h.directory path = .ok l := hd ▸ hl.resolve_anywhere hp hd he hr
  rw [hd, ← hread]
  refine FileTree.read_congr (hr'.trans hr.symm) fun l' hl' => ?_
  obtain rfl : l' = l := Except.ok.inj (hl'.symm.trans hr')
  rw [hl.resolve_eq hp hr]
  exact hentry

/-- To write a file of the store is to put it where its path leads. -/
theorem Leads.evolves_write (hl : s.Leads path ns) (hns : Contents (s.place h.directory) (s.place h.directory ++ ns))
    (hp : s.Plain h) {data : ByteArray} {u : Unit} (hy : Yields (Host.writeBytes path data) h u h') :
    h'.directory = h.directory ∧ h.files.Evolves (Frame.within Contents (s.place h.directory)) h'.files ∧
      h'.files.read h'.directory path = .ok data := by
  obtain ⟨l, hr, hno, rfl⟩ := yields_writeBytes hy
  obtain rfl := hl.resolve_eq hp hr
  have hroot : s.place h.directory ++ ns ≠ [] := by
    intro heq
    rw [heq] at hno
    exact hno _ h.files.entry?_root
  refine ⟨rfl, put_within hns hno _ _, ?_⟩
  refine FileTree.read_eq (FileTree.resolve_put_file hno ?_ hr ..) (h.files.entry?_put_self hroot _)
    (FileTree.grants_written _)
  exact hp.link_free _ (.inr (List.prefix_append ..))

/-- The record of an id without slashes has a place in the store. -/
theorem leads_recordPath_of_slash {id : String} (hid : '/' ∉ id.toList) :
    ∃ n, n ≠ repositoriesName ∧ s.Leads (s.recordPath id) (imageNames ++ [n]) := by
  unfold recordPath
  generalize hhex : ((Text.dropStart? ImageRecord.idAlgorithm.toList id.toList).map String.ofList).getD id = hex
  have hslash : '/' ∉ hex.toList := by
    subst hhex
    cases hdrop : Text.dropStart? ImageRecord.idAlgorithm.toList id.toList with
    | none => exact hid
    | some cs =>
      rw [Text.eq_append_of_dropStart? hdrop] at hid
      simpa using fun hmem => hid (List.mem_append_right _ hmem)
  have hproper : (FileName.ofText (hex ++ ".json")).Proper := by
    apply FileName.proper_ofText (c := 'j') _ (by simp) (by decide)
    simp [hslash]
  refine ⟨_, fun heq => ?_, (leads_path (FileName.proper_of_known (by simp [knownNames]))).join hproper⟩
  have htext := congrArg (fun s : String => s.toList.reverse) (FileName.ofText_injective heq)
  simp at htext

/-- A store that is ready stays so while its contents change. -/
theorem Ready.evolves (hr : s.Ready h) (hp : s.Plain h) (he : s.Evolves (Frame.within Contents) h h') : s.Ready h' := by
  obtain ⟨hsame, hchanges⟩ := he hp
  refine hr.kept hp (hp.evolves he) hsame.directory (fun l mode _ => directory_of_within hchanges.files) ?_
  obtain ⟨mode, data, hversion⟩ := hr.exists_version hp
  rw [hversion]
  exact entry?_of_within hchanges.files (fun h => h.2 rfl) hversion

/-- Keeping a record leaves it where its id leads. -/
theorem pathExists_putImage (hp : s.Plain h) {r : ImageRecord} {tag id : String} (hy : Yields (s.putImage r tag) h id h') :
    h'.files.pathExists h'.directory (s.recordPath r.id) = true := by
  have hleads := s.leads_recordPath r
  have htag : ∀ {g : Host} {d : Document}, s.Plain g → g.files.pathExists g.directory (s.recordPath r.id) = true →
      Yields (do
        writeDocument (s.tagPath tag) d
        pure r.id) g id h' → h'.files.pathExists h'.directory (s.recordPath r.id) = true := by
    intro g d hp hexists hy
    obtain ⟨_, _, hwrite, hpure⟩ := (yields_bind ..).1 hy
    obtain ⟨-, rfl⟩ := (yields_pure ..).1 hpure
    obtain ⟨hd, he, -⟩ := (leads_tagPath tag).evolves_write (contents_of_ne (mt FileName.ofText_injective (by decide)) _) hp
      ((yields_onFiles ..).1 hwrite)
    refine hleads.pathExists_anywhere (fun S key => ?_) hp hd (anywhere_of_within he) hexists
    rw [imageNames, List.singleton_append]
    exact append_ne_cacheNames (mt FileName.ofText_injective (by decide)) key
  unfold putImage at hy
  obtain ⟨b, _, hlook, hy⟩ := (yields_bind ..).1 hy
  obtain ⟨rfl, rfl⟩ := (yields_look ..).1 hlook
  split at hy
  · obtain ⟨_, g, hwrite, hy⟩ := (yields_bind ..).1 hy
    obtain ⟨hd, he, hread⟩ := hleads.evolves_write (contents_of_ne (mt FileName.ofText_injective (by decide)) _) hp
      ((yields_onFiles ..).1 hwrite)
    exact htag (hp.anywhere hd (anywhere_of_within he)) (FileTree.pathExists_of_read hread) hy
  · next hexists => exact htag hp (by simpa using hexists) hy

/-- A path ends neither at the version of a store nor at a result in a cache. -/
def AvoidedBy (path : String) : Prop := ∀ t d l, FileTree.resolve t false d path = .ok l →
  ∀ S, l ≠ S ++ versionNames ∧ ∀ key, IsDigest key → l ≠ S ++ cacheNames key

theorem avoidedBy_join {base path : String} {n : FileName} (hn : n.Proper)
    (hp : ∃ front, Path.rawNames path = front ++ [n]) (hversion : n ≠ FileName.ofText "version")
    (hkey : ∀ key, IsDigest key → n ≠ FileName.ofText (key ++ ".json")) : AvoidedBy (Path.join base path) := by
  intro t d l hl S
  obtain ⟨outer, rfl⟩ := FileTree.resolve_last hn (by simp) (Path.exists_rawNames_join base hp) hl
  constructor
  · intro heq
    exact hversion (List.append_inj_right' heq rfl |> List.singleton_inj.1)
  · intro key hdigest heq
    exact hkey key hdigest (last_eq_of_cacheNames heq)

end Store

namespace Direct

variable {s : Store} {h h' : Host} {w : WorkDirectory} {tag : String} {p : Plan} {x : BuildResult}

/-- A direct image has the id of a record. -/
theorem exists_record (hy : Yields (materialize s p w tag) h x h') : ∃ r : ImageRecord, x.imageId = r.id := by
  unfold materialize at hy
  split at hy
  · exact (yields_throw _ _ _ _ hy).elim
  · obtain ⟨id, g, hplan, hy⟩ := (yields_bind ..).1 hy
    obtain ⟨_, _, -, hpure⟩ := (yields_bind ..).1 hy
    obtain ⟨rfl, -⟩ := (yields_pure ..).1 hpure
    obtain ⟨_, _, -, hplan⟩ := (yields_bind ..).1 ((yields_failingAs ..).1 hplan)
    obtain ⟨layers, _, -, himage⟩ := (yields_bind ..).1 hplan
    exact ⟨_, Store.id_putImage himage⟩

/-- In a store that is ready a direct image adds to the contents alone. Its record is there. -/
theorem evolves_materialize (hr : s.Ready h) (hp : s.Plain h) (hy : Yields (materialize s p w tag) h x h') :
    s.Evolves (Store.Frame.within Store.Contents) h h' ∧
      h'.files.pathExists h'.directory (s.recordPath x.imageId) = true := by
  unfold materialize at hy
  split at hy
  · exact (yields_throw _ _ _ _ hy).elim
  · obtain ⟨id, g, hplan, hy⟩ := (yields_bind ..).1 hy
    obtain ⟨_, _, hnow, hpure⟩ := (yields_bind ..).1 hy
    obtain ⟨-, rfl⟩ := yields_now.1 hnow
    obtain ⟨rfl, rfl⟩ := (yields_pure ..).1 hpure
    obtain ⟨_, _, hprepare, hplan⟩ := (yields_bind ..).1 ((yields_failingAs ..).1 hplan)
    obtain ⟨-, rfl⟩ := hr.yields_prepare.unique hprepare
    obtain ⟨layers, h₁, hlayers, himage⟩ := (yields_bind ..).1 hplan
    have hadds := (Keeps.mapM _ fun l _ => keeps_putLayer (s := s)
      (Store.allowsImages_contents tag).toAllowsObjects w l).yields hlayers
    have hrecord := (Store.keeps_putImage (Store.allowsImages_contents tag) _).yields himage
    refine ⟨IsTrans.trans _ _ _ hadds hrecord, ?_⟩
    rw [Store.id_putImage himage]
    exact Store.pathExists_putImage (hp.evolves hadds) himage

end Direct

theorem ImageRecord.slash_notMem_id (r : ImageRecord) : '/' ∉ r.id.toList := by
  have hhex := (isDigest_hexOfText r.contentText).notMem (c := '/') (by decide)
  simp [id, idAlgorithm, hhex]

end ImageRecipe
