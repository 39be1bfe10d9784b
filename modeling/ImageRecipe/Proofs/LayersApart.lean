import ImageRecipe.Proofs.BuildRuns

/-! Layers apart from the store: while an image is made nothing changes but what is around the store, so that
such layers are packed as they were before. -/

namespace ImageRecipe

open Workshop

/-- A directory is packed alike in trees in which the path leads to one place with the same entries at it and below. -/
theorem Archive.packDirectory_congr {t t' : FileTree} {d : Location} {path : String}
    (hr : t'.resolve true d path = t.resolve true d path)
    (he : ∀ l l', t.resolve true d path = .ok l → l <+: l' → t'.entry? l' = t.entry? l') (o : LayerOptions) :
    packDirectory t' d path o = packDirectory t d path o := by
  unfold packDirectory
  rw [hr]
  cases hl : t.resolve true d path with
  | error e => rfl
  | ok l =>
    have hentry : ∀ l', l <+: l' → t'.entry? l' = t.entry? l' := fun l' => he l l' hl
    have hbelow : ∀ ms, t'.below (l ++ ms) = t.below (l ++ ms) := fun ms =>
      FileTree.below_congr fun l' hpre => hentry l' ((List.prefix_append ..).trans hpre)
    have hchildren : ∀ ms, t'.children (l ++ ms) = t.children (l ++ ms) := by
      intro ms
      unfold FileTree.children
      rw [hbelow]
    have hself := hbelow []
    have hself' := hchildren []
    rw [List.append_nil] at hself hself'
    have hreadable : t'.requireReadable l = t.requireReadable l := by
      unfold FileTree.requireReadable
      simp only [hentry l List.prefix_rfl, hself, hself', hchildren]
    dsimp only
    rw [hentry l List.prefix_rfl, hself, hreadable]

namespace Store

variable {s : Store} {h h' : Host} {path : String}

/-- The frame in which directories are made around the store and all else happens in it. -/
def Frame.inside : Frame := fun S l =>
  { makes := Around S l
    empties := False
    drops := S <+: l
    writes := fun _ => S <+: l }

theorem allowsStore_inside : Frame.inside.AllowsStore where
  makes _ _ _ hn hl := (near_room hn hl).around
  version _ := List.prefix_append ..
  lock _ := List.prefix_append ..

theorem allowsImages_inside (tag : String) : Frame.inside.AllowsImages tag where
  fans _ _ _ hd hl := (near_of_fan hd hl).around
  objects S ns hash _ _ := by
    rw [List.append_assoc, List.append_assoc]
    exact List.prefix_append ..
  records S hash _ _ := by
    rw [List.append_assoc]
    exact List.prefix_append ..
  tag _ _ := List.prefix_append ..

/-- Nothing changes at a place that is not around the store. -/
theorem Evolves.entry?_eq (he : s.Evolves Frame.inside h h') (hp : s.Plain h) {l : Location}
    (hl : ¬ Around (s.place h.directory) l) : h'.files.entry? l = h.files.entry? l := by
  have hloses : ∀ e, ¬ (Frame.inside (s.place h.directory) l).Loses e := by
    rintro e (he | ⟨hd, -⟩)
    · exact he
    · exact hl (.inr hd)
  have hchange := (he hp).2.files l
  generalize h'.files.entry? l = e at hchange ⊢
  cases hchange with
  | same => rfl
  | lost h => exact absurd h (hloses _)
  | made _ hm => exact absurd hm hl
  | written _ _ hw => exact absurd (.inr hw) hl

theorem Evolves.carries (he : s.Evolves Frame.inside h h') (hp : s.Plain h) :
    h.files.Carries h'.files where
  directory l mode hd := by
    have := (he hp).2.files l
    rw [hd] at this
    exact this.directory id
  link l target := by
    constructor
    · intro hl
      rw [he.entry?_eq hp fun ha => hp.link_free l ha target hl, hl]
    · intro hl
      have := (he hp).2.files l
      rw [hl] at this
      exact this.link

/-- A path leads to a place that is neither on the way to the store nor in it. -/
def Apart (s : Store) (h : Host) (path : String) : Prop :=
  ∃ l, h.files.resolve true h.directory path = .ok l ∧ ¬ Around (s.place h.directory) l

theorem Apart.resolve_eq (ha : s.Apart h path) (he : s.Evolves Frame.inside h h') (hp : s.Plain h) :
    h'.files.resolve true h'.directory path = h.files.resolve true h.directory path := by
  obtain ⟨l, hl, -⟩ := ha
  rw [(he hp).1.directory, hl, (he.carries hp).resolve hl]

/-- Nothing changes at a place apart from the store or below it. -/
theorem Apart.entry?_eq (ha : s.Apart h path) (he : s.Evolves Frame.inside h h') (hp : s.Plain h)
    {l l' : Location} (hl : h.files.resolve true h.directory path = .ok l) (hpre : l <+: l') :
    h'.files.entry? l' = h.files.entry? l' := by
  obtain ⟨m, hm, hno⟩ := ha
  cases hl.symm.trans hm
  exact he.entry?_eq hp fun h => hno (h.of_prefix hpre)

theorem Apart.isDirectory_eq (ha : s.Apart h path) (he : s.Evolves Frame.inside h h') (hp : s.Plain h) :
    h'.files.isDirectory h'.directory path = h.files.isDirectory h.directory path := by
  have hresolve := ha.resolve_eq he hp
  rw [(he hp).1.directory] at hresolve ⊢
  unfold FileTree.isDirectory
  rw [FileTree.status_congr hresolve fun l hl =>
    ha.entry?_eq he hp (hresolve.symm.trans hl) List.prefix_rfl]

/-- A directory apart from the store is packed as it was before. -/
theorem Apart.packDirectory_eq (ha : s.Apart h path) (he : s.Evolves Frame.inside h h') (hp : s.Plain h)
    (o : LayerOptions) :
    Archive.packDirectory h'.files h'.directory path o = Archive.packDirectory h.files h.directory path o := by
  have hresolve := ha.resolve_eq he hp
  rw [(he hp).1.directory] at hresolve ⊢
  exact Archive.packDirectory_congr hresolve (fun l l' hl => ha.entry?_eq he hp hl) o

/-- Keeping a content gives its digest. -/
theorem digest_putObject {data : ByteArray} {digest : String} (hy : Yields (s.putObject data) h digest h') :
    digest = Blake3.hex data := by
  unfold putObject at hy
  obtain ⟨b, _, -, hy⟩ := (yields_bind ..).1 hy
  have hwrite : ∀ {h₁ : Host}, Yields (do
      onFiles (Host.writeBytes (s.objectPath (Blake3.hex data)) data)
      pure (Blake3.hex data)) h₁ digest h' → digest = Blake3.hex data := by
    intro h₁ hy
    obtain ⟨_, _, -, hy⟩ := (yields_bind ..).1 hy
    exact ((yields_pure ..).1 hy).1.symm
  split at hy
  · split at hy
    · obtain ⟨_, _, -, hy⟩ := (yields_bind ..).1 hy
      exact hwrite hy
    · exact hwrite hy
  · exact ((yields_pure ..).1 hy).1.symm

/-- Keeping a record gives its id. -/
theorem id_putImage {r : ImageRecord} {tag id : String} (hy : Yields (s.putImage r tag) h id h') :
    id = r.id := by
  unfold putImage at hy
  obtain ⟨b, _, -, hy⟩ := (yields_bind ..).1 hy
  have hwrite : ∀ {h₁ : Host}, Yields (do
      writeDocument (s.tagPath tag) (TagEntry.toDocument ⟨tag, r.id⟩)
      pure r.id) h₁ id h' → id = r.id := by
    intro h₁ hy
    obtain ⟨_, _, -, hy⟩ := (yields_bind ..).1 hy
    exact ((yields_pure ..).1 hy).1.symm
  split at hy
  · obtain ⟨_, _, -, hy⟩ := (yields_bind ..).1 hy
    exact hwrite hy
  · exact hwrite hy

end Store

namespace Direct

variable {s : Store} {h h' : Host} {w : WorkDirectory} {p : DirectPlan} {tag : String}

/-- The record of a layer as its directory is packed. -/
def packLayer (h : Host) (w : WorkDirectory) (l : Layer) : Except StoreError LayerRecord := do
  let options ← layerOptions l
  let archive ← (Archive.packDirectory h.files h.directory (Path.join w.root l.source) options).mapError .io
  let data : ByteArray := ⟨archive.toArray⟩
  pure ⟨l.ordinal, Blake3.hex data, data.size, l.destination⟩

/-- The record of the image that a plan comes to. -/
def record (h : Host) (w : WorkDirectory) (p : DirectPlan) : Except StoreError ImageRecord := do
  let layers ← p.layers.mapM (packLayer h w)
  pure ⟨p.base, layers, p.env, p.user, p.healthCheck⟩

theorem record_congr {w' : WorkDirectory} (heq : ∀ l ∈ p.layers, packLayer h w l = packLayer h' w' l) :
    record h w p = record h' w' p := by
  have hlayers : ∀ layers : List Layer, (∀ l ∈ layers, packLayer h w l = packLayer h' w' l) →
      layers.mapM (packLayer h w) = layers.mapM (packLayer h' w') := by
    intro layers
    induction layers with
    | nil => intro _; rfl
    | cons l layers ih =>
      intro heq
      rw [List.mapM_cons, List.mapM_cons, heq l (by simp), ih fun l hl => heq l (by simp [hl])]
  unfold record
  rw [hlayers _ heq]

/-- The directory of a layer is there. -/
def HasLayer (h : Host) (w : WorkDirectory) (l : Layer) : Prop :=
  h.files.isDirectory h.directory (Path.join w.root l.source) = true

/-- Keeping a layer apart from the store gives the record of its directory as it was before. -/
theorem yields_putLayer {h₀ : Host} {l : Layer} (he : s.Evolves Store.Frame.inside h₀ h) (hp : s.Plain h₀)
    (ha : s.Apart h₀ (Path.join w.root l.source)) {r : LayerRecord} (hy : Yields (putLayer s w l) h r h') :
    HasLayer h₀ w l ∧ packLayer h₀ w l = .ok r := by
  unfold putLayer at hy
  obtain ⟨b, _, hlook, hy⟩ := (yields_bind ..).1 hy
  obtain ⟨hb, rfl⟩ := (yields_look ..).1 hlook
  rw [ha.isDirectory_eq he hp] at hb
  split at hy
  · obtain ⟨_, _, hthrow, -⟩ := (yields_bind ..).1 hy
    exact (yields_throw _ _ _ _ hthrow).elim
  · next hthere =>
    refine ⟨by simpa [HasLayer, ← hb] using hthere, ?_⟩
    obtain ⟨options, _, hoptions, hy⟩ := (yields_bind ..).1 hy
    obtain ⟨hparsed, rfl⟩ := (yields_ofExcept ..).1 hoptions
    obtain ⟨archive, _, hpack, hy⟩ := (yields_bind ..).1 hy
    obtain ⟨hpacked, rfl⟩ := (yields_inspect ..).1 ((yields_onFiles ..).1 hpack)
    obtain ⟨digest, _, hput, hy⟩ := (yields_bind ..).1 hy
    obtain ⟨rfl, rfl⟩ := (yields_pure ..).1 hy
    rw [ha.packDirectory_eq he hp] at hpacked
    unfold packLayer
    simp only [hparsed, hpacked, bind, Except.bind, mapError_ok]
    rw [Store.digest_putObject hput]
    rfl

theorem yields_putLayers {h₀ : Host} {layers : List Layer} (tag : String)
    (ha : ∀ l ∈ layers, s.Apart h₀ (Path.join w.root l.source)) (hp : s.Plain h₀) : ∀ {h h' : Host} {rs},
    s.Evolves Store.Frame.inside h₀ h → Yields (layers.mapM (putLayer s w)) h rs h' →
    (∀ l ∈ layers, HasLayer h₀ w l) ∧ layers.mapM (packLayer h₀ w) = .ok rs := by
  induction layers with
  | nil =>
    intro h h' rs _ hy
    obtain ⟨rfl, -⟩ := (yields_mapM_nil ..).1 hy
    exact ⟨by simp, rfl⟩
  | cons l layers ih =>
    intro h h' rs he hy
    obtain ⟨r, h₁, rs, hl, hrest, rfl⟩ := (yields_mapM_cons ..).1 hy
    have he₁ := IsTrans.trans (r := s.Evolves Store.Frame.inside) _ _ _ he
      ((keeps_putLayer (Store.allowsImages_inside tag).toAllowsObjects w l).yields hl)
    obtain ⟨hthere, hpack⟩ := yields_putLayer he hp (ha l (by simp)) hl
    obtain ⟨hall, hpacks⟩ := ih (fun l hl => ha l (by simp [hl])) he₁ hrest
    refine ⟨?_, ?_⟩
    · intro m hm
      rcases List.mem_cons.1 hm with rfl | hm
      · exact hthere
      · exact hall m hm
    · rw [List.mapM_cons, hpack, hpacks]
      rfl

/-- A direct image whose layers are apart from the store has the record of the layers as they were before. -/
theorem yields_materialize {h₀ : Host} {x : BuildResult} (he : s.Evolves Store.Frame.inside h₀ h)
    (hp : s.Plain h₀) (ha : ∀ l ∈ p.layers, s.Apart h₀ (Path.join w.root l.source))
    (hy : Yields (materialize s (.direct p) w tag) h x h') :
    (∀ l ∈ p.layers, HasLayer h₀ w l) ∧ ∃ r, record h₀ w p = .ok r ∧ x.imageId = r.id := by
  obtain ⟨id, h₁, hput, hy⟩ := (yields_bind ..).1 hy
  obtain ⟨now, _, -, hy⟩ := (yields_bind ..).1 hy
  obtain ⟨rfl, -⟩ := (yields_pure ..).1 hy
  have hput := (yields_failingAs ..).1 hput
  obtain ⟨_, h₂, hprepare, hput⟩ := (yields_bind ..).1 hput
  obtain ⟨layers, h₃, hlayers, hput⟩ := (yields_bind ..).1 hput
  have he₂ := IsTrans.trans (r := s.Evolves Store.Frame.inside) _ _ _ he
    ((Store.keeps_prepare Store.allowsStore_inside).yields hprepare)
  obtain ⟨hall, hpacks⟩ := yields_putLayers tag ha hp he₂ hlayers
  refine ⟨hall, _, ?_, Store.id_putImage hput⟩
  unfold record
  rw [hpacks]
  rfl

end Direct

end ImageRecipe
