import ImageRecipe.Proofs.CompleteStores
import ImageRecipe.Proofs.DirectImages
import ImageRecipe.Proofs.FailedBuilds
import ImageRecipe.Proofs.MockImages
import ImageRecipe.Proofs.Tags

/-! The images of a store over builds and removals of tags: their records stay complete, and a build that fails before
it has kept all layers touches neither records nor tags. -/

namespace ImageRecipe

open Workshop

namespace Store

variable {s : Store} {h h' : Host} {S l : Location} {r : ImageRecord} {tag : String}

/-- A place in the directory of records or in the one of tags. -/
def Imagery (S l : Location) : Prop :=
  ∃ name ∈ ["images", "tags"], ∃ n ns, l = S ++ FileName.ofText name :: n :: ns

/-- The records and the tags are what they were. -/
def SameImages (s : Store) (h h' : Host) : Prop :=
  ∀ l, Imagery (s.place h.directory) l → h'.files.entry? l = h.files.entry? l

/-- The records and the tags are what they were, but for the record of an image and its tag. -/
def AddsImage (s : Store) (r : ImageRecord) (tag : String) (h h' : Host) : Prop :=
  ∀ l, Imagery (s.place h.directory) l → h'.files.entry? l = h.files.entry? l ∨
    (∃ mode, h'.files.entry? l = some (.file mode (written r.toDocument))) ∧
        l = s.place h.directory ++ recordNames (Blake3.hexOfText r.contentText) ∨
      (∃ mode, h'.files.entry? l = some (.file mode (written (TagEntry.toDocument ⟨tag, r.id⟩)))) ∧
        l = s.place h.directory ++ tagNames tag

/-- The frame in which neither records nor tags change. -/
def Frame.unrecorded : Frame := fun S l =>
  { makes := ¬ Imagery S l
    empties := False
    drops := ¬ Imagery S l
    writes := fun _ => ¬ Imagery S l }

/-- The frame in which the record of an image is written and its tag. -/
def Frame.recording (r : ImageRecord) (tag : String) : Frame := fun S l =>
  { makes := False
    empties := False
    drops := False
    writes := fun data =>
      data = written r.toDocument ∧ l = S ++ recordNames (Blake3.hexOfText r.contentText) ∨
        data = written (TagEntry.toDocument ⟨tag, r.id⟩) ∧ l = S ++ tagNames tag }

/-- The rooms of the store, and all that they lie in. -/
private theorem not_imagery_of_isPrefix {n : FileName} (hl : l <+: S ++ [n]) : ¬ Imagery S l := by
  rintro ⟨name, -, m, ns, rfl⟩
  have := hl.length_le
  simp only [List.length_append, List.length_cons, List.length_nil] at this
  omega

private theorem not_imagery_objects {ns ms : List FileName} (hl : S ++ ns <+: S ++ (objectNames ++ ms)) :
    ¬ Imagery S (S ++ ns) := by
  rintro ⟨name, hname, n, ms', heq⟩
  rw [List.append_cancel_left heq] at hl
  obtain ⟨rest, hrest⟩ := (List.prefix_append_right_inj S).1 hl
  simp only [objectNames, List.cons_append, List.cons.injEq] at hrest
  obtain rfl := FileName.ofText_injective hrest.1
  simp at hname

theorem allowsStore_unrecorded : Frame.unrecorded.AllowsStore where
  makes _ _ _ _ := not_imagery_of_isPrefix
  version _ := not_imagery_of_isPrefix (n := FileName.ofText "version") List.prefix_rfl
  lock _ := not_imagery_of_isPrefix (n := FileName.ofText ".lock") List.prefix_rfl

theorem allowsObjects_unrecorded : Frame.unrecorded.AllowsObjects where
  fans S hash l _ hl := by
    rcases List.prefix_or_prefix_of_prefix hl (List.prefix_append S _) with hpre | ⟨ns, rfl⟩
    · exact not_imagery_of_isPrefix (n := FileName.ofText "objects") (hpre.trans (List.prefix_append ..))
    · exact not_imagery_objects hl
  objects S ns hash _ _ := by
    rw [List.append_assoc, List.append_assoc]
    exact not_imagery_objects List.prefix_rfl

theorem sameImages_of_evolves (he : s.Evolves Frame.unrecorded h h') (hp : s.Plain h) : s.SameImages h h' := by
  intro l hl
  refine ((he hp).2.files l).eq_of_forbidden (fun h => h hl) ?_ fun _ h => h hl
  rintro e (hempty | ⟨hdrop, -⟩)
  · exact hempty
  · exact hdrop hl

/-- To keep an image adds its record and moves its tag at most, whether it fails or not. -/
theorem addsImage_putImage (hp : s.Plain h) : s.AddsImage r tag h (ran (s.putImage r tag) h).2 := by
  have hkeeps : Keeps (s.Evolves (Frame.recording r tag)) (s.putImage r tag) :=
    keeps_putImage_of (fun S => .inl ⟨rfl, rfl⟩) fun S => .inr ⟨rfl, rfl⟩
  intro l _
  have hchange := (hkeeps.run h hp).2.files l
  generalize (ran (s.putImage r tag) h).2.files.entry? l = e at hchange ⊢
  cases hchange with
  | same => exact .inl rfl
  | lost hloses => exact (hloses.elim id And.left).elim
  | made _ hm => exact hm.elim
  | written mode data hw =>
    rcases hw with ⟨rfl, hl⟩ | ⟨rfl, hl⟩
    · exact .inr (.inl ⟨⟨mode, rfl⟩, hl⟩)
    · exact .inr (.inr ⟨⟨mode, rfl⟩, hl⟩)

end Store

namespace Direct

variable {s : Store} {h h' : Host} {w : WorkDirectory} {tag : String}

/-- Keep the layers of a plan. -/
def keepLayers (s : Store) (p : DirectPlan) (w : WorkDirectory) : StoreM (List LayerRecord) := do
  s.prepare
  p.layers.mapM (putLayer s w)

/-- The record of a plan's image, with the layers as they were kept. -/
def recordOf (p : DirectPlan) (layers : List LayerRecord) : ImageRecord :=
  ⟨p.base, layers, p.env, p.user, p.healthCheck⟩

theorem putPlan_eq (s : Store) (p : DirectPlan) (w : WorkDirectory) (tag : String) :
    putPlan s p w tag = keepLayers s p w >>= fun layers => s.putImage (recordOf p layers) tag := by
  unfold putPlan keepLayers recordOf
  rw [bind_assoc]

theorem keeps_keepLayers (s : Store) (p : DirectPlan) (w : WorkDirectory) :
    Keeps (s.Evolves Store.Frame.unrecorded) (keepLayers s p w) :=
  (Store.keeps_prepare Store.allowsStore_unrecorded).bind fun _ =>
    Keeps.mapM _ fun l _ => keeps_putLayer Store.allowsObjects_unrecorded w l

/-- An image that cannot be made leaves records and tags as they were, if it is a layer that cannot be kept; else it is
the image that cannot be kept once its layers are, and its record and its tag are all that changes. -/
theorem materialize_error (hp : s.Plain h) {p : Plan} {e : BackendError}
    (he : (ran (materialize s p w tag) h).1 = .error e) :
    s.SameImages h (ran (materialize s p w tag) h).2 ∨
      ∃ q layers h₁, p = .direct q ∧ Yields (keepLayers s q w) h layers h₁ ∧
        (∃ e', (ran (s.putImage (recordOf q layers) tag) h₁).1 = .error e') ∧
          s.AddsImage (recordOf q layers) tag h (ran (materialize s p w tag) h).2 := by
  cases p with
  | daemon => exact .inl fun _ _ => rfl
  | direct q =>
    have hplan : (ran (materialize s (.direct q) w tag) h).2 = (ran (putPlan s q w tag) h).2 ∧
        ∃ e', (ran (putPlan s q w tag) h).1 = .error e' := by
      unfold materialize at he ⊢
      rw [ran_bind, ran_failingAs] at he ⊢
      rcases hput : ran (putPlan s q w tag) h with ⟨e' | id, h₁⟩
      · exact ⟨rfl, e', rfl⟩
      · rw [hput] at he
        simp only [mapError_ok, ran_bind, ran_pure] at he
        cases he
    obtain ⟨hhost, e', herror⟩ := hplan
    have hkept := (keeps_keepLayers s q w).run h
    rw [hhost]
    rw [putPlan_eq, ran_bind] at herror ⊢
    rcases hlayers : ran (keepLayers s q w) h with ⟨e'' | layers, h₁⟩
    · rw [hlayers] at hkept
      exact .inl (Store.sameImages_of_evolves hkept hp)
    · rw [hlayers] at hkept herror
      refine .inr ⟨q, layers, h₁, rfl, hlayers, ⟨e', herror⟩, fun l hl => ?_⟩
      have hsame := Store.sameImages_of_evolves hkept hp l hl
      have hadds : s.AddsImage (recordOf q layers) tag h₁ _ := Store.addsImage_putImage (hp.evolves hkept)
      replace hadds := hadds l
      rw [(hkept hp).1.directory, hsame] at hadds
      exact hadds hl

theorem upholds_materialize {packed : Set ByteArray} (hinj : Set.InjOn Blake3.hex packed) {p : DirectPlan}
    (tag : String) (hpacks : ∀ data, PacksPlan s p w h data → data ∈ packed) :
    s.Upholds packed h (ran (materialize s (.direct p) w tag) h).2 := by
  unfold materialize
  refine Keeps.bind_at ?_ fun _ h₁ _ => (Keeps.now.bind fun _ => Keeps.pure _).run h₁
  rw [ran_failingAs]
  exact upholds_putPlan hinj tag hpacks

end Direct

namespace Workshop

variable {s : Store} {packed : Set ByteArray} {clears : Prop} {w w' : Workshop}

/-- What is done in a workshop leaves its store plain and complete, if it was. -/
def Maintains (s : Store) (packed : Set ByteArray) (w w' : Workshop) : Prop :=
  w.Uses s → s.Plain w.host → s.Complete packed w.host →
    w'.Uses s ∧ w'.host.directory = w.host.directory ∧ s.Plain w'.host ∧ s.Complete packed w'.host

instance : Std.Refl (Maintains s packed) where
  refl _ hs hp hc := ⟨hs, rfl, hp, hc⟩

instance : IsTrans Workshop (Maintains s packed) where
  trans _ _ _ h₁ h₂ hs hp hc := by
    obtain ⟨hs₁, hd₁, hp₁, hc₁⟩ := h₁ hs hp hc
    obtain ⟨hs₂, hd₂, hp₂, hc₂⟩ := h₂ hs₁ hp₁ hc₁
    exact ⟨hs₂, hd₂.trans hd₁, hp₂, hc₂⟩

theorem maintains_of_works (h : Works s (Store.Frame.sparing clears) w w') : Maintains s packed w w' := by
  intro hs hp hc
  obtain ⟨-, hs', he⟩ := h hs
  exact ⟨hs', (he hp).1.directory, hp.evolves he, hc.sparing hp he⟩

theorem maintains_clean (tag : String) : Maintains s packed w (ran (clean .direct tag) w).2 :=
  maintains_of_works
    ((keeps_clean (f := Store.Frame.sparing False) (by decide) tag fun S => Store.not_precious_tagNames S tag).run w)

end Workshop

namespace BuildCall

/-- What a call packs into its store. -/
def Packs (c : BuildCall) (data : ByteArray) : Prop :=
  ∃ j w₁ w₂ w₃ q, c.Settles j w₁ ∧ Yields (c.recipe.cached? (c.recipe.key j)) w₁ none w₂ ∧
    Yields (onHost .io c.workshop.store.openLock) w₂ () w₃ ∧ j.plan = .direct q ∧
      Direct.PacksPlan c.workshop.store q j.directory w₃.host data

end BuildCall

namespace Recipe

variable {s : Store} {packed : Set ByteArray} {r : Recipe} {w : Workshop}

/-- Making a direct image leaves a complete store complete. -/
theorem maintains_makeImage (hk : r.backend = .direct) (hinj : Set.InjOn Blake3.hex packed) {j : Job} {q : DirectPlan}
    (hplan : j.plan = .direct q) (hpacks : ∀ w₁, Yields (onHost .io s.openLock) w () w₁ →
      ∀ data, Direct.PacksPlan s q j.directory w₁.host data → data ∈ packed) :
    Maintains s packed w (ran (r.makeImage j) w).2 := by
  intro hs hp hc
  have hne : r.backend ≠ .daemon := by simp [hk]
  have huses := ((keeps_makeImage hne Store.allowsPlain_all (Store.allowsImages_all r.tag) j).run w hs).uses
  suffices h : s.Upholds packed w.host (ran (r.makeImage j) w).2.host from
    ⟨huses, (h hp hc).setting.directory, (h hp hc).plain, (h hp hc).complete⟩
  have hopen : Keeps (s.Upholds packed) s.openLock :=
    (Store.keeps_openLock (fun _ _ => Store.allowsStore_sparing.makes_place) Store.allowsStore_sparing.lock).mono
      fun _ _ => Store.upholds_of_sparing
  unfold makeImage
  rw [ran_bind, ran_get]
  dsimp only
  split
  · rw [ran_bind, ran_throw]
    exact refl _
  · rw [ran_bind, ran_get]
    dsimp only
    rw [if_pos (by rw [hplan]; rfl), hs.store_eq, ran_bind, ran_onHost]
    rcases hlock : ran s.openLock w.host with ⟨e | _, h₁⟩
    · exact hopen.ends hlock
    · have hs₁ : { w with host := h₁ }.Uses s := ⟨hs.store_eq, hs.backends⟩
      have hlocked : Yields (onHost .io s.openLock) w () { w with host := h₁ } := (yields_onHost ..).2 ⟨h₁, hlock, rfl⟩
      obtain ⟨b, w₁, ho, hhost⟩ := host_changing (x := Backend.materialize j.plan j.directory r.tag r.architecture) hne
        { w with host := h₁ }
      obtain rfl := (ho.uses s hs₁).direct (hk ▸ ho.backend)
      refine IsTrans.trans (r := s.Upholds packed) _ _ _ (hopen.ends hlock) ?_
      change s.Upholds packed h₁ (ran (changing r.backend _) { w with host := h₁ }).2.host
      rw [hhost, hplan]
      have hpacked : ∀ data, Direct.PacksPlan s q j.directory h₁ data → data ∈ packed :=
        hpacks { w with host := h₁ } hlocked
      exact Keeps.bind_at (Direct.upholds_materialize hinj r.tag hpacked) fun _ h _ => (Keeps.pure _).run h

theorem keeps_note {f : Store.Frame} (hf : f.AllowsResult)
    (hput : ∀ key x, IsDigest key → Keeps (s.Evolves f) (s.putResult key x)) (d : Draft) :
    Keeps (Idles s f) (r.note d) := by
  have hresult : Keeps (Idles s f) (onHost .store (d.job.directory.writeResult d.result)) :=
    keeps_onHost (WorkDirectory.keeps_writeResult hf _) _
  have hcache : Keeps (Idles s f) (do
      let store := (← get).store
      let _ ← onHost .store (store.putResult (r.key d.job) d.result).outcome) :=
    keeps_get fun w hw => by
      rw [hw]
      exact (keeps_onHost (hput _ _ (r.isDigest_key _)).outcome _).bind fun _ => Keeps.pure _
  unfold note
  refine hresult.bind fun _ => ?_
  split
  · exact hcache
  · exact Keeps.pure _

/-- A direct build leaves a complete store complete, whether it fails or not. -/
theorem maintains_build (hk : r.backend = .direct) (hinj : Set.InjOn Blake3.hex packed)
    (hsurvives : (⟨r.workDirectory⟩ : WorkDirectory).Survives w.host)
    (hpacks : ∀ data, BuildCall.Packs ⟨r, w⟩ data → data ∈ packed) : Maintains s packed w (ran r.build w).2 := by
  have hne : r.backend ≠ .daemon := by simp [hk]
  intro hs hp hc
  rw [build_eq_note]
  refine Keeps.bind_at (R := Maintains s packed) ?_ (fun d w₁ _ => ?_) hs hp hc
  · have hprepare : s.Evolves (Store.Frame.sparing True) w.host
        (ran (⟨r.workDirectory⟩ : WorkDirectory).prepare w.host).2 :=
      WorkDirectory.evolves_prepare_rooms Store.allowsRooms_sparing (fun _ _ _ _ => trivial) hsurvives
    have hjob := idles_job (r := r) Store.allowsStore_sparing Store.allowsNames_sparing (fun h => absurd h hne) hprepare
    refine Keeps.bind_at (R := Maintains s packed) (maintains_of_works fun hs => (hjob hs).1) fun j w₁ hj => ?_
    have hw₁ := (hjob hs).1.uses
    rw [show ran r.job w = (.ok j, w₁) from hj] at hw₁
    have hfound : Keeps (Idles s (Store.Frame.sparing False)) (r.cached? (r.key j)) :=
      keeps_cached? hne (r.isDigest_key j) fun S => Store.not_precious_cacheNames S _
    refine Keeps.bind_at (R := Maintains s packed) (maintains_of_works (hfound.run w₁ · |>.1)) fun found w₂ hy => ?_
    cases found with
    | some hit => exact (Keeps.pure _).run w₂
    | none =>
      obtain ⟨q, hplan, -⟩ := (yields_job hj).direct hk
      refine Keeps.bind_at (maintains_makeImage hk hinj hplan fun w₃ hlock data hpack => ?_) fun _ w₃ _ =>
        (Keeps.pure _).run w₃
      refine hpacks data ⟨j, w₁, w₂, w₃, q, hj, hy, ?_, hplan, ?_⟩
      · rw [hs.store_eq]
        exact hlock
      · rw [hs.store_eq]
        exact hpack
  · have hnote : Keeps (Idles s (Store.Frame.sparing False)) (r.note d) :=
      keeps_note Store.allowsResult_sparing (fun key x hkey =>
        Store.keeps_putResult hkey fun S => Store.not_precious_cacheNames S key) d
    have hregister : Keeps (Maintains s packed) (register r.project d.result) :=
      (keeps_register (f := Store.Frame.sparing False) ..).mono fun _ _ => maintains_of_works
    exact ((hnote.mono fun _ _ h => maintains_of_works fun hs => (h hs).1).bind fun _ => hregister.bind fun _ =>
      Keeps.pure _).run w₁

end Recipe

/-- The workshops that come about by building direct images and by removing tags, with a store that had neither objects
nor records at first. Meanwhile anything may happen elsewhere. No build clears its work directory away, and all that
the builds pack is among some contents. -/
inductive Stocked (s : Store) (packed : Set ByteArray) : Workshop → Prop
  | start {w : Workshop} (huses : w.Uses s) (hplain : s.Plain w.host)
    (hempty : ∀ l, Store.Precious (s.place w.host.directory) l → w.host.files.entry? l = none) : Stocked s packed w
  | build {w : Workshop} {r : Recipe} (h : Stocked s packed w) (hk : r.backend = .direct)
    (hsurvives : (⟨r.workDirectory⟩ : WorkDirectory).Survives w.host)
    (hpacks : ∀ data, BuildCall.Packs ⟨r, w⟩ data → data ∈ packed) : Stocked s packed (ran r.build w).2
  | clean {w : Workshop} (h : Stocked s packed w) (tag : String) : Stocked s packed (ran (clean .direct tag) w).2
  | meanwhile {w w' : Workshop} (h : Stocked s packed w) (huses : w'.Uses s)
    (hdirectory : w'.host.directory = w.host.directory)
    (haround : ∀ l, Store.Around (s.place w.host.directory) l → w'.host.files.entry? l = w.host.files.entry? l) :
    Stocked s packed w'

namespace Stocked

variable {s : Store} {packed : Set ByteArray} {w w' : Workshop}

/-- What happens elsewhere leaves a store as it is. -/
private theorem maintains_meanwhile (huses : w'.Uses s) (hd : w'.host.directory = w.host.directory)
    (haround : ∀ l, Store.Around (s.place w.host.directory) l → w'.host.files.entry? l = w.host.files.entry? l) :
    Maintains s packed w w' := by
  intro _ hp hc
  have hplain : s.Plain w'.host := by
    refine ⟨hp.staysBelow, fun l hl target ht => ?_⟩
    rw [hd] at hl
    rw [haround l hl] at ht
    exact hp.link_free l hl target ht
  have hbelow : ∀ ns, w'.host.files.entry? (s.place w.host.directory ++ ns) =
      w.host.files.entry? (s.place w.host.directory ++ ns) := fun ns => haround _ (.inr (List.prefix_append ..))
  have hlayers : ∀ l, s.HoldsLayer w.host l → s.HoldsLayer w'.host l := fun l hl =>
    hl.kept hp hplain hd (fun p mode hn hm => by rw [haround p hn.around, hm]) fun hash e _ he => by rw [hbelow, he]
  refine ⟨huses, hd, hplain, ⟨fun hash e hhash he => ?_, fun hash mode data hhash he => ?_⟩⟩
  · rw [hd, hbelow] at he
    exact hc.object hash e hhash he
  · rw [hd, hbelow] at he
    obtain ⟨r, hdata, hdigest, hall⟩ := hc.record hash mode data hhash he
    exact ⟨r, hdata, hdigest, fun l hl => hlayers l (hall l hl)⟩

theorem complete_store (h : Stocked s packed w) (hinj : Set.InjOn Blake3.hex packed) :
    w.Uses s ∧ s.Plain w.host ∧ s.Complete packed w.host := by
  induction h with
  | start huses hplain hempty => exact ⟨huses, hplain, Store.complete_of_empty hempty⟩
  | build _ hk hsurvives hpacks ih =>
    obtain ⟨hs, -, hp, hc⟩ := Recipe.maintains_build hk hinj hsurvives hpacks ih.1 ih.2.1 ih.2.2
    exact ⟨hs, hp, hc⟩
  | clean _ tag ih =>
    obtain ⟨hs, -, hp, hc⟩ := maintains_clean tag ih.1 ih.2.1 ih.2.2
    exact ⟨hs, hp, hc⟩
  | meanwhile _ huses hdirectory haround ih =>
    obtain ⟨hs, -, hp, hc⟩ := maintains_meanwhile huses hdirectory haround ih.1 ih.2.1 ih.2.2
    exact ⟨hs, hp, hc⟩

end Stocked

namespace Sample

theorem survives_workshop : (⟨"/w"⟩ : WorkDirectory).Survives workshop.host := by
  intro h₁ h₂ hmake hremove
  have hnone : (ran (Host.removeTree (WorkDirectory.repositories ⟨"/w"⟩))
      (ran (WorkDirectory.makeRooms ⟨"/w"⟩) workshop.host).2).1.isOk = false := by decide +kernel
  rw [show ran (WorkDirectory.makeRooms ⟨"/w"⟩) workshop.host = (.ok (), h₁) from hmake,
    show ran (Host.removeTree (WorkDirectory.repositories ⟨"/w"⟩)) h₁ = (.ok (), h₂) from hremove] at hnone
  cases hnone

/-- A build without layers packs nothing. -/
theorem not_packs_call (data : ByteArray) : ¬ (call .direct).Packs data := by
  rintro ⟨j, w₁, w₂, w₃, q, hj, -, -, hplan, h₁, -, hpack⟩
  have hcomes := isOk_runs.2.1.1
  unfold comesTo at hcomes
  rw [show ran (recipe .direct .x86).job workshop = (.ok j, w₁) from hj] at hcomes
  obtain ⟨hdirect, -⟩ := of_decide_eq_true hcomes
  cases hplan.symm.trans hdirect
  cases hpack

theorem stocked_build : Stocked store ∅ (ran (recipe .direct .x86).build workshop).2 := by
  have hempty : ∀ l, Store.Precious (store.place workshop.host.directory) l → workshop.host.files.entry? l = none := by
    intro l hl
    have hlong : 2 ≤ l.length := by
      obtain ⟨hash, -, rfl | rfl⟩ := hl <;>
        simp [Store.contentNames, Store.objectNames, Store.recordNames, Store.imageNames]
    rw [entry?_workshop, if_neg]
    rintro (rfl | rfl) <;> simp at hlong
  have hstart : Stocked store ∅ workshop := .start uses_workshop plain_workshop hempty
  exact .build (r := recipe .direct .x86) hstart rfl survives_workshop fun data hpack =>
    (not_packs_call data hpack).elim

/-- A plan with a layer that no work directory has. -/
def missingLayer : DirectPlan := ⟨.reference "i:v", [⟨0, "missing", "/", none, .preserve⟩], [], none, none⟩

/-- A record of one layer without bytes. -/
def emptyLayer : ImageRecord := ⟨.reference "i:v", [⟨0, noContext, 0, "/"⟩], [], none, none⟩

/-- The name of the file of that record. -/
def emptyLayerName : String := Blake3.hexOfText emptyLayer.contentText ++ ".json"

/-- The objects of the store lie behind a link, where a build clears repository definitions away. -/
def straying : Workshop :=
  furnished "/s"
    [["w"], ["w", "ephemeral"], ["w", "ephemeral", "repos"], ["w", "ephemeral", "repos", "af"], ["s"], ["s", "store"],
      ["s", "store", "images"]]
    [(["w", "ephemeral", "repos", "af", noContext], .file writtenMode ByteArray.empty),
      (["s", "store", "objects"], .link (RawPath.ofText "/w/ephemeral/repos")),
      (["s", "store", "images", emptyLayerName], .file writtenMode (written emptyLayer.toDocument))]

/-- A direct build on top of an image that was not built. -/
def derivedDirect : Recipe := { derived with backend := .direct }

/-- The digest of the record of an image without layers. -/
def barredHash : String := "edf7db898105cdd3b141cb4c74f08032636047196fe7b369cfc6538885d16186"

/-- There is a directory where a tag belongs. -/
def barred : Workshop :=
  furnished "/s" [["s"], ["s", "store"], ["s", "store", "tags"], ["s", "store", "tags", Blake3.hexOfText "t"]] []

/-- A file by its mode and the list of its bytes, which the kernel compares one by one. -/
def modeAndBytes : Option Entry → Option (Nat × List UInt8)
  | some (.file mode data) => some (mode, data.data.toList)
  | _ => none

theorem eq_of_modeAndBytes {e : Option Entry} {mode : Nat} {data : ByteArray}
    (h : modeAndBytes e = some (mode, data.data.toList)) : e = some (.file mode data) := by
  unfold modeAndBytes at h
  split at h
  · obtain ⟨rfl, hdata⟩ := Prod.mk.inj (Option.some.inj h)
    rw [ByteArray.ext (Array.toList_inj.1 hdata)]
  · cases h

theorem emptyLayerName_eq :
    emptyLayerName = "dd13c23fad9b5842f0d94bbd364cad389dd6fee400dea0e3f55363436c791d8b.json" := by decide +kernel

theorem clears_straying :
    (ran derivedDirect.getReady straying).1 = .ok () ∧
      FileTree.entry? (ran derivedDirect.getReady straying).2.host.files
          (Location.ofTexts ["s", "store", "images", emptyLayerName]) =
        some (.file writtenMode (written emptyLayer.toDocument)) ∧
      (ran (straying.store.getObject noContext) (ran derivedDirect.getReady straying).2.host).1 =
        .error (.objectNotFound noContext) := by
  unfold straying
  rw [emptyLayerName_eq]
  exact ⟨by decide +kernel, eq_of_modeAndBytes (by decide +kernel), by decide +kernel⟩

end Sample

end ImageRecipe
