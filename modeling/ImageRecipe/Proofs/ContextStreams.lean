import ImageRecipe.Proofs.ArchivePacks
import ImageRecipe.Proofs.Instructions
import ImageRecipe.Proofs.LayersApart

/-! The bytes that a context's digest is taken of: the archives of the copied layers are told by them, although
nothing in front of an archive says how long it is. -/

namespace ImageRecipe

namespace Archive

/-- A directory that is packed has the same entries with all options. -/
theorem packDirectory_ok {t : FileTree} {d : Location} {path : String} {o : LayerOptions} {a : List UInt8}
    (h : packDirectory t d path o = .ok a) :
    ∃ es, pack o es = .ok a ∧ ∀ o', packDirectory t d path o' = pack o' es := by
  unfold packDirectory at h ⊢
  cases hr : t.resolve true d path with
  | error e =>
    simp only [hr] at h
    exact ⟨[], h, fun o' => rfl⟩
  | ok l =>
    simp only [hr] at h ⊢
    cases he : t.entry? l with
    | none =>
      simp only [he] at h
      exact ⟨[], h, fun o' => rfl⟩
    | some e =>
      cases e with
      | directory mode =>
        simp only [he] at h ⊢
        obtain ⟨u, hreadable, hpack⟩ := bind_eq_ok.1 h
        refine ⟨_, hpack, fun o' => ?_⟩
        rw [hreadable]
        simp only [bind, Except.bind]
      | file | link | pipe => simp [he] at h

/-- Where the archive of a directory ends is seen from its bytes, and directories with one archive have one
archive with every owner. -/
theorem packDirectory_append_inj {t t' : FileTree} {d d' : Location} {path path' : String} {o : LayerOptions}
    {a a' r r' : List UInt8} (h : packDirectory t d path o = .ok a) (h' : packDirectory t' d' path' o = .ok a')
    (hl : (a ++ r).length < Text.limit64) (heq : a ++ r = a' ++ r') :
    (∀ owner, packDirectory t d path (o.owned owner) = packDirectory t' d' path' (o.owned owner)) ∧ r = r' := by
  obtain ⟨es, hpack, hsame⟩ := packDirectory_ok h
  obtain ⟨es', hpack', hsame'⟩ := packDirectory_ok h'
  obtain ⟨howned, hr⟩ := pack_append_inj hpack hpack' hl heq
  exact ⟨fun owner => by rw [hsame, hsame', howned], hr⟩

end Archive

namespace BuildContext

variable {w w' : Workshop} {d d' : WorkDirectory}

/-- What a directory has in a context: its heading and its archive. -/
def layerPart (h : Host) (d : WorkDirectory) (n : Nat) : Except Fault (List UInt8) :=
  (Archive.packDirectory h.files h.directory (d.layer n) {}).map fun a =>
    Archive.bytesOfText ("layer" ++ Text.decimal n ++ "\n") ++ a

theorem yields_headed {heading path : String} {bs : List UInt8}
    (hd : w.host.files.isDirectory w.host.directory path = true) (h : Yields (headed heading path) w bs w') :
    ∃ a, Archive.packDirectory w.host.files w.host.directory path {} = .ok a ∧
      bs = Archive.bytesOfText (heading ++ "\n") ++ a := by
  unfold headed at h
  obtain ⟨a, w₁, hsource, h⟩ := (yields_bind ..).1 h
  obtain ⟨rfl, -⟩ := (yields_pure ..).1 h
  refine ⟨a, ?_, rfl⟩
  unfold sourceBytes at hsource
  obtain ⟨_, _, hget, hsource⟩ := (yields_bind ..).1 hsource
  obtain ⟨rfl, rfl⟩ := (yields_get ..).1 hget
  dsimp only at hsource
  rw [if_pos hd] at hsource
  obtain ⟨host, hinspect, -⟩ := (yields_onHost ..).1 hsource
  exact ((yields_inspect ..).1 hinspect).1

theorem yields_layers {ns : List Nat}
    (hd : ∀ n ∈ ns, w.host.files.isDirectory w.host.directory (d.layer n) = true) : ∀ {parts w'},
    Yields (ns.mapM fun n => headed ("layer" ++ Text.decimal n) (d.layer n)) w parts w' →
      ns.mapM (layerPart w.host d) = .ok parts := by
  induction ns with
  | nil =>
    intro parts w' h
    obtain ⟨rfl, -⟩ := (yields_mapM_nil ..).1 h
    rfl
  | cons n ns ih =>
    intro parts w' h
    obtain ⟨part, w₁, parts, hpart, hparts, rfl⟩ := (yields_mapM_cons ..).1 h
    obtain rfl := (keeps_headed ..).yields hpart
    obtain ⟨a, ha, rfl⟩ := yields_headed (hd n (by simp)) hpart
    rw [List.mapM_cons, ih (fun n hn => hd n (by simp [hn])) hparts]
    unfold layerPart
    rw [ha]
    rfl

/-- The bytes of a direct plan's context are the line of its base and the parts of its layers. -/
theorem yields_stream {instructions : List Instruction} {p : DirectPlan} {bs : List UInt8}
    (hd : ∀ n ∈ copiedLayers instructions, w.host.files.isDirectory w.host.directory (d.layer n) = true)
    (h : Yields (stream d instructions (.direct p)) w bs w') :
    ∃ parts, (copiedLayers instructions).mapM (layerPart w.host d) = .ok parts ∧
      bs = Archive.bytesOfText (baseLines instructions) ++ parts.flatten := by
  unfold stream at h
  obtain ⟨parts, w₁, hparts, h⟩ := (yields_bind ..).1 h
  obtain ⟨mounts, w₂, hmounts, h⟩ := (yields_bind ..).1 h
  obtain ⟨rfl, -⟩ := (yields_pure ..).1 h
  obtain ⟨rfl, -⟩ := (yields_mapM_nil ..).1 hmounts
  exact ⟨parts, yields_layers hd hparts, by rw [List.flatten_nil, List.append_nil]⟩

/-- Contexts with the same bytes have layers that are packed alike with every owner. -/
theorem packDirectory_eq_of_parts {h h' : Host} : ∀ {ns : List Nat} {parts parts' : List (List UInt8)},
    ns.mapM (layerPart h d) = .ok parts → ns.mapM (layerPart h' d') = .ok parts' →
    parts.flatten.length < Text.limit64 → parts.flatten = parts'.flatten →
    ∀ n ∈ ns, ∀ owner, Archive.packDirectory h.files h.directory (d.layer n) (LayerOptions.owned {} owner) =
      Archive.packDirectory h'.files h'.directory (d'.layer n) (LayerOptions.owned {} owner) := by
  intro ns
  induction ns with
  | nil => simp
  | cons n ns ih =>
    intro parts parts' hparts hparts' hl heq
    have hcons : ∀ {h : Host} {d : WorkDirectory} {parts}, (n :: ns).mapM (layerPart h d) = .ok parts →
        ∃ a rest, Archive.packDirectory h.files h.directory (d.layer n) {} = .ok a ∧
          ns.mapM (layerPart h d) = .ok rest ∧
          parts.flatten = Archive.bytesOfText ("layer" ++ Text.decimal n ++ "\n") ++ (a ++ rest.flatten) := by
      intro h d parts hparts
      rw [List.mapM_cons] at hparts
      obtain ⟨part, hpart, hparts⟩ := bind_eq_ok.1 hparts
      obtain ⟨rest, hrest, hparts⟩ := bind_eq_ok.1 hparts
      obtain ⟨a, ha, rfl⟩ := map_eq_ok.1 hpart
      cases hparts
      exact ⟨a, rest, ha, hrest, by rw [List.flatten_cons, List.append_assoc]⟩
    obtain ⟨a, rest, ha, hrest, hsplit⟩ := hcons hparts
    obtain ⟨a', rest', ha', hrest', hsplit'⟩ := hcons hparts'
    rw [hsplit, hsplit'] at heq
    rw [hsplit] at hl
    have hl := Archive.lt_of_append hl
    obtain ⟨hsame, hr⟩ := Archive.packDirectory_append_inj ha ha' hl (List.append_cancel_left heq)
    intro m hm
    rcases List.mem_cons.1 hm with rfl | hm
    · exact hsame
    · exact ih hrest hrest' (Archive.lt_of_append hl) hr m hm

end BuildContext

/-- Layers that instructions copy have one record if their directories are packed alike with every owner. -/
theorem Direct.packLayer_congr {h h' : Host} {d d' : WorkDirectory} {n : Nat} {owner : Option String}
    (heq : ∀ o, Archive.packDirectory h.files h.directory (d.layer n) (LayerOptions.owned {} o) =
      Archive.packDirectory h'.files h'.directory (d'.layer n) (LayerOptions.owned {} o)) :
    packLayer h d ⟨n, layerSource n, "/", owner, .preserve⟩ =
      packLayer h' d' ⟨n, layerSource n, "/", owner, .preserve⟩ := by
  unfold packLayer layerOptions
  dsimp only
  cases Ownership.parse owner with
  | error e => rfl
  | ok o =>
    have := heq o
    unfold LayerOptions.owned WorkDirectory.layer WorkDirectory.path at this
    simp only [pure, Except.pure, bind, Except.bind]
    rw [this]

end ImageRecipe
