import Mathlib.Data.Set.Function
import ImageRecipe.Proofs.StoreContents
import ImageRecipe.Proofs.WorkRooms

/-! Stores whose records are complete: every layer that a record lists can be got from the store in its recorded size.
Contents and records are only ever added, the record after the layers that it lists. -/

namespace ImageRecipe

namespace Store

/-- The names that lead from a store to the object of a digest. -/
def contentNames (hash : String) : List FileName :=
  objectNames ++ [FileName.ofText (fan hash)] ++ [FileName.ofText hash]

/-- The names that lead from a store to the record of a digest. -/
def recordNames (hash : String) : List FileName := imageNames ++ [FileName.ofText (hash ++ ".json")]

/-- The place of an object or of a record. -/
def Precious (S l : Location) : Prop :=
  ∃ hash, IsDigest hash ∧ (l = S ++ contentNames hash ∨ l = S ++ recordNames hash)

/-- The frame in which objects and records are neither made nor written, and lost by clearing alone. -/
def Frame.sparing (clears : Prop) : Frame := fun S l =>
  { makes := ¬ Precious S l
    empties := clears
    drops := ¬ Precious S l
    writes := fun _ => ¬ Precious S l }

section Precious

variable {S l outer : Location} {n : FileName} {hash hash' : String}

theorem contentNames_injective (h : contentNames hash = contentNames hash') : hash = hash' :=
  FileName.ofText_injective (List.singleton_inj.1 (List.append_inj_right' h rfl))

theorem recordNames_injective (h : recordNames hash = recordNames hash') : hash = hash' := by
  have htext := FileName.ofText_injective (List.singleton_inj.1 (List.append_inj_right' h rfl))
  have hlist := congrArg String.toList htext
  rw [String.toList_append, String.toList_append] at hlist
  exact String.toList_inj.1 (List.append_cancel_right hlist)

theorem contentNames_ne_recordNames : contentNames hash ≠ recordNames hash' := by
  intro h
  have := congrArg List.length h
  simp [contentNames, recordNames, objectNames, imageNames] at this

theorem not_precious_of_last
    (hn : ∀ hash, IsDigest hash → n ≠ FileName.ofText hash ∧ n ≠ FileName.ofText (hash ++ ".json")) :
    ¬ Precious S (outer ++ [n]) := by
  rintro ⟨hash, hhash, heq | heq⟩
  · rw [contentNames, ← List.append_assoc] at heq
    exact (hn hash hhash).1 (List.singleton_inj.1 (List.append_inj_right' heq rfl))
  · rw [recordNames, ← List.append_assoc] at heq
    exact (hn hash hhash).2 (List.singleton_inj.1 (List.append_inj_right' heq rfl))

/-- Everything in another room of the store. -/
theorem not_precious_of_room {name : String} {ns : List FileName} (hobjects : name ≠ "objects")
    (himages : name ≠ "images") : ¬ Precious S (S ++ FileName.ofText name :: ns) := by
  rintro ⟨hash, -, heq | heq⟩
  · exact hobjects (FileName.ofText_injective (List.cons.inj (List.append_cancel_left heq)).1)
  · exact himages (FileName.ofText_injective (List.cons.inj (List.append_cancel_left heq)).1)

/-- The rooms of the store, and all that they lie in. -/
theorem not_precious_of_isPrefix (hl : l <+: S ++ [n]) : ¬ Precious S l := by
  have hlength := hl.length_le
  rintro ⟨hash, -, rfl | rfl⟩ <;> simp [contentNames, recordNames, objectNames, imageNames] at hlength

/-- The directories of objects whose digests begin alike, and all that they lie in. -/
theorem not_precious_of_fan (hl : l <+: S ++ (objectNames ++ [n])) : ¬ Precious S l := by
  have hlength := hl.length_le
  rintro ⟨hash, -, rfl | rfl⟩
  · simp [contentNames, objectNames] at hlength
  · have heq := List.append_cancel_left (hl.eq_of_length (by simp [recordNames, imageNames, objectNames]))
    exact absurd (FileName.ofText_injective (List.cons.inj heq).1) (by decide)

theorem Precious.exists_names (h : Precious S l) : ∃ ns, repositoriesName ∉ ns ∧ l = S ++ ns := by
  obtain ⟨hash, hhash, rfl | rfl⟩ := h
  · exact ⟨_, repositoriesName_notMem_objectPath hhash, rfl⟩
  · exact ⟨_, repositoriesName_notMem_recordPath hhash, rfl⟩

theorem Precious.near (h : Precious S l) : Near S l := .inr h.exists_names

end Precious

section Sparing

variable {clears : Prop} {key tag : String}

theorem allowsStore_sparing : (Frame.sparing clears).AllowsStore where
  makes _ _ _ _ := not_precious_of_isPrefix
  version _ := not_precious_of_isPrefix (n := FileName.ofText "version") List.prefix_rfl
  lock _ := not_precious_of_isPrefix (n := FileName.ofText ".lock") List.prefix_rfl

theorem allowsNames_sparing : (Frame.sparing clears).AllowsNames := fun _ _ _ _ hn =>
  not_precious_of_last fun _ hhash =>
    ⟨fun heq => hhash.not_isPlain (heq ▸ hn), fun heq => hhash.not_isPlain_json (heq ▸ hn)⟩

theorem allowsRooms_sparing : (Frame.sparing clears).AllowsRooms := by
  intro S outer n hn
  obtain ⟨name, hname, rfl⟩ := List.mem_map.1 hn
  have hshort : name.toList.length < 64 := by
    simp only [List.mem_cons, List.not_mem_nil, or_false] at hname
    rcases hname with rfl | rfl | rfl | rfl | rfl <;> decide
  refine not_precious_of_last fun hash hhash => ⟨fun heq => ?_, fun heq => ?_⟩ <;>
    · have := congrArg (fun t : String => t.toList.length) (FileName.ofText_injective heq)
      simp [hhash.length_eq] at this
      omega

theorem allowsResult_sparing : (Frame.sparing clears).AllowsResult := fun _ _ _ =>
  not_precious_of_last fun _ hhash => ⟨hhash.ne_resultName.symm, hhash.ne_resultName_json.symm⟩

theorem not_precious_cacheNames (S : Location) (key : String) : ¬ Precious S (S ++ cacheNames key) :=
  not_precious_of_room (by decide) (by decide)

theorem not_precious_tagNames (S : Location) (tag : String) : ¬ Precious S (S ++ tagNames tag) :=
  not_precious_of_room (by decide) (by decide)

end Sparing

variable {s : Store} {packed : Set ByteArray} {h h' : Host}

/-- The store gives the content of a layer in its recorded size. -/
def HoldsLayer (s : Store) (h : Host) (l : LayerRecord) : Prop :=
  ∃ data, h.files.read h.directory (s.objectPath l.digest) = .ok data ∧ Blake3.hex data = l.digest ∧ data.size = l.size

/-- A store whose objects are some contents and whose records list layers that it holds. -/
structure Complete (s : Store) (packed : Set ByteArray) (h : Host) : Prop where
  object : ∀ hash e, IsDigest hash → h.files.entry? (s.place h.directory ++ contentNames hash) = some e →
    ∃ data ∈ packed, Blake3.hex data = hash ∧ e = .file writtenMode data
  record : ∀ hash mode data, IsDigest hash →
    h.files.entry? (s.place h.directory ++ recordNames hash) = some (.file mode data) →
      ∃ r : ImageRecord, data = written r.toDocument ∧ Blake3.hexOfText r.contentText = hash ∧
        ∀ l ∈ r.layers, s.HoldsLayer h l

/-- A store is still plain and complete, and it holds all layers that it held. -/
structure Upheld (s : Store) (packed : Set ByteArray) (h h' : Host) : Prop where
  setting : Host.SameSetting h h'
  plain : s.Plain h'
  complete : s.Complete packed h'
  layers : ∀ l, s.HoldsLayer h l → s.HoldsLayer h' l

/-- What is done to a plain and complete store leaves it so. -/
def Upholds (s : Store) (packed : Set ByteArray) (h h' : Host) : Prop :=
  s.Plain h → s.Complete packed h → s.Upheld packed h h'

instance : Std.Refl (s.Upholds packed) where
  refl h hp hc := ⟨refl h, hp, hc, fun _ => id⟩

instance : IsTrans Host (s.Upholds packed) where
  trans _ _ _ h₁ h₂ hp hc := by
    have hu := h₁ hp hc
    have hv := h₂ hu.plain hu.complete
    exact ⟨IsTrans.trans _ _ _ hu.setting hv.setting, hv.plain, hv.complete, fun l hl => hv.layers l (hu.layers l hl)⟩

/-- The content of a layer that is held is what getting the object gives. -/
theorem HoldsLayer.getObject {l : LayerRecord} (hl : s.HoldsLayer h l) :
    ∃ data, Yields (s.getObject l.digest) h data h ∧ data.size = l.size := by
  obtain ⟨data, hread, hdigest, hsize⟩ := hl
  refine ⟨data, ?_, hsize⟩
  unfold Store.getObject
  refine (yields_bind ..).2 ⟨true, h, (yields_look ..).2 ⟨FileTree.pathExists_of_read hread, rfl⟩, ?_⟩
  refine (yields_bind ..).2 ⟨data, h, (yields_onFiles ..).2 ((yields_inspect ..).2 ⟨hread, rfl⟩), ?_⟩
  simp [hdigest]

theorem leads_content {hash : String} (h : IsDigest hash) : s.Leads (s.objectPath hash) (contentNames hash) :=
  leads_objectPath h

theorem leads_record (r : ImageRecord) : s.Leads (s.recordPath r.id) (recordNames (Blake3.hexOfText r.contentText)) :=
  leads_recordPath r

/-- A layer stays as long as its object does, and the directories on the way. -/
theorem HoldsLayer.kept {l : LayerRecord} (hl : s.HoldsLayer h l) (hp : s.Plain h) (hp' : s.Plain h')
    (hd : h'.directory = h.directory)
    (hdirectories : ∀ p mode, Near (s.place h.directory) p → h.files.entry? p = some (.directory mode) →
      h'.files.entry? p = some (.directory mode))
    (hobject : ∀ hash e, IsDigest hash → h.files.entry? (s.place h.directory ++ contentNames hash) = some e →
      h'.files.entry? (s.place h.directory ++ contentNames hash) = some e) : s.HoldsLayer h' l := by
  obtain ⟨data, hread, hdigest, hsize⟩ := hl
  have hhash : IsDigest l.digest := hdigest ▸ isDigest_hex data
  have hleads := s.leads_content hhash
  refine ⟨data, ?_, hdigest, hsize⟩
  obtain ⟨p, mode, hr, he⟩ := FileTree.read_ok hread
  obtain rfl := hleads.resolve_eq hp hr
  have hunlinked := hleads.unlinked hp'
  rw [hd] at hunlinked ⊢
  have hr' : h'.files.resolve true h.directory (s.objectPath l.digest) =
      .ok (s.place h.directory ++ contentNames l.digest) := by
    refine (hleads.unlinked hp).resolve_kept hunlinked (fun p hpre mode => hdirectories p mode ?_) hr
    exact near_of_isPrefix (repositoriesName_notMem_objectPath hhash) (hleads.named_eq h.directory ▸ hpre)
  rw [← hread]
  refine FileTree.read_congr (hr'.trans hr.symm) fun p hp => ?_
  obtain rfl := Except.ok.inj (hp.symm.trans hr')
  rw [he]
  exact hobject _ _ hhash he

/-- Where objects and records are spared they stay as they were, but for clearing. -/
private theorem entry?_eq_of_precious {clears : Prop} {S l : Location} {e e' : Option Entry} (hl : Precious S l)
    (h : Entry.Changes (Frame.sparing clears S l).kept e e') : e' = e := by
  refine h.eq_of_forbidden (fun h => h hl) ?_ fun _ h => h hl
  rintro e (hempty | ⟨hdrop, -⟩)
  · exact hempty
  · exact hdrop hl

private theorem upheld_of_near {clears : Prop} (hp : s.Plain h) (hc : s.Complete packed h)
    (he : s.Evolves (Frame.sparing clears) h h')
    (hn : ∀ l, Near (s.place h.directory) l →
      Entry.Changes (Frame.sparing clears (s.place h.directory) l).kept (h.files.entry? l) (h'.files.entry? l)) :
    s.Upheld packed h h' := by
  have hsame := (he hp).1
  have hp' := hp.evolves he
  have hprecious : ∀ l, Precious (s.place h.directory) l → h'.files.entry? l = h.files.entry? l :=
    fun l hl => entry?_eq_of_precious hl (hn l hl.near)
  have hlayers : ∀ l, s.HoldsLayer h l → s.HoldsLayer h' l := fun l hl =>
    hl.kept hp hp' hsame.directory
      (fun p mode hnear hd => by
        have := hn p hnear
        rw [hd] at this
        exact this.directory id)
      fun hash e hhash he => by rw [hprecious _ ⟨hash, hhash, .inl rfl⟩, he]
  refine ⟨hsame, hp', ⟨fun hash e hhash he => ?_, fun hash mode data hhash he => ?_⟩, hlayers⟩
  · rw [hsame.directory, hprecious _ ⟨hash, hhash, .inl rfl⟩] at he
    exact hc.object hash e hhash he
  · rw [hsame.directory, hprecious _ ⟨hash, hhash, .inr rfl⟩] at he
    obtain ⟨r, hdata, hdigest, hall⟩ := hc.record hash mode data hhash he
    exact ⟨r, hdata, hdigest, fun l hl => hlayers l (hall l hl)⟩

/-- What spares objects and records, and clears nothing away, leaves a complete store complete. -/
theorem upholds_of_sparing (he : s.Evolves (Frame.sparing False) h h') : s.Upholds packed h h' :=
  fun hp hc => upheld_of_near hp hc he ((he hp).2.near_of_not_empties id)

/-- A store without objects and records is complete. -/
theorem complete_of_empty (hempty : ∀ l, Precious (s.place h.directory) l → h.files.entry? l = none) :
    s.Complete packed h where
  object hash e hhash he := by
    rw [hempty _ ⟨hash, hhash, .inl rfl⟩] at he
    cases he
  record hash mode data hhash he := by
    rw [hempty _ ⟨hash, hhash, .inr rfl⟩] at he
    cases he

/-- A complete store stays complete while objects and records are spared, even if it is cleared away as a whole. -/
theorem Complete.sparing {clears : Prop} (hc : s.Complete packed h) (hp : s.Plain h)
    (he : s.Evolves (Frame.sparing clears) h h') : s.Complete packed h' := by
  rcases (he hp).2.near with hn | ⟨-, hn⟩
  · exact (upheld_of_near hp hc he hn).complete
  · apply complete_of_empty
    rw [(he hp).1.directory]
    intro l hl
    obtain ⟨ns, hns, rfl⟩ := hl.exists_names
    exact entry?_eq_of_precious hl (hn ns hns)

section Writing

variable {data : ByteArray} {hash tag : String} {r : ImageRecord}

/-- A file that is put in the store, where there is no directory, leaves alone what lies elsewhere. -/
private theorem upheld_of_put {l : Location} (hp : s.Plain h) (hc : s.Complete packed h)
    (hno : Entry.NoDirectory (h.files.entry? l))
    (hobject : ∀ hash e, IsDigest hash → h.files.entry? (s.place h.directory ++ contentNames hash) = some e →
      FileTree.entry? (h.files.put l (.file writtenMode data)) (s.place h.directory ++ contentNames hash) = some e)
    (hnew : ∀ hash, IsDigest hash → l = s.place h.directory ++ contentNames hash →
      data ∈ packed ∧ Blake3.hex data = hash)
    (hrecord : ∀ hash, IsDigest hash → l = s.place h.directory ++ recordNames hash →
      ∃ r : ImageRecord, data = written r.toDocument ∧ Blake3.hexOfText r.contentText = hash ∧
        ∀ l ∈ r.layers, s.HoldsLayer h l) :
    s.Upheld packed h { h with files := h.files.put l (.file writtenMode data) } := by
  have hroot : l ≠ [] := by
    rintro rfl
    exact hno _ h.files.entry?_root
  have hself := h.files.entry?_put_self hroot (.file writtenMode data)
  have hp' : s.Plain { h with files := h.files.put l (.file writtenMode data) } := by
    refine ⟨hp.staysBelow, fun p hp' target ht => ?_⟩
    by_cases heq : p = l
    · rw [heq, hself] at ht
      cases ht
    · rw [h.files.entry?_put_of_ne heq] at ht
      exact hp.link_free p hp' target ht
  have hlayers : ∀ m, s.HoldsLayer h m → s.HoldsLayer { h with files := h.files.put l (.file writtenMode data) } m :=
    fun m hm => hm.kept hp hp' rfl
      (fun p mode _ hd => by
        have hne : p ≠ l := fun heq => hno mode (heq ▸ hd)
        rw [h.files.entry?_put_of_ne hne, hd])
      hobject
  refine ⟨.withFiles .., hp', ⟨fun hash e hhash he => ?_, fun hash mode data' hhash he => ?_⟩, hlayers⟩
  · by_cases heq : s.place h.directory ++ contentNames hash = l
    · obtain ⟨hdata, hdigest⟩ := hnew hash hhash heq.symm
      rw [heq, hself] at he
      exact ⟨data, hdata, hdigest, (Option.some.inj he).symm⟩
    · rw [h.files.entry?_put_of_ne heq] at he
      exact hc.object hash e hhash he
  · by_cases heq : s.place h.directory ++ recordNames hash = l
    · obtain ⟨r, hdata, hdigest, hall⟩ := hrecord hash hhash heq.symm
      rw [heq, hself] at he
      cases he
      exact ⟨r, hdata, hdigest, fun m hm => hlayers m (hall m hm)⟩
    · rw [h.files.entry?_put_of_ne heq] at he
      obtain ⟨r, hdata, hdigest, hall⟩ := hc.record hash mode data' hhash he
      exact ⟨r, hdata, hdigest, fun m hm => hlayers m (hall m hm)⟩

/-- A content is written under its digest, where there is no other content. -/
private theorem keeps_writeObject (hinj : Set.InjOn Blake3.hex packed) (hdata : data ∈ packed) :
    Keeps (s.Upholds packed) (onFiles (Host.writeBytes (s.objectPath (Blake3.hex data)) data)) := by
  apply Keeps.onFiles
  apply Keeps.writeBytes
  intro h files hok hp hc
  obtain ⟨l, hl, hno, rfl⟩ := FileTree.write_ok hok
  obtain rfl := (leads_content (isDigest_hex data)).resolve_eq hp hl
  refine upheld_of_put hp hc hno (fun hash e hhash he => ?_) (fun hash _ heq => ?_) fun hash _ heq => ?_
  · by_cases heq : contentNames hash = contentNames (Blake3.hex data)
    · obtain rfl := contentNames_injective heq
      obtain ⟨data', hdata', hdigest, rfl⟩ := hc.object _ e hhash he
      obtain rfl := hinj hdata' hdata hdigest
      exact h.files.entry?_put_self (by simp [contentNames]) _
    · rw [h.files.entry?_put_of_ne fun h => heq (List.append_cancel_left h), he]
  · obtain rfl := contentNames_injective (List.append_cancel_left heq)
    exact ⟨hdata, rfl⟩
  · exact absurd (List.append_cancel_left heq) contentNames_ne_recordNames

theorem keeps_putObject_complete (hinj : Set.InjOn Blake3.hex packed) (hdata : data ∈ packed) :
    Keeps (s.Upholds packed) (s.putObject data) := by
  have hd := isDigest_hex data
  have hmake : Keeps (s.Evolves (Frame.sparing False)) (Host.makePath (Path.join s.objects (fan (Blake3.hex data)))) :=
    (leads_fan hd).keeps_makePath fun _ _ => not_precious_of_fan
  have hready : Keeps (s.Upholds packed) (Host.makePath (Path.join s.objects (fan (Blake3.hex data)))) :=
    hmake.mono fun _ _ => upholds_of_sparing
  have hrest := hready.onFiles.bind fun _ =>
    (keeps_writeObject (s := s) hinj hdata).bind fun _ => Keeps.pure (Blake3.hex data)
  unfold putObject
  refine (Keeps.look ..).bind fun b => ?_
  rw [parent?_objectPath hd]
  split
  · exact hrest
  · exact Keeps.pure _

/-- A content that was kept is read under its digest. -/
theorem read_putObject (hinj : Set.InjOn Blake3.hex packed) (hdata : data ∈ packed) (hp : s.Plain h)
    (hc : s.Complete packed h) {digest : String} (hy : Yields (s.putObject data) h digest h') :
    h'.files.read h'.directory (s.objectPath (Blake3.hex data)) = .ok data := by
  have hd := isDigest_hex data
  have hleads := s.leads_content hd
  unfold putObject at hy
  obtain ⟨b, _, hlook, hy⟩ := (yields_bind ..).1 hy
  obtain ⟨rfl, rfl⟩ := (yields_look ..).1 hlook
  rw [parent?_objectPath hd] at hy
  split at hy
  · obtain ⟨_, h₁, hmake, hy⟩ := (yields_bind ..).1 hy
    obtain ⟨_, h₂, hwrite, hy⟩ := (yields_bind ..).1 hy
    obtain ⟨-, rfl⟩ := (yields_pure ..).1 hy
    have hmade : Keeps (s.Evolves (Frame.sparing False))
        (Host.makePath (Path.join s.objects (fan (Blake3.hex data)))) :=
      (leads_fan hd).keeps_makePath fun _ _ => not_precious_of_fan
    have hp₁ := hp.evolves (hmade.onFiles.yields hmake)
    exact (hleads.evolves_write (contents_of_ne (mt FileName.ofText_injective (by decide)) _) hp₁
      ((yields_onFiles ..).1 hwrite)).2.2
  · next hexists =>
    obtain ⟨-, rfl⟩ := (yields_pure ..).1 hy
    obtain ⟨l, e, hr, he⟩ := FileTree.pathExists_iff.1 (by simpa using hexists)
    obtain rfl := hleads.resolve_eq hp hr
    obtain ⟨data', hdata', hdigest, rfl⟩ := hc.object _ e hd he
    obtain rfl := hinj hdata' hdata hdigest
    exact FileTree.read_eq hr he (FileTree.grants_written _)

/-- A record is written once its layers are there. -/
private theorem upholds_writeRecord (hlayers : ∀ l ∈ r.layers, s.HoldsLayer h l) :
    s.Upholds packed h (ran (writeDocument (s.recordPath r.id) r.toDocument) h).2 := by
  intro hp hc
  unfold writeDocument onFiles Host.writeText Host.writeBytes
  rw [ran_failingAs]
  refine Keeps.bind_at (R := s.Upholds packed) (fun hp hc => ?_) (fun _ h₁ _ => (Keeps.inspect ..).run h₁) hp hc
  unfold Host.replaceFile
  rw [ran_change]
  cases hwrite : h.files.write h.directory (s.recordPath r.id) (Text.bytes (Json.pretty r.toDocument)) with
  | error e => exact refl (r := s.Upholds packed) h hp hc
  | ok files =>
    obtain ⟨l, hl, hno, rfl⟩ := FileTree.write_ok hwrite
    obtain rfl := (s.leads_record r).resolve_eq hp hl
    refine upheld_of_put hp hc hno (fun hash e _ he => ?_) (fun hash _ heq => ?_) fun hash _ heq => ?_
    · rw [h.files.entry?_put_of_ne fun heq => contentNames_ne_recordNames (List.append_cancel_left heq), he]
    · exact absurd (List.append_cancel_left heq).symm contentNames_ne_recordNames
    · obtain rfl := recordNames_injective (List.append_cancel_left heq)
      exact ⟨r, rfl, rfl, hlayers⟩

theorem upholds_putImage (hlayers : ∀ l ∈ r.layers, s.HoldsLayer h l) (tag : String) :
    s.Upholds packed h (ran (s.putImage r tag) h).2 := by
  have htag : Keeps (s.Upholds packed) (writeDocument (s.tagPath tag) (TagEntry.toDocument ⟨tag, r.id⟩)) := by
    refine Keeps.mono (Keeps.onFiles (keeps_writeBytes fun h l hp hl => ?_)) fun _ _ => upholds_of_sparing
    rw [(leads_tagPath tag).resolve_eq hp hl]
    exact not_precious_tagNames _ _
  have hrest : Keeps (s.Upholds packed) (do
      writeDocument (s.tagPath tag) (TagEntry.toDocument ⟨tag, r.id⟩)
      pure r.id) := htag.bind fun _ => Keeps.pure _
  unfold putImage
  refine Keeps.bind_at ((Keeps.look ..).run h) fun b h₁ hlook => ?_
  obtain ⟨-, rfl⟩ := (yields_look ..).1 hlook
  split
  · exact Keeps.bind_at (upholds_writeRecord hlayers) fun _ h₁ _ => hrest.run h₁
  · exact hrest.run _

end Writing

end Store

namespace Direct

variable {s : Store} {packed : Set ByteArray} {h h' : Host} {w : WorkDirectory} {l : Layer} {layers : List Layer}
  {data : ByteArray}

/-- What the directory of a layer is packed to. -/
def PacksLayer (w : WorkDirectory) (h : Host) (l : Layer) (data : ByteArray) : Prop :=
  ∃ options archive, layerOptions l = .ok options ∧
    Archive.packDirectory h.files h.directory (Path.join w.root l.source) options = .ok archive ∧
      data = ⟨archive.toArray⟩

/-- What the directories of layers are packed to, one after another. -/
inductive Packs (s : Store) (w : WorkDirectory) : Host → List Layer → ByteArray → Prop
  | here {h : Host} {l : Layer} {layers : List Layer} {data : ByteArray} (hpack : PacksLayer w h l data) :
    Packs s w h (l :: layers) data
  | later {h h' : Host} {l : Layer} {layers : List Layer} {r : LayerRecord} {data : ByteArray}
    (hput : Yields (putLayer s w l) h r h') (hpack : Packs s w h' layers data) : Packs s w h (l :: layers) data

/-- What is packed for a layer is kept. -/
private theorem putLayer_eq (s : Store) (w : WorkDirectory) (l : Layer) : putLayer s w l = (do
    if !(← Host.isDirectory (Path.join w.root l.source)) then
      throw (.missingLayer l.ordinal (Path.join w.root l.source))
    let options ← HostM.ofExcept (layerOptions l)
    let archive ← Store.onFiles
      (Host.inspect (fun t d p => Archive.packDirectory t d p options) (Path.join w.root l.source))
    let digest ← s.putObject ⟨archive.toArray⟩
    pure ⟨l.ordinal, digest, (⟨archive.toArray⟩ : ByteArray).size, l.destination⟩) := rfl

/-- To keep a layer leaves a complete store complete. -/
theorem upholds_putLayer (hinj : Set.InjOn Blake3.hex packed) (hpacks : ∀ data, PacksLayer w h l data → data ∈ packed) :
    s.Upholds packed h (ran (putLayer s w l) h).2 := by
  have hrest : s.Upholds packed h (ran (do
      let options ← HostM.ofExcept (layerOptions l)
      let archive ← Store.onFiles
        (Host.inspect (fun t d p => Archive.packDirectory t d p options) (Path.join w.root l.source))
      let digest ← s.putObject ⟨archive.toArray⟩
      pure (⟨l.ordinal, digest, (⟨archive.toArray⟩ : ByteArray).size, l.destination⟩ : LayerRecord)) h).2 := by
    refine Keeps.bind_at ((Keeps.ofExcept _).run h) fun options _ hy => ?_
    obtain ⟨hoptions, rfl⟩ := (yields_ofExcept ..).1 hy
    refine Keeps.bind_at ((Keeps.inspect ..).onFiles.run _) fun archive _ hy => ?_
    obtain ⟨harchive, rfl⟩ := (yields_inspect ..).1 ((yields_onFiles ..).1 hy)
    have hdata : (⟨archive.toArray⟩ : ByteArray) ∈ packed := hpacks _ ⟨options, archive, hoptions, harchive, rfl⟩
    exact ((Store.keeps_putObject_complete hinj hdata).bind fun _ => Keeps.pure _).run _
  rw [putLayer_eq]
  refine Keeps.bind_at ((Keeps.look ..).run h) fun b _ hlook => ?_
  obtain ⟨-, rfl⟩ := (yields_look ..).1 hlook
  split
  · rw [ran_bind, ran_throw]
    exact refl _
  · exact hrest

/-- A layer that was kept is held, and it was packed. -/
theorem holds_putLayer (hinj : Set.InjOn Blake3.hex packed) (hpacks : ∀ data, PacksLayer w h l data → data ∈ packed)
    (hp : s.Plain h) (hc : s.Complete packed h) {r : LayerRecord} (hy : Yields (putLayer s w l) h r h') :
    s.HoldsLayer h' r := by
  rw [putLayer_eq] at hy
  obtain ⟨b, _, hlook, hy⟩ := (yields_bind ..).1 hy
  obtain ⟨-, rfl⟩ := (yields_look ..).1 hlook
  split at hy
  · obtain ⟨_, _, hthrow, -⟩ := (yields_bind ..).1 hy
    exact (yields_throw _ _ _ _ hthrow).elim
  · obtain ⟨options, _, hoptions, hy⟩ := (yields_bind ..).1 hy
    obtain ⟨hparsed, rfl⟩ := (yields_ofExcept ..).1 hoptions
    obtain ⟨archive, _, hpack, hy⟩ := (yields_bind ..).1 hy
    obtain ⟨harchive, rfl⟩ := (yields_inspect ..).1 ((yields_onFiles ..).1 hpack)
    obtain ⟨digest, _, hput, hy⟩ := (yields_bind ..).1 hy
    obtain ⟨rfl, rfl⟩ := (yields_pure ..).1 hy
    obtain rfl := Store.digest_putObject hput
    have hdata : (⟨archive.toArray⟩ : ByteArray) ∈ packed := hpacks _ ⟨options, archive, hparsed, harchive, rfl⟩
    exact ⟨_, Store.read_putObject hinj hdata hp hc hput, rfl, rfl⟩

/-- To keep layers leaves a complete store complete. -/
theorem upholds_putLayers (hinj : Set.InjOn Blake3.hex packed) :
    ∀ (layers : List Layer) (h : Host), (∀ data, Packs s w h layers data → data ∈ packed) →
      s.Upholds packed h (ran (layers.mapM (putLayer s w)) h).2
  | [], h, _ => refl h
  | l :: layers, h, hpacks => by
    rw [List.mapM_cons]
    refine Keeps.bind_at (upholds_putLayer hinj fun data hpack => hpacks data (.here hpack)) fun r h₁ hy => ?_
    have hothers := fun data hpack => hpacks data (.later hy hpack)
    exact Keeps.bind_at (upholds_putLayers hinj layers h₁ hothers) fun _ h₂ _ => (Keeps.pure _).run h₂

/-- Layers that were kept one after another are all held in the end. -/
theorem holds_putLayers (hinj : Set.InjOn Blake3.hex packed) :
    ∀ {layers : List Layer} {h h' : Host} {rs : List LayerRecord}, (∀ data, Packs s w h layers data → data ∈ packed) →
      s.Plain h → s.Complete packed h → Yields (layers.mapM (putLayer s w)) h rs h' → ∀ r ∈ rs, s.HoldsLayer h' r
  | [], h, h', rs, _, _, _, hy => by
    obtain ⟨rfl, -⟩ := (yields_mapM_nil ..).1 hy
    simp
  | l :: layers, h, h', rs, hpacks, hp, hc, hy => by
    obtain ⟨r, h₁, rs, hl, hrest, rfl⟩ := (yields_mapM_cons ..).1 hy
    have hfirst := fun data hpack => hpacks data (.here hpack)
    have hothers := fun data hpack => hpacks data (.later hl hpack)
    have hu := upholds_putLayer (s := s) hinj hfirst
    rw [show ran (putLayer s w l) h = (.ok r, h₁) from hl] at hu
    have hheld := hu hp hc
    have hkept := upholds_putLayers hinj layers h₁ hothers
    rw [show ran (layers.mapM (putLayer s w)) h₁ = (.ok rs, h') from hrest] at hkept
    intro m hm
    rcases List.mem_cons.1 hm with rfl | hm
    · exact (hkept hheld.plain hheld.complete).layers _ (holds_putLayer hinj hfirst hp hc hl)
    · exact holds_putLayers hinj hothers hheld.plain hheld.complete hrest m hm

/-- What keeping the layers of a plan packs. -/
def PacksPlan (s : Store) (p : DirectPlan) (w : WorkDirectory) (h : Host) (data : ByteArray) : Prop :=
  ∃ h₁, Yields s.prepare h () h₁ ∧ Packs s w h₁ p.layers data

/-- To keep an image leaves a complete store complete, whether it fails or not. -/
theorem upholds_putPlan (hinj : Set.InjOn Blake3.hex packed) {p : DirectPlan} (tag : String)
    (hpacks : ∀ data, PacksPlan s p w h data → data ∈ packed) : s.Upholds packed h (ran (putPlan s p w tag) h).2 := by
  have hprepare : Keeps (s.Upholds packed) s.prepare :=
    (Store.keeps_prepare Store.allowsStore_sparing).mono fun _ _ => Store.upholds_of_sparing
  intro hp hc
  unfold putPlan
  refine Keeps.bind_at (R := s.Upholds packed) (hprepare.run h) (fun _ h₁ hy => ?_) hp hc
  have hready := hprepare.yields hy hp hc
  have hpacks₁ := fun data hpack => hpacks data ⟨h₁, hy, hpack⟩
  refine Keeps.bind_at (R := s.Upholds packed) (upholds_putLayers hinj p.layers h₁ hpacks₁) fun rs h₂ hy₂ => ?_
  exact Store.upholds_putImage (holds_putLayers hinj hpacks₁ hready.plain hready.complete hy₂) tag

end Direct

end ImageRecipe
