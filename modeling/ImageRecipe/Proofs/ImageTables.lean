import Mathlib.Data.Set.Function
import ImageRecipe.Proofs.ContentIdentity
import ImageRecipe.Proofs.PreparedStores
import ImageRecipe.Proofs.StoreReads

/-! The images of a store over a history of calls: two tables, one of records by their ids and one of ids by their
tags. The directory of records and the directory of tags are shelves that hold what the tables say. -/

namespace ImageRecipe

/-- A call of the images of a store. -/
inductive ImageCall where
  | put (record : ImageRecord) (tag : String)
  | get (id : String)
  | resolve (tag : String)
  | untag (tag : String)
  | list

namespace ImageCall

/-- What a call gives if it does not fail. -/
abbrev Answer : ImageCall → Type
  | put .. => String
  | get _ => ImageRecord
  | resolve _ => Option String
  | untag _ => Bool
  | list => List TagEntry

def perform (s : Store) : (c : ImageCall) → StoreM c.Answer
  | put r tag => s.putImage r tag
  | get id => s.getImage id
  | resolve tag => s.resolveTag tag
  | untag tag => s.untag tag
  | list => s.listTags

/-- The host after calls of which the first in the list is the last. -/
def after (s : Store) (h : Host) : List ImageCall → Host
  | [] => h
  | c :: calls => (ran (c.perform s) (after s h calls)).2

/-- The records that were put, by their ids. -/
def recordTable : List ImageCall → String → Option ImageRecord
  | put r _ :: calls => Function.update (recordTable calls) r.id (some r)
  | _ :: calls => recordTable calls
  | [] => fun _ => none

/-- The ids that were last put under tags which were not dropped since. -/
def tagTable : List ImageCall → String → Option String
  | put r tag :: calls => Function.update (tagTable calls) tag (some r.id)
  | untag tag :: calls => Function.update (tagTable calls) tag none
  | _ :: calls => tagTable calls
  | [] => fun _ => none

/-- A text that a call takes the digest of. -/
def Hashes : ImageCall → String → Prop
  | put r tag, text => text = r.contentText ∨ text = tag
  | resolve tag, text => text = tag
  | untag tag, text => text = tag
  | get _, _ => False
  | list, _ => False

/-- The outcome of a call after a history is what the tables say. -/
def Meets (calls : List ImageCall) : (c : ImageCall) → Except StoreError c.Answer → Prop
  | put r _, a => a = .ok r.id
  | get id, a => ∀ r tag, put r tag ∈ calls → r.id = id → a = .ok r
  | resolve tag, a => a = .ok (tagTable calls tag)
  | untag tag, a => a = .ok (tagTable calls tag).isSome
  | list, a => ∃ l, a = .ok l ∧ l.Pairwise (fun e e' => e.tag < e'.tag) ∧
      ∀ e, e ∈ l ↔ tagTable calls e.tag = some e.imageId

/-! What is in the tables was put. -/

theorem exists_put_of_recordTable {calls : List ImageCall} {id : String} {r : ImageRecord}
    (h : recordTable calls id = some r) : r.id = id ∧ ∃ tag, put r tag ∈ calls := by
  induction calls with
  | nil => cases h
  | cons c calls ih =>
    have hrest : recordTable calls id = some r → r.id = id ∧ ∃ tag, put r tag ∈ c :: calls := fun h =>
      (ih h).imp_right fun ⟨tag, hput⟩ => ⟨tag, .tail _ hput⟩
    cases c with
    | put r' tag =>
      by_cases heq : id = r'.id
      · rw [recordTable, heq, Function.update_self] at h
        cases h
        exact ⟨heq.symm, tag, List.mem_cons_self⟩
      · rw [recordTable, Function.update_of_ne heq] at h
        exact hrest h
    | get | resolve | untag | list => exact hrest h

theorem exists_put_of_tagTable {calls : List ImageCall} {tag id : String} (h : tagTable calls tag = some id) :
    ∃ r, put r tag ∈ calls := by
  induction calls with
  | nil => cases h
  | cons c calls ih =>
    have hrest : tagTable calls tag = some id → ∃ r, put r tag ∈ c :: calls := fun h =>
      (ih h).imp fun _ => .tail _
    cases c with
    | put r tag' =>
      by_cases heq : tag = tag'
      · exact ⟨r, heq ▸ List.mem_cons_self⟩
      · rw [tagTable, Function.update_of_ne heq] at h
        exact hrest h
    | untag tag' =>
      by_cases heq : tag = tag'
      · rw [tagTable, heq, Function.update_self] at h
        cases h
      · rw [tagTable, Function.update_of_ne heq] at h
        exact hrest h
    | get | resolve | list => exact hrest h

/-- Calls whose records have numbers that their fields hold, and which never take one digest of two texts. -/
structure Tellable (calls : List ImageCall) : Prop where
  fits : ∀ r tag, put r tag ∈ calls → r.Fits
  injOn : Set.InjOn Blake3.hexOfText {text | ∃ c ∈ calls, c.Hashes text}

namespace Tellable

variable {calls : List ImageCall} {c : ImageCall} {r r' : ImageRecord} {tag tag' : String}

theorem tail (h : Tellable (c :: calls)) : Tellable calls where
  fits r tag hput := h.fits r tag (.tail _ hput)
  injOn := by
    apply h.injOn.mono
    rintro text ⟨c, hc, hhashes⟩
    exact ⟨c, .tail _ hc, hhashes⟩

theorem text_eq (h : Tellable calls) {c' : ImageCall} (hc : c ∈ calls) (hc' : c' ∈ calls) {text text' : String}
    (htext : c.Hashes text) (htext' : c'.Hashes text') (heq : Blake3.hexOfText text = Blake3.hexOfText text') :
    text = text' := h.injOn ⟨c, hc, htext⟩ ⟨c', hc', htext'⟩ heq

theorem record_eq (h : Tellable calls) (hput : put r tag ∈ calls) (hput' : put r' tag' ∈ calls)
    (hid : r.id = r'.id) : r = r' := by
  have hdigest : Blake3.hexOfText r.contentText = Blake3.hexOfText r'.contentText := String.append_right_inj _ |>.1 hid
  exact ImageRecord.eq_of_contentText (h.fits r tag hput) (h.fits r' tag' hput')
    (h.text_eq hput hput' (.inl rfl) (.inl rfl) hdigest)

/-- Whatever was put is found in the table of records. -/
theorem recordTable_id (h : Tellable calls) (hput : put r tag ∈ calls) : recordTable calls r.id = some r := by
  induction calls with
  | nil => cases hput
  | cons c calls ih =>
    cases c with
    | put r' tag' =>
      by_cases heq : r.id = r'.id
      · rw [recordTable, heq, Function.update_self, h.record_eq hput List.mem_cons_self heq]
      · rw [recordTable, Function.update_of_ne heq]
        rcases List.mem_cons.1 hput with hput | hput
        · cases hput
          exact absurd rfl heq
        · exact ih h.tail hput
    | get | resolve | untag | list => exact ih h.tail ((List.mem_cons.1 hput).resolve_left (by simp))

end Tellable

end ImageCall

namespace Store

open ImageCall (recordTable tagTable)

/-- The name of the file of a tag. -/
def tagName (tag : String) : FileName := FileName.ofText (Blake3.hexOfText tag)

/-- What the file of a tag says. -/
def tagData (tag id : String) : ByteArray := written (TagEntry.toDocument ⟨tag, id⟩)

/-- The name of the file of an id's record. -/
def recordName (id : String) : FileName :=
  FileName.ofText (((Text.dropStart? ImageRecord.idAlgorithm.toList id.toList).map String.ofList).getD id ++ ".json")

/-- A store with no images: it has a directory for records and another one for tags, and both are empty. -/
def HasNoImages (s : Store) (h : Host) : Prop :=
  ∃ I T, h.files.Shelf h.directory nameRoom s.images I (fun _ => none) ∧
    h.files.Shelf h.directory nameRoom s.tags T (fun _ => none) ∧ I ≠ T

/-- A store that is prepared where nothing was has no images. -/
theorem hasNoImages_prepare {s : Store} {h h' : Host} (hf : s.Furnished h []) (hs : s.Short)
    (hy : Yields s.prepare h () h') : s.HasNoImages h' := by
  obtain ⟨hI, hemptyI⟩ := hf.prepare hs hy "images" (by simp [roomNames])
  obtain ⟨hT, hemptyT⟩ := hf.prepare hs hy "tags" (by simp [roomNames])
  refine ⟨_, _, ⟨hI, fun n => ?_⟩, ⟨hT, fun n => ?_⟩, fun heq => ?_⟩
  · simpa using hemptyI n []
  · simpa using hemptyT n []
  · have := FileName.ofText_injective (List.singleton_inj.1 (List.append_cancel_left heq))
    exact absurd this (by decide)

/-- The directories of records and of tags hold what two tables say. -/
structure HoldsImages (s : Store) (records : String → Option ImageRecord) (tags : String → Option String) (h : Host)
    (I T : Location) (recorded tagged : FileName → Option ByteArray) : Prop where
  imageShelf : h.files.Shelf h.directory nameRoom s.images I recorded
  imageTable : Tabulates records recordName (fun _ r => written r.toDocument) recorded
  tagShelf : h.files.Shelf h.directory nameRoom s.tags T tagged
  tagTable : Tabulates tags tagName tagData tagged
  ne : I ≠ T

theorem recordName_id (r : ImageRecord) :
    recordName r.id = FileName.ofText (Blake3.hexOfText r.contentText ++ ".json") := by
  unfold recordName
  rw [digest_id]

/-- The files of records are told apart by ids. -/
theorem apart_recordName {calls : List ImageCall} (r : ImageRecord) :
    Tabulates.Apart (recordTable calls) recordName r.id := by
  intro other r' hr' hname
  obtain ⟨rfl, -⟩ := ImageCall.exists_put_of_recordTable hr'
  rw [recordName_id, recordName_id] at hname
  have hdigest := String.append_left_inj _ |>.1 (FileName.ofText_injective hname)
  unfold ImageRecord.id
  rw [hdigest]

/-- The files of tags are told apart by tags, as long as no digest is taken of two texts. -/
theorem apart_tagName {calls : List ImageCall} {c : ImageCall} {tag : String} (ht : ImageCall.Tellable (c :: calls))
    (hc : c.Hashes tag) : Tabulates.Apart (tagTable calls) tagName tag := by
  intro other id hid hname
  obtain ⟨r, hput⟩ := ImageCall.exists_put_of_tagTable hid
  exact ht.text_eq (.tail _ hput) List.mem_cons_self (.inr rfl) hc (FileName.ofText_injective hname)

theorem fits_tag (tag : String) : Path.Fits nameRoom (Blake3.hexOfText tag) :=
  (isDigest_hexOfText tag).fits.mono (by decide)

theorem fits_record (r : ImageRecord) : Path.Fits nameRoom (Blake3.hexOfText r.contentText ++ ".json") :=
  (isDigest_hexOfText _).fits_json

namespace HoldsImages

variable {s : Store} {records : String → Option ImageRecord} {tags : String → Option String} {h : Host} {I T : Location}
  {recorded tagged : FileName → Option ByteArray} {r : ImageRecord} {tag id : String}

theorem pathExists_tagPath (hs : s.HoldsImages records tags h I T recorded tagged)
    (ha : Tabulates.Apart tags tagName tag) :
    h.files.pathExists h.directory (s.tagPath tag) = (tags tag).isSome := by
  have hcontent := hs.tagTable.content_eq ha
  rw [tagName] at hcontent
  rw [tagPath, hs.tagShelf.pathExists_join (fits_tag tag), hcontent, Option.isSome_map]

theorem read_tagPath (hs : s.HoldsImages records tags h I T recorded tagged) (hid : tags tag = some id) :
    h.files.read h.directory (s.tagPath tag) = .ok (tagData tag id) :=
  hs.tagShelf.read_join (fits_tag tag) ((hs.tagTable _ _).2 ⟨tag, id, hid, rfl, rfl⟩)

theorem pathExists_recordPath (hs : s.HoldsImages records tags h I T recorded tagged)
    (ha : Tabulates.Apart records recordName r.id) :
    h.files.pathExists h.directory (s.recordPath r.id) = (records r.id).isSome := by
  have hcontent := hs.imageTable.content_eq ha
  rw [recordName_id] at hcontent
  rw [recordPath_id, hs.imageShelf.pathExists_join (fits_record r), hcontent, Option.isSome_map]

theorem read_recordPath (hs : s.HoldsImages records tags h I T recorded tagged) (hr : records r.id = some r) :
    h.files.read h.directory (s.recordPath r.id) = .ok (written r.toDocument) := by
  rw [recordPath_id]
  refine hs.imageShelf.read_join (fits_record r) ((hs.imageTable _ _).2 ⟨r.id, r, hr, ?_, rfl⟩)
  rw [recordName_id]

/-! What the calls do to the tables. -/

theorem writeRecord (hs : s.HoldsImages records tags h I T recorded tagged)
    (ha : Tabulates.Apart records recordName r.id) :
    ∃ h' recorded', Yields (writeDocument (s.recordPath r.id) r.toDocument) h () h' ∧
      s.HoldsImages (Function.update records r.id (some r)) tags h' I T recorded' tagged := by
  have hn := fits_record r
  have htable := hs.imageTable.update ha (some r)
  rw [recordName_id] at htable
  rw [recordPath_id]
  have hyields := (yields_onFiles ..).2 (hs.imageShelf.yields_writeBytes hn (written r.toDocument))
  exact ⟨_, _, hyields, hs.imageShelf.put _ _, htable, hs.tagShelf.put_elsewhere hs.imageShelf hs.ne.symm _ _,
    hs.tagTable, hs.ne⟩

theorem writeTag (hs : s.HoldsImages records tags h I T recorded tagged) (ha : Tabulates.Apart tags tagName tag)
    (id : String) :
    ∃ h' tagged', Yields (writeDocument (s.tagPath tag) (TagEntry.toDocument ⟨tag, id⟩)) h () h' ∧
      s.HoldsImages records (Function.update tags tag (some id)) h' I T recorded tagged' := by
  have hn := fits_tag tag
  have hyields := (yields_onFiles ..).2 (hs.tagShelf.yields_writeBytes hn (tagData tag id))
  exact ⟨_, _, hyields, hs.imageShelf.put_elsewhere hs.tagShelf hs.ne _ _, hs.imageTable, hs.tagShelf.put _ _,
    hs.tagTable.update ha (some id), hs.ne⟩

theorem removeTag (hs : s.HoldsImages records tags h I T recorded tagged) (ha : Tabulates.Apart tags tagName tag)
    (hid : tags tag = some id) :
    ∃ h' tagged', Yields (onFiles (Host.remove (s.tagPath tag))) h () h' ∧
      s.HoldsImages records (Function.update tags tag none) h' I T recorded tagged' := by
  have hn := fits_tag tag
  have hfile := (hs.tagTable (tagName tag) (tagData tag id)).2 ⟨tag, id, hid, rfl, rfl⟩
  have hyields := (yields_onFiles ..).2 (hs.tagShelf.yields_remove hn hfile)
  exact ⟨_, _, hyields, hs.imageShelf.erase_elsewhere hs.tagShelf hs.ne _, hs.imageTable, hs.tagShelf.erase _,
    hs.tagTable.update ha none, hs.ne⟩

theorem putImage (hs : s.HoldsImages records tags h I T recorded tagged)
    (hr : Tabulates.Apart records recordName r.id) (hsame : ∀ r', records r.id = some r' → r' = r)
    (ht : Tabulates.Apart tags tagName tag) :
    ∃ h' recorded' tagged', Yields (s.putImage r tag) h r.id h' ∧
      s.HoldsImages (Function.update records r.id (some r)) (Function.update tags tag (some r.id)) h' I T recorded'
        tagged' := by
  have hlook : Yields (Host.pathExists (s.recordPath r.id) : StoreM Bool) h (records r.id).isSome h :=
    (yields_look ..).2 ⟨hs.pathExists_recordPath hr, rfl⟩
  unfold Store.putImage
  cases hfound : records r.id with
  | none =>
    obtain ⟨h₁, recorded', hwrite, hs₁⟩ := hs.writeRecord hr
    obtain ⟨h₂, tagged', htag, hs₂⟩ := hs₁.writeTag ht r.id
    refine ⟨h₂, recorded', tagged', (yields_bind ..).2 ⟨_, _, hlook, ?_⟩, hs₂⟩
    rw [hfound]
    exact (yields_bind ..).2 ⟨_, _, hwrite, (yields_bind ..).2 ⟨_, _, htag, (yields_pure ..).2 ⟨rfl, rfl⟩⟩⟩
  | some r' =>
    obtain ⟨h₂, tagged', htag, hs₂⟩ := hs.writeTag ht r.id
    have hkept : Function.update records r.id (some r) = records := by
      rw [hsame r' hfound] at hfound
      rw [← hfound, Function.update_eq_self]
    refine ⟨h₂, recorded, tagged', (yields_bind ..).2 ⟨_, _, hlook, ?_⟩, hkept.symm ▸ hs₂⟩
    rw [hfound]
    exact (yields_bind ..).2 ⟨_, _, htag, (yields_pure ..).2 ⟨rfl, rfl⟩⟩

theorem getImage (hs : s.HoldsImages records tags h I T recorded tagged)
    (ha : Tabulates.Apart records recordName r.id) (hf : r.Fits) (hr : records r.id = some r) :
    Yields (s.getImage r.id) h r h := by
  unfold Store.getImage
  refine (yields_bind ..).2 ⟨true, h, (yields_look ..).2 ⟨by rw [hs.pathExists_recordPath ha, hr]; rfl, rfl⟩, ?_⟩
  refine (yields_bind ..).2 ⟨r, h, yields_readDocument.2 ⟨rfl, _, hs.read_recordPath hr, ?_⟩, by simp⟩
  exact ImageRecord.readBack?_written hf

theorem resolveTag (hs : s.HoldsImages records tags h I T recorded tagged) (ha : Tabulates.Apart tags tagName tag) :
    Yields (s.resolveTag tag) h (tags tag) h := by
  unfold Store.resolveTag
  refine (yields_bind ..).2 ⟨_, h, (yields_look ..).2 ⟨hs.pathExists_tagPath ha, rfl⟩, ?_⟩
  cases hid : tags tag with
  | none => exact (yields_pure ..).2 ⟨rfl, rfl⟩
  | some id =>
    refine (yields_bind ..).2 ⟨⟨tag, id⟩, h, yields_readDocument.2 ⟨rfl, _, hs.read_tagPath hid, ?_⟩, by simp⟩
    exact TagEntry.readBack?_written _

theorem untag (hs : s.HoldsImages records tags h I T recorded tagged) (ha : Tabulates.Apart tags tagName tag) :
    ∃ h' tagged', Yields (s.untag tag) h (tags tag).isSome h' ∧
      s.HoldsImages records (Function.update tags tag none) h' I T recorded tagged' := by
  have hlook : Yields (Host.pathExists (s.tagPath tag) : StoreM Bool) h (tags tag).isSome h :=
    (yields_look ..).2 ⟨hs.pathExists_tagPath ha, rfl⟩
  unfold Store.untag
  cases hid : tags tag with
  | none =>
    have hkept : Function.update tags tag none = tags := by rw [← hid, Function.update_eq_self]
    refine ⟨h, tagged, (yields_bind ..).2 ⟨_, _, hlook, ?_⟩, hkept.symm ▸ hs⟩
    rw [hid]
    exact (yields_pure ..).2 ⟨rfl, rfl⟩
  | some id =>
    obtain ⟨h', tagged', hremove, hs'⟩ := hs.removeTag ha hid
    refine ⟨h', tagged', (yields_bind ..).2 ⟨_, _, hlook, ?_⟩, hs'⟩
    rw [hid]
    exact (yields_bind ..).2 ⟨_, _, hremove, (yields_pure ..).2 ⟨rfl, rfl⟩⟩

/-- The names in the directory of tags are the digests of the tags that lead somewhere. -/
theorem mem_tagFiles (hs : s.HoldsImages records tags h I T recorded tagged) {n : String} :
    n ∈ (h.files.children T).filterMap FileName.text? ↔ ∃ tag id, tags tag = some id ∧ n = Blake3.hexOfText tag := by
  rw [mem_filterMap_text?, hs.tagShelf.mem_children, hs.tagTable.content_ne_none]
  refine exists_congr fun tag => exists_congr fun id => and_congr_right fun _ => ?_
  exact ⟨fun hn => FileName.ofText_injective hn, fun hn => congrArg FileName.ofText hn⟩

theorem listTags (hs : s.HoldsImages records tags h I T recorded tagged)
    (ha : ∀ tag id, tags tag = some id → Tabulates.Apart tags tagName tag) :
    ∃ l, Yields s.listTags h l h ∧ l.Pairwise (fun e e' => e.tag < e'.tag) ∧
      ∀ e, e ∈ l ↔ tags e.tag = some e.imageId := by
  have hnames := fun n => hs.mem_tagFiles (n := n)
  have hnodup := nodup_filterMap_text? (h.files.nodup_children T)
  have hlist := hs.tagShelf.yields_list
  generalize (h.files.children T).filterMap FileName.text? = names at hnames hnodup hlist
  have hvisible : names.filter (fun n => !isHidden n) = names := by
    rw [List.filter_eq_self]
    intro n hn
    obtain ⟨tag, -, -, rfl⟩ := (hnames n).1 hn
    rw [(isDigest_hexOfText tag).isHidden_eq]
    rfl
  -- each file gives the entry of the tag that it is named for
  have hread : ∀ n ∈ names, ∃ e, Yields
      (readDocument (some TagEntry.form) TagEntry.ofDocument? (Path.join s.tags n)) h e h ∧
        tags e.tag = some e.imageId ∧ Blake3.hexOfText e.tag = n := by
    intro n hn
    obtain ⟨tag, id, hid, rfl⟩ := (hnames n).1 hn
    exact ⟨⟨tag, id⟩, yields_readDocument.2 ⟨rfl, _, hs.read_tagPath hid, TagEntry.readBack?_written _⟩, hid, rfl⟩
  have : Inhabited TagEntry := ⟨⟨"", ""⟩⟩
  choose! entry hyields hid hdigest using hread
  have hmem : ∀ e, e ∈ names.map entry ↔ tags e.tag = some e.imageId := by
    intro e
    rw [List.mem_map]
    constructor
    · rintro ⟨n, hn, rfl⟩
      exact hid n hn
    · intro he
      have hn := (hnames _).2 ⟨e.tag, e.imageId, he, rfl⟩
      have htag := ha _ _ he _ _ (hid _ hn) (congrArg FileName.ofText (hdigest _ hn))
      have hsame := hid _ hn
      rw [htag, he] at hsame
      refine ⟨_, hn, ?_⟩
      generalize entry _ = e' at htag hsame
      cases e'
      cases e
      simp_all
  have hapart : ((names.map entry).map TagEntry.tag).Nodup := by
    have hback : ((names.map entry).map TagEntry.tag).map Blake3.hexOfText = names := by
      rw [List.map_map, List.map_map]
      exact (List.map_congr_left hdigest).trans (List.map_id names)
    exact .of_map Blake3.hexOfText (by rwa [hback])
  refine ⟨_, ?_, pairwise_lt_mergeSort TagEntry.tag hapart, fun e => ?_⟩
  · unfold Store.listTags
    refine (yields_bind ..).2 ⟨true, h, (yields_look ..).2 ⟨hs.tagShelf.pathExists, rfl⟩, ?_⟩
    refine (yields_bind ..).2 ⟨names, h, (yields_onFiles ..).2 hlist, ?_⟩
    refine (yields_bind ..).2 ⟨names.map entry, h, ?_, (yields_pure ..).2 ⟨rfl, rfl⟩⟩
    rw [hvisible]
    exact yields_mapM_map hyields
  · rw [List.mem_mergeSort, hmem]

end HoldsImages

/-- To look for an image changes nothing. -/
theorem keeps_getImage (s : Store) (id : String) : Keeps Eq (s.getImage id) := by
  have hread : Keeps Eq (do
      let r ← readDocument none ImageRecord.ofDocument? (s.recordPath id)
      if r.id ≠ id then throw (.integrity id r.id)
      pure r : StoreM ImageRecord) := by
    refine (Keeps.readDocument ..).bind fun r => ?_
    split
    · exact Keeps.throw _
    · exact Keeps.pure _
  unfold getImage
  refine (Keeps.look ..).bind fun b => ?_
  split
  · exact Keeps.throw _
  · exact hread

end Store

namespace ImageCall

variable {s : Store} {h : Host} {I T : Location} {recorded tagged : FileName → Option ByteArray}
  {calls : List ImageCall} {c : ImageCall}

/-- The tables of a history are in the directories of a store. -/
def Stored (s : Store) (calls : List ImageCall) (h : Host) : Prop :=
  ∃ I T recorded tagged, s.HoldsImages (recordTable calls) (tagTable calls) h I T recorded tagged

/-- A call does what the tables say and keeps them. -/
theorem stored_step (hs : Stored s calls h) (ht : Tellable (c :: calls)) :
    c.Meets calls (ran (c.perform s) h).1 ∧ Stored s (c :: calls) (ran (c.perform s) h).2 := by
  obtain ⟨I, T, recorded, tagged, hs⟩ := hs
  cases c with
  | put r tag =>
    have hsame : ∀ r', recordTable calls r.id = some r' → r' = r := by
      intro r' hr'
      obtain ⟨hid, tag', hput⟩ := exists_put_of_recordTable hr'
      exact ht.record_eq (.tail _ hput) List.mem_cons_self hid
    obtain ⟨h', recorded', tagged', hy, hs'⟩ :=
      hs.putImage (Store.apart_recordName r) hsame (Store.apart_tagName ht (.inr rfl))
    rw [perform, show ran (s.putImage r tag) h = _ from hy]
    exact ⟨rfl, I, T, recorded', tagged', hs'⟩
  | get id =>
    refine ⟨fun r tag hput hid => ?_, ?_⟩
    · subst hid
      have hy := hs.getImage (Store.apart_recordName r) (ht.tail.fits r tag hput) (ht.tail.recordTable_id hput)
      rw [perform, show ran (s.getImage r.id) h = _ from hy]
    · rw [perform, ← (s.keeps_getImage id).run h]
      exact ⟨I, T, recorded, tagged, hs⟩
  | resolve tag =>
    have hy := hs.resolveTag (Store.apart_tagName ht rfl)
    rw [perform, show ran (s.resolveTag tag) h = _ from hy]
    exact ⟨rfl, I, T, recorded, tagged, hs⟩
  | untag tag =>
    obtain ⟨h', tagged', hy, hs'⟩ := hs.untag (Store.apart_tagName ht rfl)
    rw [perform, show ran (s.untag tag) h = _ from hy]
    exact ⟨rfl, I, T, recorded, tagged', hs'⟩
  | list =>
    have hapart : ∀ tag id, tagTable calls tag = some id → Tabulates.Apart (tagTable calls) Store.tagName tag := by
      intro tag id hid other id' hid' hname
      obtain ⟨_, hput⟩ := exists_put_of_tagTable hid
      obtain ⟨_, hput'⟩ := exists_put_of_tagTable hid'
      exact ht.tail.text_eq hput' hput (.inr rfl) (.inr rfl) (FileName.ofText_injective hname)
    obtain ⟨l, hy, hl⟩ := hs.listTags hapart
    rw [perform, show ran s.listTags h = _ from hy]
    exact ⟨⟨l, rfl, hl⟩, I, T, recorded, tagged, hs⟩

/-- After any calls on a store without images its directories hold what the calls put and did not drop. -/
theorem stored_after (hs : s.HasNoImages h) : ∀ {calls : List ImageCall}, Tellable calls → Stored s calls (after s h calls)
  | [], _ => by
    obtain ⟨I, T, hI, hT, hne⟩ := hs
    exact ⟨I, T, _, _, hI, by simp [Tabulates, recordTable], hT, by simp [Tabulates, tagTable], hne⟩
  | _ :: _, ht => (stored_step (stored_after hs ht.tail) ht).2

/-- The images of a store are a table of records and a table of tags. Whatever calls came before, the first one on a store
without images, a call gives what the tables of those calls say: a record that was put is found under its id, a tag leads
to the id that was last put under it unless it was dropped since, a tag that is dropped was there if it led somewhere, and
the list has an entry for each tag that leads somewhere. -/
theorem meets_tables (hs : s.HasNoImages h) (ht : Tellable (c :: calls)) :
    c.Meets calls (ran (c.perform s) (after s h calls)).1 :=
  (stored_step (stored_after hs ht.tail) ht).1

/-- In a store that was just prepared a tag leads to the image that was put under it. -/
theorem meets_tables_prepared :
    (ran (Sample.store.resolveTag "t")
        (after Sample.store Sample.preparedHost [put Sample.layeredRecord "t"])).1 =
      .ok (some Sample.layeredRecord.id) := by
  have hs := Store.hasNoImages_prepare Sample.furnished_workshop Sample.short_store Sample.yields_prepare
  have hdigests : Blake3.hexOfText Sample.layeredRecord.contentText ≠ Blake3.hexOfText "t" := by decide +kernel
  have ht : Tellable [resolve "t", put Sample.layeredRecord "t"] := by
    refine ⟨fun r tag hput => ?_, ?_⟩
    · simp only [List.mem_cons, reduceCtorEq, List.not_mem_nil, or_false, false_or, put.injEq] at hput
      rw [hput.1]
      exact Sample.fits_layeredRecord
    · have hpair : Set.InjOn Blake3.hexOfText {Sample.layeredRecord.contentText, "t"} :=
        Set.injOn_pair.2 fun heq => absurd heq hdigests
      apply hpair.mono
      rintro text ⟨c, hc, hhashes⟩
      simp only [List.mem_cons, List.not_mem_nil, or_false] at hc
      rcases hc with rfl | rfl
      · exact .inr hhashes
      · exact hhashes
  have htable : tagTable [put Sample.layeredRecord "t"] "t" = some Sample.layeredRecord.id := Function.update_self ..
  exact Eq.trans (meets_tables hs ht) (by rw [htable])

end ImageCall

end ImageRecipe
