import Mathlib.Data.Set.Function
import ImageRecipe.Proofs.PreparedStores

/-! The objects of a store over a history of calls: a table of contents by their digests. The directory of objects is a
cabinet that holds what the table says. -/

namespace ImageRecipe

/-- A call of the objects of a store. -/
inductive ObjectCall where
  | put (data : ByteArray)
  | get (hash : String)
  | has (hash : String)
  | remove (hash : String)
  | list

namespace ObjectCall

/-- What a call gives if it does not fail. -/
abbrev Answer : ObjectCall → Type
  | put _ => String
  | get _ => ByteArray
  | has _ => Bool
  | remove _ => Unit
  | list => List String

def perform (s : Store) : (c : ObjectCall) → StoreM c.Answer
  | put data => s.putObject data
  | get hash => s.getObject hash
  | has hash => s.objectExists hash
  | remove hash => s.removeObject hash
  | list => s.listObjects

/-- The host after calls of which the first in the list is the last. -/
def after (s : Store) (h : Host) : List ObjectCall → Host
  | [] => h
  | c :: calls => (ran (c.perform s) (after s h calls)).2

/-- The contents that were put and not removed since, by their digests. -/
def table : List ObjectCall → String → Option ByteArray
  | put data :: calls => Function.update (table calls) (Blake3.hex data) (some data)
  | remove hash :: calls => Function.update (table calls) hash none
  | _ :: calls => table calls
  | [] => fun _ => none

/-- A digest that a call is given. -/
def Names : ObjectCall → String → Prop
  | put _, _ => False
  | get hash, name => name = hash
  | has hash, name => name = hash
  | remove hash, name => name = hash
  | list, _ => False

/-- The outcome of a call after a history is what the table says. -/
def Meets (calls : List ObjectCall) : (c : ObjectCall) → Except StoreError c.Answer → Prop
  | put data, a => a = .ok (Blake3.hex data)
  | get hash, a => a = (table calls hash).elim (.error (.objectNotFound hash)) .ok
  | has hash, a => a = .ok (table calls hash).isSome
  | remove _, a => a = .ok ()
  | list, a => ∃ l, a = .ok l ∧ l.Pairwise (· < ·) ∧ ∀ hash, hash ∈ l ↔ (table calls hash).isSome

/-- What is in the table was put, under its digest. -/
theorem put_of_table {calls : List ObjectCall} {hash : String} {data : ByteArray} (h : table calls hash = some data) :
    Blake3.hex data = hash ∧ put data ∈ calls := by
  induction calls with
  | nil => cases h
  | cons c calls ih =>
    have hrest : table calls hash = some data → Blake3.hex data = hash ∧ put data ∈ c :: calls := fun h =>
      (ih h).imp_right (.tail _)
    cases c with
    | put data' =>
      by_cases heq : hash = Blake3.hex data'
      · rw [table, heq, Function.update_self] at h
        cases h
        exact ⟨heq.symm, List.mem_cons_self⟩
      · rw [table, Function.update_of_ne heq] at h
        exact hrest h
    | remove hash' =>
      by_cases heq : hash = hash'
      · rw [table, heq, Function.update_self] at h
        cases h
      · rw [table, Function.update_of_ne heq] at h
        exact hrest h
    | get | has | list => exact hrest h

/-- Calls that are given digests, and put no two contents with one digest. -/
structure Tellable (calls : List ObjectCall) : Prop where
  isDigest : ∀ c ∈ calls, ∀ hash, c.Names hash → IsDigest hash
  injOn : Set.InjOn Blake3.hex {data | put data ∈ calls}

theorem Tellable.tail {c : ObjectCall} {calls : List ObjectCall} (h : Tellable (c :: calls)) : Tellable calls where
  isDigest c hc := h.isDigest c (.tail _ hc)
  injOn := h.injOn.mono fun _ => .tail _

end ObjectCall

namespace Store

/-- The names on the way to the file of an object. -/
def objectName (hash : String) : FileName × FileName := (FileName.ofText (fan hash), FileName.ofText hash)

theorem objectName_injective {hash hash' : String} (h : objectName hash = objectName hash') : hash = hash' :=
  FileName.ofText_injective (congrArg Prod.snd h)

theorem length_fan {hash : String} (h : IsDigest hash) : (FileName.ofText (fan hash)).length = 2 := by
  obtain ⟨a, b, ha, hb, hfan⟩ := fan_eq h
  rw [hfan, FileName.ofText_ofList, List.flatMap_cons, List.flatMap_cons, List.flatMap_nil, List.append_nil,
    List.length_append, String.length_utf8EncodeChar, String.length_utf8EncodeChar, (ascii_of_mem_hexDigits ha).1,
    (ascii_of_mem_hexDigits hb).1]

theorem fits_fan {hash : String} (h : IsDigest hash) : Path.Fits nameRoom (fan hash) := by
  obtain ⟨a, b, ha, hb, hfan⟩ := fan_eq h
  apply Path.fits_of_ascii (fan_proper h) _ _ (by decide)
  · intro c hc
    rw [hfan, String.toList_ofList] at hc
    simp only [List.mem_cons, List.not_mem_nil, or_false] at hc
    rcases hc with rfl | rfl
    · exact ascii_of_mem_hexDigits ha
    · exact ascii_of_mem_hexDigits hb
  · rw [hfan, String.toList_ofList]
    simp [nameRoom]

/-- A store with no objects: it has a directory for them with nothing below it. -/
def HasNoObjects (s : Store) (h : Host) : Prop :=
  ∃ O, h.files.Room h.directory nameRoom s.objects O ∧ ∀ n ns, h.files.entry? (O ++ n :: ns) = none

/-- A store that is prepared where nothing was has no objects. -/
theorem hasNoObjects_prepare {s : Store} {h h' : Host} (hf : s.Furnished h []) (hs : s.Short)
    (hy : Yields s.prepare h () h') : s.HasNoObjects h' := by
  obtain ⟨hO, hempty⟩ := hf.prepare hs hy "objects" (by simp [roomNames])
  exact ⟨_, hO, fun n ns => by simpa using hempty n ns⟩

/-- The directory of objects holds what a table says. -/
structure HoldsObjects (s : Store) (objects : String → Option ByteArray) (h : Host) (O : Location)
    (content : FileName × FileName → Option ByteArray) : Prop where
  cabinet : h.files.Cabinet h.directory nameRoom s.objects O content
  tabulates : Tabulates objects objectName (fun _ data => data) content
  digest : ∀ hash data, objects hash = some data → Blake3.hex data = hash
  named : ∀ n, h.files.entry? (O ++ [n]) ≠ none → ∃ hash, IsDigest hash ∧ n = FileName.ofText (fan hash)

namespace HoldsObjects

variable {s : Store} {objects : String → Option ByteArray} {h : Host} {O : Location}
  {content : FileName × FileName → Option ByteArray} {hash : String} {data : ByteArray}

theorem content_objectName (hs : s.HoldsObjects objects h O content) (hash : String) :
    content (objectName hash) = objects hash := by
  rw [hs.tabulates.content_eq fun _ _ _ hname => objectName_injective hname]
  simp

theorem look_objectPath (hs : s.HoldsObjects objects h O content) (hd : IsDigest hash) :
    Yields (Host.pathExists (s.objectPath hash) : StoreM Bool) h (objects hash).isSome h := by
  refine (yields_look ..).2 ⟨?_, rfl⟩
  have hroom : (FileName.ofText (fan hash)).length + 1 + 65 ≤ nameRoom := by
    rw [length_fan hd]
    decide
  rw [objectPath, hs.cabinet.pathExists_join (fits_fan hd) hroom hd.fits]
  exact congrArg Option.isSome (hs.content_objectName hash)

/-- The drawer of an object that is there. -/
theorem shelf (hs : s.HoldsObjects objects h O content) (hd : IsDigest hash)
    (hdrawer : h.files.entry? (O ++ [FileName.ofText (fan hash)]) ≠ none) :
    h.files.Shelf h.directory 65 (Path.join s.objects (fan hash)) (O ++ [FileName.ofText (fan hash)])
      fun n => content (FileName.ofText (fan hash), n) :=
  hs.cabinet.shelf (fits_fan hd) (by rw [length_fan hd]; decide) hdrawer

theorem drawer (hs : s.HoldsObjects objects h O content) (hdata : objects hash = some data) :
    h.files.entry? (O ++ [FileName.ofText (fan hash)]) ≠ none := by
  apply hs.cabinet.drawer_of_content _ (FileName.ofText hash)
  change content (objectName hash) ≠ none
  rw [hs.content_objectName, hdata]
  simp

/-! What the calls do to the table. -/

theorem openDrawer (hs : s.HoldsObjects objects h O content) (hd : IsDigest hash) :
    ∃ h', Yields (onFiles (Host.makePath (Path.join s.objects (fan hash)))) h () h' ∧
      s.HoldsObjects objects h' O content ∧ h'.files.entry? (O ++ [FileName.ofText (fan hash)]) ≠ none := by
  obtain ⟨files, hmake, hcabinet, hdrawer, hold⟩ := hs.cabinet.makePath_join (fits_fan hd)
  refine ⟨{ h with files }, (yields_onFiles ..).2 ((yields_change ..).2 ⟨files, hmake, rfl⟩), ?_, hdrawer⟩
  refine ⟨hcabinet, hs.tabulates, hs.digest, fun n hn => ?_⟩
  rcases hold n hn with rfl | hn
  · exact ⟨hash, hd, rfl⟩
  · exact hs.named n hn

theorem writeObject (hs : s.HoldsObjects objects h O content) (data : ByteArray)
    (hdrawer : h.files.entry? (O ++ [FileName.ofText (fan (Blake3.hex data))]) ≠ none) :
    ∃ h' content', Yields (onFiles (Host.writeBytes (s.objectPath (Blake3.hex data)) data)) h () h' ∧
      s.HoldsObjects (Function.update objects (Blake3.hex data) (some data)) h' O content' := by
  have hd := isDigest_hex data
  have hapart : Tabulates.Apart objects objectName (Blake3.hex data) := fun _ _ _ hname => objectName_injective hname
  have htable := hs.tabulates.update hapart (some data)
  have hyields := (yields_onFiles ..).2 ((hs.shelf hd hdrawer).yields_writeBytes hd.fits data)
  refine ⟨_, _, hyields, hs.cabinet.put hdrawer _ data, htable, fun hash data' hdata => ?_, fun n hn => ?_⟩
  · by_cases heq : hash = Blake3.hex data
    · rw [heq, Function.update_self] at hdata
      rw [heq, Option.some.inj hdata]
    · rw [Function.update_of_ne heq] at hdata
      exact hs.digest hash data' hdata
  · apply hs.named
    rwa [h.files.entry?_put_of_ne fun heq => by simpa using congrArg List.length heq] at hn

theorem dropObject (hs : s.HoldsObjects objects h O content) (hd : IsDigest hash) (hdata : objects hash = some data) :
    ∃ h' content', Yields (onFiles (Host.remove (s.objectPath hash))) h () h' ∧
      s.HoldsObjects (Function.update objects hash none) h' O content' := by
  have hapart : Tabulates.Apart objects objectName hash := fun _ _ _ hname => objectName_injective hname
  have htable := hs.tabulates.update hapart none
  have hfile : content (objectName hash) = some data := (hs.content_objectName hash).trans hdata
  have hyields := (yields_onFiles ..).2 ((hs.shelf hd (hs.drawer hdata)).yields_remove hd.fits hfile)
  refine ⟨_, _, hyields, hs.cabinet.erase _ _, htable, fun other data' hdata' => ?_, fun n hn => ?_⟩
  · by_cases heq : other = hash
    · rw [heq, Function.update_self] at hdata'
      cases hdata'
    · rw [Function.update_of_ne heq] at hdata'
      exact hs.digest other data' hdata'
  · apply hs.named
    rwa [h.files.entry?_erase_of_ne fun heq => by simpa using congrArg List.length heq] at hn

theorem putObject (hs : s.HoldsObjects objects h O content)
    (hsame : ∀ data', objects (Blake3.hex data) = some data' → data' = data) :
    ∃ h' content', Yields (s.putObject data) h (Blake3.hex data) h' ∧
      s.HoldsObjects (Function.update objects (Blake3.hex data) (some data)) h' O content' := by
  have hd := isDigest_hex data
  have hlook := hs.look_objectPath hd
  have hparent := s.parent?_objectPath hd
  unfold Store.putObject
  cases hfound : objects (Blake3.hex data) with
  | none =>
    obtain ⟨h₁, hmake, hs₁, hdrawer⟩ := hs.openDrawer hd
    obtain ⟨h₂, content', hwrite, hs₂⟩ := hs₁.writeObject data hdrawer
    refine ⟨h₂, content', (yields_bind ..).2 ⟨_, _, hlook, ?_⟩, hs₂⟩
    simp only [hfound, hparent]
    exact (yields_bind ..).2 ⟨_, _, hmake, (yields_bind ..).2 ⟨_, _, hwrite, (yields_pure ..).2 ⟨rfl, rfl⟩⟩⟩
  | some data' =>
    have hkept : Function.update objects (Blake3.hex data) (some data) = objects := by
      rw [hsame data' hfound] at hfound
      rw [← hfound, Function.update_eq_self]
    refine ⟨h, content, (yields_bind ..).2 ⟨_, _, hlook, ?_⟩, hkept.symm ▸ hs⟩
    rw [hfound]
    exact (yields_pure ..).2 ⟨rfl, rfl⟩

theorem getObject (hs : s.HoldsObjects objects h O content) (hd : IsDigest hash) :
    ran (s.getObject hash) h = ((objects hash).elim (.error (.objectNotFound hash)) .ok, h) := by
  unfold Store.getObject
  rw [(hs.look_objectPath hd).ran_bind]
  cases hdata : objects hash with
  | none => simp
  | some data =>
    have hread : h.files.read h.directory (s.objectPath hash) = .ok data :=
      (hs.shelf hd (hs.drawer hdata)).read_join hd.fits ((hs.content_objectName hash).trans hdata)
    have hbytes : Yields (onFiles (Host.readBytes (s.objectPath hash))) h data h :=
      (yields_onFiles ..).2 ((yields_inspect ..).2 ⟨hread, rfl⟩)
    have hdigest := hs.digest hash data hdata
    simp [hbytes.ran_bind, hdigest]

theorem removeObject (hs : s.HoldsObjects objects h O content) (hd : IsDigest hash) :
    ∃ h' content', Yields (s.removeObject hash) h () h' ∧
      s.HoldsObjects (Function.update objects hash none) h' O content' := by
  have hlook := hs.look_objectPath hd
  unfold Store.removeObject
  cases hdata : objects hash with
  | none =>
    have hkept : Function.update objects hash none = objects := by rw [← hdata, Function.update_eq_self]
    refine ⟨h, content, (yields_bind ..).2 ⟨_, _, hlook, ?_⟩, hkept.symm ▸ hs⟩
    rw [hdata]
    exact (yields_pure ..).2 ⟨rfl, rfl⟩
  | some data =>
    obtain ⟨h', content', hdrop, hs'⟩ := hs.dropObject hd hdata
    refine ⟨h', content', (yields_bind ..).2 ⟨_, _, hlook, ?_⟩, hs'⟩
    rw [hdata]
    exact hdrop

/-- The names in a drawer are the digests of objects. -/
theorem mem_drawer (hs : s.HoldsObjects objects h O content) {x name : String} :
    name ∈ (h.files.children (O ++ [FileName.ofText x])).filterMap FileName.text? ↔
      fan name = x ∧ (objects name).isSome := by
  rw [mem_filterMap_text?, FileTree.mem_children, hs.cabinet.entry?_eq, ne_eq, Option.map_eq_none_iff]
  constructor
  · intro hn
    obtain ⟨hash, data, hdata, heq⟩ := hs.tabulates.content_ne_none.1 hn
    obtain rfl := FileName.ofText_injective (congrArg Prod.snd heq)
    exact ⟨(FileName.ofText_injective (congrArg Prod.fst heq)).symm, by simp [hdata]⟩
  · rintro ⟨rfl, hdata⟩
    have hcontent : content (FileName.ofText (fan name), FileName.ofText name) = objects name :=
      hs.content_objectName name
    rw [hcontent]
    simpa [Option.isSome_iff_ne_none] using hdata

theorem listObjects (hs : s.HoldsObjects objects h O content) :
    ∃ l, Yields s.listObjects h l h ∧ l.Pairwise (· < ·) ∧ ∀ hash, hash ∈ l ↔ (objects hash).isSome := by
  have hfans : ∀ x, x ∈ (h.files.children O).filterMap FileName.text? ↔
      h.files.entry? (O ++ [FileName.ofText x]) ≠ none := fun x => by rw [mem_filterMap_text?, FileTree.mem_children]
  have hnodup := nodup_filterMap_text? (h.files.nodup_children O)
  have hlist := hs.cabinet.toRoom.yields_list
  generalize (h.files.children O).filterMap FileName.text? = fans at hfans hnodup hlist
  let inside := fun x => (h.files.children (O ++ [FileName.ofText x])).filterMap FileName.text?
  have hvisible : ∀ x, (inside x).filter (fun n => !isHidden n) = inside x := by
    intro x
    rw [List.filter_eq_self]
    intro n hn
    obtain ⟨data, hdata⟩ := Option.isSome_iff_exists.1 (hs.mem_drawer.1 hn).2
    rw [← hs.digest n data hdata, (isDigest_hex data).isHidden_eq]
    rfl
  have hmem : ∀ hash, hash ∈ (fans.map inside).flatten ↔ (objects hash).isSome := by
    intro hash
    rw [List.mem_flatten]
    constructor
    · rintro ⟨l, hl, hhash⟩
      obtain ⟨x, -, rfl⟩ := List.mem_map.1 hl
      exact (hs.mem_drawer.1 hhash).2
    · intro hdata
      obtain ⟨data, hsome⟩ := Option.isSome_iff_exists.1 hdata
      exact ⟨_, List.mem_map.2 ⟨fan hash, (hfans _).2 (hs.drawer hsome), rfl⟩, hs.mem_drawer.2 ⟨rfl, hdata⟩⟩
  have hflat : (fans.map inside).flatten.Nodup := by
    rw [List.nodup_flatten, List.pairwise_map]
    refine ⟨fun l hl => ?_, hnodup.imp fun hne n hx hy => ?_⟩
    · obtain ⟨x, -, rfl⟩ := List.mem_map.1 hl
      exact nodup_filterMap_text? (h.files.nodup_children _)
    · exact hne ((hs.mem_drawer.1 hx).1.symm.trans (hs.mem_drawer.1 hy).1)
  refine ⟨_, ?_, pairwise_lt_mergeSort id (by rwa [List.map_id]), fun hash => ?_⟩
  · unfold Store.listObjects
    refine (yields_bind ..).2 ⟨true, h, (yields_look ..).2 ⟨hs.cabinet.toRoom.pathExists, rfl⟩, ?_⟩
    refine (yields_bind ..).2 ⟨fans, h, (yields_onFiles ..).2 hlist, ?_⟩
    refine (yields_bind ..).2 ⟨fans.map inside, h, yields_mapM_map fun x hx => ?_, (yields_pure ..).2 ⟨rfl, rfl⟩⟩
    obtain ⟨hash, hd, hx'⟩ := hs.named _ ((hfans x).1 hx)
    obtain rfl := FileName.ofText_injective hx'
    obtain ⟨mode, hstatus⟩ := hs.cabinet.linkStatus_join (fits_fan hd) ((hfans _).1 hx)
    have houtcome : Yields ((Host.inspect FileTree.linkStatus (Path.join s.objects (fan hash))).outcome :
        StoreM (Except Fault Entry)) h (.ok (.directory mode)) h := by
      unfold Yields
      rw [ran_outcome, ran_inspect, hstatus]
    refine (yields_bind ..).2 ⟨_, h, houtcome, ?_⟩
    refine (yields_bind ..).2 ⟨inside (fan hash), h, (yields_onFiles ..).2 ?_, ?_⟩
    · exact (hs.shelf hd ((hfans _).1 hx)).toRoom.yields_list
    · exact (yields_pure ..).2 ⟨hvisible _, rfl⟩
  · rw [List.mem_mergeSort, hmem]

end HoldsObjects

/-- Whatever became of the files, a content that is read has the digest that it was asked for by. -/
theorem hex_of_getObject {s : Store} {hash : String} {h : Host} {data : ByteArray}
    (hget : (ran (s.getObject hash) h).1 = .ok data) : Blake3.hex data = hash := by
  obtain ⟨h', hy⟩ := exists_yields hget
  unfold getObject at hy
  obtain ⟨b, _, -, hy⟩ := (yields_bind ..).1 hy
  split at hy
  · simp at hy
  · obtain ⟨data', _, -, hy⟩ := (yields_bind ..).1 hy
    dsimp only at hy
    split at hy
    · simp at hy
    · next hne =>
      obtain ⟨rfl, -⟩ := (yields_pure ..).1 hy
      exact not_not.1 hne

end Store

namespace ObjectCall

variable {s : Store} {h : Host} {calls : List ObjectCall} {c : ObjectCall}

/-- The table of a history is in the directory of objects of a store. -/
def Stored (s : Store) (calls : List ObjectCall) (h : Host) : Prop :=
  ∃ O content, s.HoldsObjects (table calls) h O content

/-- A call does what the table says and keeps it. -/
theorem stored_step (hs : Stored s calls h) (ht : Tellable (c :: calls)) :
    c.Meets calls (ran (c.perform s) h).1 ∧ Stored s (c :: calls) (ran (c.perform s) h).2 := by
  obtain ⟨O, content, hs⟩ := hs
  have hd := ht.isDigest c List.mem_cons_self
  cases c with
  | put data =>
    have hsame : ∀ data', table calls (Blake3.hex data) = some data' → data' = data := by
      intro data' hdata'
      obtain ⟨hdigest, hput⟩ := put_of_table hdata'
      exact ht.injOn (.tail _ hput) List.mem_cons_self hdigest
    obtain ⟨h', content', hy, hs'⟩ := hs.putObject hsame
    rw [perform, show ran (s.putObject data) h = _ from hy]
    exact ⟨rfl, O, content', hs'⟩
  | get hash =>
    rw [perform, hs.getObject (hd hash rfl)]
    exact ⟨rfl, O, content, hs⟩
  | has hash =>
    have hy : Yields (s.objectExists hash : StoreM Bool) h (table calls hash).isSome h :=
      hs.look_objectPath (hd hash rfl)
    rw [perform, show ran (s.objectExists hash : StoreM Bool) h = _ from hy]
    exact ⟨rfl, O, content, hs⟩
  | remove hash =>
    obtain ⟨h', content', hy, hs'⟩ := hs.removeObject (hd hash rfl)
    rw [perform, show ran (s.removeObject hash) h = _ from hy]
    exact ⟨rfl, O, content', hs'⟩
  | list =>
    obtain ⟨l, hy, hl⟩ := hs.listObjects
    rw [perform, show ran s.listObjects h = _ from hy]
    exact ⟨⟨l, rfl, hl⟩, O, content, hs⟩

/-- After any calls on a store without objects its directory holds what the calls put and did not remove. -/
theorem stored_after (hs : s.HasNoObjects h) : ∀ {calls : List ObjectCall}, Tellable calls → Stored s calls (after s h calls)
  | [], _ => by
    obtain ⟨O, hroom, hempty⟩ := hs
    have hnone : ∀ n, h.files.entry? (O ++ [n]) = none := fun n => hempty n []
    refine ⟨O, fun _ => none, ⟨hroom, ?_, ?_, ?_⟩, by simp [Tabulates, table], by simp [table], ?_⟩
    · exact fun n hn => absurd (hnone n) hn
    · intro n m
      rw [List.append_assoc]
      exact hempty n [m]
    · exact fun _ _ hne => absurd rfl hne
    · exact fun n hn => absurd (hnone n) hn
  | _ :: _, ht => (stored_step (stored_after hs ht.tail) ht).2

/-- The objects of a store are a table. Whatever calls came before, the first one on a store without objects, a call gives
what the table of those calls says: a content that was put and not removed since is found under its digest and no other
one is, and the list has the digests of these contents in ascending order. And whatever happens to the files in between,
what is found under a digest has the digest. -/
theorem meets_table (hs : s.HasNoObjects h) (ht : Tellable (c :: calls)) :
    c.Meets calls (ran (c.perform s) (after s h calls)).1 ∧
      ∀ (h' : Host) (hash : String) (data : ByteArray), (ran (s.getObject hash) h').1 = .ok data →
        Blake3.hex data = hash :=
  ⟨(stored_step (stored_after hs ht.tail) ht).1, fun _ _ _ => Store.hex_of_getObject⟩

/-- In a store that was just prepared a content is found under its digest once it was put. -/
theorem meets_table_prepared :
    (ran (Sample.store.getObject (Blake3.hex ByteArray.empty))
        (after Sample.store Sample.preparedHost [put ByteArray.empty])).1 = .ok ByteArray.empty ∧
      ∀ (h' : Host) (hash : String) (data : ByteArray), (ran (Sample.store.getObject hash) h').1 = .ok data →
        Blake3.hex data = hash := by
  have hs := Store.hasNoObjects_prepare Sample.furnished_workshop Sample.short_store Sample.yields_prepare
  have ht : Tellable [get (Blake3.hex ByteArray.empty), put ByteArray.empty] := by
    refine ⟨fun c hc hash hname => ?_, fun data hdata data' hdata' _ => ?_⟩
    · simp only [List.mem_cons, List.not_mem_nil, or_false] at hc
      rcases hc with rfl | rfl
      · exact hname ▸ isDigest_hex _
      · exact hname.elim
    · simp_all
  obtain ⟨hget, htampered⟩ := meets_table hs ht
  have htable : table [put ByteArray.empty] (Blake3.hex ByteArray.empty) = some ByteArray.empty :=
    Function.update_self ..
  exact ⟨Eq.trans hget (by rw [htable]; rfl), htampered⟩

end ObjectCall

end ImageRecipe
