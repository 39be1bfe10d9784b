import ImageRecipe.Proofs.StoredDocuments
import ImageRecipe.Proofs.StoreSteps

/-! What a plain store says: a result or a tag is read from the one file that its path leads to. -/

namespace ImageRecipe

/-- The content of the file at a place. -/
def FileTree.content? (t : FileTree) (l : Location) : Option ByteArray :=
  match t.entry? l with
  | some (.file _ data) => some data
  | _ => none

namespace FileTree

variable {t t' : FileTree} {l : Location}

theorem content?_eq_some {data : ByteArray} :
    t.content? l = some data ↔ ∃ mode, t.entry? l = some (.file mode data) := by
  unfold content?
  split
  · next mode data' he => simp [he]
  · next hno =>
    constructor
    · intro h
      simp at h
    · rintro ⟨mode, he⟩
      exact absurd he (hno mode data)

/-- A content that is found later was there before, or it could be written. -/
theorem Evolves.content? {a : Location → Entry.Leave} {data : ByteArray} (h : Evolves a t t')
    (hc : t'.content? l = some data) : t.content? l = some data ∨ (a l).writes data := by
  obtain ⟨mode, he⟩ := content?_eq_some.1 hc
  have hl := h l
  rw [he] at hl
  generalize hprev : t.entry? l = e at hl
  cases hl with
  | same => exact .inl (content?_eq_some.2 ⟨mode, hprev⟩)
  | written _ _ hw => exact .inr hw

end FileTree

theorem yields_readText {path text : String} {h h' : Host} :
    Yields (Host.readText path) h text h' ↔
      h = h' ∧ ∃ data, h.files.read h.directory path = .ok data ∧ Text.ofBytes? data = some text := by
  unfold Host.readText Host.readBytes
  rw [yields_bind]
  simp only [yields_inspect]
  constructor
  · rintro ⟨data, _, ⟨hr, rfl⟩, hy⟩
    split at hy
    · next s hs =>
      obtain ⟨rfl, rfl⟩ := (yields_pure ..).1 hy
      exact ⟨rfl, data, hr, hs⟩
    · exact (yields_throw _ _ _ _ hy).elim
  · rintro ⟨rfl, data, hr, ht⟩
    refine ⟨data, _, ⟨hr, rfl⟩, ?_⟩
    rw [ht]
    simp

theorem yields_readDocument {α : Type} {form : Option Json.Form} {ofDocument? : Document → Option α}
    {path : String} {h h' : Host} {a : α} :
    Yields (Store.readDocument form ofDocument? path) h a h' ↔
      h = h' ∧ ∃ data, h.files.read h.directory path = .ok data ∧ readBack? ofDocument? data = some a := by
  unfold Store.readDocument
  rw [yields_bind]
  simp only [yields_onFiles, yields_readText]
  constructor
  · rintro ⟨text, _, ⟨rfl, data, hr, ht⟩, hy⟩
    split at hy
    · next b hb =>
      obtain ⟨rfl, rfl⟩ := (yields_pure ..).1 hy
      refine ⟨rfl, data, hr, ?_⟩
      unfold readBack?
      rw [ht]
      exact hb
    · exact (yields_throw _ _ _ _ hy).elim
  · rintro ⟨rfl, data, hr, hb⟩
    unfold readBack? at hb
    obtain ⟨text, ht, hb⟩ := Option.bind_eq_some_iff.1 hb
    refine ⟨text, h, ⟨rfl, data, hr, ht⟩, ?_⟩
    rw [hb]
    simp

namespace Store

variable {s : Store} {h h' : Host}

/-- The result that the store holds under a key. -/
def result? (s : Store) (h : Host) (key : String) : Option BuildResult :=
  (h.files.content? (s.place h.directory ++ cacheNames key)).bind (readBack? BuildResult.ofDocument?)

theorem Leads.read_ok {path : String} {ns : List FileName} (hl : s.Leads path ns) (hp : s.Plain h)
    {data : ByteArray} (hr : h.files.read h.directory path = .ok data) :
    h.files.content? (s.place h.directory ++ ns) = some data := by
  obtain ⟨l, mode, hres, he⟩ := FileTree.read_ok hr
  rw [hl.resolve_eq hp hres] at he
  exact FileTree.content?_eq_some.2 ⟨mode, he⟩

/-- A result is found just when the file of its key holds it, and looking for it changes nothing. -/
theorem yields_getResult {key : String} {r : BuildResult} : Yields (s.getResult key) h (some r) h' ↔
    h = h' ∧ ∃ data, h.files.read h.directory (s.resultPath key) = .ok data ∧
      readBack? BuildResult.ofDocument? data = some r := by
  constructor
  · intro hy
    obtain ⟨b, _, hlook, hy⟩ := (yields_bind ..).1 hy
    obtain ⟨-, rfl⟩ := (yields_look ..).1 hlook
    split at hy
    · simp at hy
    · obtain ⟨text, _, htext, hy⟩ := (yields_bind ..).1 hy
      obtain ⟨rfl, data, hread, hdata⟩ := yields_readText.1 ((yields_onFiles ..).1 htext)
      split at hy
      · next r' hr =>
        obtain ⟨heq, rfl⟩ := (yields_pure ..).1 hy
        cases heq
        exact ⟨rfl, data, hread, Option.bind_eq_some_iff.2 ⟨text, hdata, hr⟩⟩
      · obtain ⟨_, _, -, hy⟩ := (yields_bind ..).1 hy
        simp at hy
  · rintro ⟨rfl, data, hread, hback⟩
    obtain ⟨text, hdata, hparse⟩ := Option.bind_eq_some_iff.1 hback
    refine (yields_bind ..).2 ⟨true, h, (yields_look ..).2 ⟨FileTree.pathExists_of_read hread, rfl⟩, ?_⟩
    refine (yields_bind ..).2 ⟨text, h, (yields_onFiles ..).2 (yields_readText.2 ⟨rfl, data, hread, hdata⟩), ?_⟩
    rw [hparse]
    exact (yields_pure ..).2 ⟨rfl, rfl⟩

/-- A result that is found is the one that the store holds. -/
theorem Plain.getResult (hp : s.Plain h) {key : String} (hkey : IsDigest key) {r : BuildResult}
    (hy : Yields (s.getResult key) h (some r) h') : h' = h ∧ s.result? h key = some r := by
  obtain ⟨rfl, data, hread, hback⟩ := yields_getResult.1 hy
  refine ⟨rfl, ?_⟩
  unfold result?
  rw [(leads_resultPath hkey).read_ok hp hread]
  exact hback

/-- A result that is found has a time that a clock could show. -/
theorem real_getResult {key : String} {r : BuildResult} (hy : Yields (s.getResult key) h (some r) h') :
    r.createdAt.Real := by
  obtain ⟨rfl, data, -, hback⟩ := yields_getResult.1 hy
  obtain ⟨text, -, hparse⟩ := Option.bind_eq_some_iff.1 hback
  obtain ⟨d, -, hr⟩ := Option.bind_eq_some_iff.1 hparse
  exact BuildResult.real_of_ofDocument? hr

/-- The id that a tag leads to in the store. -/
def leadsTo (s : Store) (h : Host) (tag : String) : Option String :=
  (ran (s.resolveTag tag) h).1.toOption.join

/-- A tag leads to what the file says that its path leads to. -/
theorem leadsTo_eq_some {tag id : String} : s.leadsTo h tag = some id ↔
    ∃ data e, h.files.read h.directory (s.tagPath tag) = .ok data ∧
      readBack? TagEntry.ofDocument? data = some e ∧ e.imageId = id := by
  have hyields : s.leadsTo h tag = some id ↔ ∃ h', Yields (s.resolveTag tag) h (some id) h' := by
    unfold leadsTo Yields
    rcases ran (s.resolveTag tag) h with ⟨_ | found, h'⟩ <;> simp [Except.toOption]
  rw [hyields]
  unfold resolveTag
  constructor
  · rintro ⟨h', hy⟩
    obtain ⟨b, _, hlook, hy⟩ := (yields_bind ..).1 hy
    obtain ⟨-, rfl⟩ := (yields_look ..).1 hlook
    split at hy
    · simp at hy
    · obtain ⟨e, t, hread, hy⟩ := (yields_bind ..).1 hy
      obtain ⟨heq, rfl⟩ := (yields_pure ..).1 hy
      obtain ⟨rfl, data, hdata, he⟩ := yields_readDocument.1 hread
      exact ⟨data, e, hdata, he, Option.some.inj heq⟩
  · rintro ⟨data, e, hdata, he, rfl⟩
    refine ⟨h, (yields_bind ..).2 ⟨true, h, (yields_look ..).2 ⟨FileTree.pathExists_of_read hdata, rfl⟩, ?_⟩⟩
    refine (yields_bind ..).2 ⟨e, h, yields_readDocument.2 ⟨rfl, data, hdata, he⟩, ?_⟩
    exact (yields_pure ..).2 ⟨rfl, rfl⟩

theorem Plain.content?_of_leadsTo (hp : s.Plain h) {tag id : String} (hl : s.leadsTo h tag = some id) :
    ∃ data, h.files.content? (s.place h.directory ++ tagNames tag) = some data := by
  obtain ⟨data, _, hread, -⟩ := leadsTo_eq_some.1 hl
  exact ⟨data, (leads_tagPath tag).read_ok hp hread⟩

private theorem exists_rawNames_tagPath (tag : String) :
    ∃ front, Path.rawNames (s.tagPath tag) = front ++ [FileName.ofText (Blake3.hexOfText tag)] :=
  Path.exists_rawNames_join _ ⟨[], RawPath.names_of_slash_notMem (isDigest_hexOfText tag).proper.slash_notMem⟩

/-- The way to a tag's file leads to one place in trees that agree on the directories there. -/
theorem resolve_tagPath_congr (hp : s.Plain h) (hp' : s.Plain h') (hd : h'.directory = h.directory)
    (tag : String) {last last' : Bool}
    (he : ∀ p, p <+: (s.place h.directory ++ tagNames tag).dropLast →
      h.files.entry? p = h'.files.entry? p) :
    h.files.resolve last h.directory (s.tagPath tag) = h'.files.resolve last' h'.directory (s.tagPath tag) := by
  have hu' := (leads_tagPath tag).unlinked hp'
  rw [hd] at hu' ⊢
  apply ((leads_tagPath tag).unlinked hp).resolve_congr hu' (isDigest_hexOfText tag).proper
    (exists_rawNames_tagPath tag)
  rw [(leads_tagPath tag).named_eq]
  exact he

/-- A tag leads to the same id in hosts that agree on the way to its file and on the file. -/
theorem leadsTo_congr (hp : s.Plain h) (hp' : s.Plain h') (hd : h'.directory = h.directory) {tag : String}
    (he : ∀ p, p <+: s.place h.directory ++ tagNames tag → h.files.entry? p = h'.files.entry? p) :
    s.leadsTo h tag = s.leadsTo h' tag := by
  have hres : h.files.resolve true h.directory (s.tagPath tag) =
      h'.files.resolve true h'.directory (s.tagPath tag) :=
    resolve_tagPath_congr hp hp' hd tag fun p hpre => he p (hpre.trans (List.dropLast_prefix _))
  have hentry : ∀ l, h.files.resolve true h.directory (s.tagPath tag) = .ok l →
      h.files.entry? l = h'.files.entry? l := by
    intro l hl
    rw [(leads_tagPath tag).resolve_eq hp hl]
    exact he _ List.prefix_rfl
  rw [hd] at hres
  have hread := FileTree.read_congr hres hentry
  have hiff : ∀ id, s.leadsTo h tag = some id ↔ s.leadsTo h' tag = some id := by
    intro id
    rw [leadsTo_eq_some, leadsTo_eq_some, hd, hread]
  exact Option.ext hiff

/-- A tag leads to the id that was written for it last. -/
theorem leadsTo_of_write (hp : s.Plain h) {tag id : String} {u : Unit}
    (hy : Yields (writeDocument (s.tagPath tag) (TagEntry.toDocument ⟨tag, id⟩)) h u h') :
    s.leadsTo h' tag = some id := by
  have hw := (yields_onFiles ..).1 hy
  have hp' : s.Plain h' := hp.evolves ((keeps_writeBytes (f := Frame.all) fun _ _ _ _ => trivial).yields hw)
  obtain ⟨l, hl, hno, rfl⟩ := yields_writeBytes hw
  have heq := (leads_tagPath tag).resolve_eq hp hl
  have hne : l ≠ [] := by
    rw [heq]
    simp [tagNames]
  let data := Text.bytes (Json.pretty (TagEntry.toDocument ⟨tag, id⟩))
  have hres : h.files.resolve false h.directory (s.tagPath tag) =
      (h.files.put l (.file writtenMode data)).resolve true h.directory (s.tagPath tag) := by
    apply resolve_tagPath_congr hp hp' rfl
    intro p hpre
    have hp : p ≠ l := by
      rintro rfl
      have := hpre.length_le
      rw [heq, List.length_dropLast] at this
      simp [tagNames] at this
    exact (h.files.entry?_put_of_ne hp _).symm
  have hg : ∀ data, (Entry.file writtenMode data).grants .read = true := by
    intro data
    simp [Entry.grants, Entry.hasBit, Entry.mode, writtenMode, Right.bit]
  refine leadsTo_eq_some.2 ⟨_, ⟨tag, id⟩, ?_, TagEntry.readBack?_written _, rfl⟩
  exact FileTree.read_eq (hres.symm.trans hl) (h.files.entry?_put_self hne _) (hg _)

end Store

end ImageRecipe
