import ImageRecipe.Proofs.PreparedStores
import ImageRecipe.Proofs.StoreReads

/-! The cache of a store over a history of calls: a table of build results by their keys. The directory of the cache is a
shelf that holds the documents of the results in the table, and every result comes back from its document. -/

namespace ImageRecipe

/-- A call of the cache of a store. -/
inductive ResultCall where
  | put (key : String) (result : BuildResult)
  | get (key : String)
  | drop (key : String)

namespace ResultCall

/-- What a call gives if it does not fail. -/
abbrev Answer : ResultCall → Type
  | put .. => Unit
  | get _ => Option BuildResult
  | drop _ => Unit

def perform (s : Store) : (c : ResultCall) → StoreM c.Answer
  | put key r => s.putResult key r
  | get key => s.getResult key
  | drop key => s.dropResult key

/-- The host after calls of which the first in the list is the last. -/
def after (s : Store) (h : Host) : List ResultCall → Host
  | [] => h
  | c :: calls => (ran (c.perform s) (after s h calls)).2

/-- The results that were last put under keys which were not dropped since. -/
def table : List ResultCall → String → Option BuildResult
  | put key r :: calls => Function.update (table calls) key (some r)
  | drop key :: calls => Function.update (table calls) key none
  | get _ :: calls => table calls
  | [] => fun _ => none

/-- The key of a call. -/
def key : ResultCall → String
  | put key _ => key
  | get key => key
  | drop key => key

/-- The outcome of a call after a history is what the table says. -/
def Meets (calls : List ResultCall) : (c : ResultCall) → Except StoreError c.Answer → Prop
  | put .., a => a = .ok ()
  | get key, a => a = .ok (table calls key)
  | drop _, a => a = .ok ()

/-- Calls with keys that files of the cache can be named after, and with results of times that a clock can show. -/
structure Sound (k : Nat) (calls : List ResultCall) : Prop where
  fits : ∀ c ∈ calls, Path.Fits k (c.key ++ ".json")
  real : ∀ key r, put key r ∈ calls → r.createdAt.Real

theorem Sound.tail {k : Nat} {c : ResultCall} {calls : List ResultCall} (h : Sound k (c :: calls)) : Sound k calls where
  fits c hc := h.fits c (.tail _ hc)
  real key r hput := h.real key r (.tail _ hput)

end ResultCall

namespace Store

/-- The name of the file of a key's result. -/
def entryName (key : String) : FileName := FileName.ofText (key ++ ".json")

theorem entryName_injective {key key' : String} (h : entryName key = entryName key') : key = key' :=
  String.append_left_inj _ |>.1 (FileName.ofText_injective h)

/-- There is room for the files of all keys of builds in the directories of a store. -/
theorem fits_cacheKey (plan : String) (builder : Builder) (tag : String) :
    Path.Fits nameRoom (cacheKey plan builder tag ++ ".json") :=
  (isDigest_hexOfText _).fits_json

/-- A store with no results: it has a directory for them, in which nothing is. -/
def HasNoResults (s : Store) (k : Nat) (h : Host) : Prop :=
  ∃ C, h.files.Shelf h.directory k s.cache C fun _ => none

/-- A store that is prepared where nothing was has no results. -/
theorem hasNoResults_prepare {s : Store} {h h' : Host} (hf : s.Furnished h []) (hs : s.Short)
    (hy : Yields s.prepare h () h') : s.HasNoResults nameRoom h' := by
  obtain ⟨hC, hempty⟩ := hf.prepare hs hy "cache" (by simp [roomNames])
  exact ⟨_, hC, fun n => by simpa using hempty n []⟩

/-- The directory of the cache holds what a table says. -/
structure HoldsResults (s : Store) (k : Nat) (results : String → Option BuildResult) (h : Host) (C : Location)
    (content : FileName → Option ByteArray) : Prop where
  shelf : h.files.Shelf h.directory k s.cache C content
  tabulates : Tabulates results entryName (fun _ r => written r.toDocument) content
  real : ∀ key r, results key = some r → r.createdAt.Real

namespace HoldsResults

variable {s : Store} {k : Nat} {results : String → Option BuildResult} {h : Host} {C : Location}
  {content : FileName → Option ByteArray} {key : String} {r : BuildResult}

/-- What is put with a time that a clock can show, or dropped, leaves such times in the table. -/
private theorem real_update (hreal : ∀ key r, results key = some r → r.createdAt.Real) {value : Option BuildResult}
    (hvalue : ∀ r, value = some r → r.createdAt.Real) :
    ∀ other r, Function.update results key value other = some r → r.createdAt.Real := by
  intro other r hr
  by_cases heq : other = key
  · rw [heq, Function.update_self] at hr
    exact hvalue r hr
  · rw [Function.update_of_ne heq] at hr
    exact hreal other r hr

theorem apart (key : String) : Tabulates.Apart results entryName key := fun _ _ _ => entryName_injective

theorem content_entryName (hs : s.HoldsResults k results h C content) (key : String) :
    content (entryName key) = (results key).map fun r => written r.toDocument := hs.tabulates.content_eq (apart key)

theorem look_resultPath (hs : s.HoldsResults k results h C content) (hn : Path.Fits k (key ++ ".json")) :
    Yields (Host.pathExists (s.resultPath key) : StoreM Bool) h (results key).isSome h := by
  refine (yields_look ..).2 ⟨?_, rfl⟩
  have hcontent := hs.content_entryName key
  rw [entryName] at hcontent
  rw [resultPath, hs.shelf.pathExists_join hn, hcontent, Option.isSome_map]

/-! What the calls do to the table. -/

theorem putResult (hs : s.HoldsResults k results h C content) (hn : Path.Fits k (key ++ ".json"))
    (hr : r.createdAt.Real) :
    ∃ h' content', Yields (s.putResult key r) h () h' ∧
      s.HoldsResults k (Function.update results key (some r)) h' C content' := by
  have hyields := (yields_onFiles ..).2 (hs.shelf.yields_writeBytes hn (written r.toDocument))
  exact ⟨_, _, hyields, hs.shelf.put _ _, hs.tabulates.update (apart key) (some r),
    real_update hs.real fun _ heq => Option.some.inj heq ▸ hr⟩

theorem getResult (hs : s.HoldsResults k results h C content) (hn : Path.Fits k (key ++ ".json")) :
    Yields (s.getResult key) h (results key) h := by
  cases hkey : results key with
  | none =>
    refine (yields_bind ..).2 ⟨_, h, hs.look_resultPath hn, ?_⟩
    rw [hkey]
    exact (yields_pure ..).2 ⟨rfl, rfl⟩
  | some r =>
    have hcontent : content (entryName key) = some (written r.toDocument) := by
      rw [hs.content_entryName, hkey]
      rfl
    exact yields_getResult.2 ⟨rfl, _, hs.shelf.read_join hn hcontent,
      BuildResult.readBack?_written_of_real (hs.real key r hkey)⟩

theorem dropResult (hs : s.HoldsResults k results h C content) (hn : Path.Fits k (key ++ ".json")) :
    ∃ h' content', Yields (s.dropResult key) h () h' ∧
      s.HoldsResults k (Function.update results key none) h' C content' := by
  have hlook := hs.look_resultPath hn
  unfold Store.dropResult
  cases hkey : results key with
  | none =>
    have hkept : Function.update results key none = results := by rw [← hkey, Function.update_eq_self]
    refine ⟨h, content, (yields_bind ..).2 ⟨_, _, hlook, ?_⟩, hkept.symm ▸ hs⟩
    rw [hkey]
    exact (yields_pure ..).2 ⟨rfl, rfl⟩
  | some r =>
    have hcontent : content (entryName key) = some (written r.toDocument) := by
      rw [hs.content_entryName, hkey]
      rfl
    have hremove := (yields_onFiles ..).2 (hs.shelf.yields_remove hn hcontent)
    refine ⟨{ h with files := h.files.erase (C ++ [entryName key]) }, _, (yields_bind ..).2 ⟨_, _, hlook, ?_⟩,
      hs.shelf.erase _, hs.tabulates.update (apart key) none, real_update hs.real nofun⟩
    rw [hkey]
    exact hremove

end HoldsResults

end Store

namespace ResultCall

variable {s : Store} {k : Nat} {h : Host} {calls : List ResultCall} {c : ResultCall}

/-- The table of a history is in the cache of a store. -/
def Stored (s : Store) (k : Nat) (calls : List ResultCall) (h : Host) : Prop :=
  ∃ C content, s.HoldsResults k (table calls) h C content

/-- A call does what the table says and keeps it. -/
theorem stored_step (hs : Stored s k calls h) (hc : Sound k (c :: calls)) :
    c.Meets calls (ran (c.perform s) h).1 ∧ Stored s k (c :: calls) (ran (c.perform s) h).2 := by
  obtain ⟨C, content, hs⟩ := hs
  have hn := hc.fits c List.mem_cons_self
  cases c with
  | put key r =>
    obtain ⟨h', content', hy, hs'⟩ := hs.putResult hn (hc.real key r List.mem_cons_self)
    rw [perform, show ran (s.putResult key r) h = _ from hy]
    exact ⟨rfl, C, content', hs'⟩
  | get key =>
    rw [perform, show ran (s.getResult key) h = _ from hs.getResult hn]
    exact ⟨rfl, C, content, hs⟩
  | drop key =>
    obtain ⟨h', content', hy, hs'⟩ := hs.dropResult hn
    rw [perform, show ran (s.dropResult key) h = _ from hy]
    exact ⟨rfl, C, content', hs'⟩

/-- After any calls on a store without results its cache holds what the calls put and did not drop. -/
theorem stored_after (hs : s.HasNoResults k h) : ∀ {calls : List ResultCall}, Sound k calls →
    Stored s k calls (after s h calls)
  | [], _ => by
    obtain ⟨C, hshelf⟩ := hs
    exact ⟨C, fun _ => none, hshelf, by simp [Tabulates, table], by simp [table]⟩
  | _ :: _, hc => (stored_step (stored_after hs hc.tail) hc).2

/-- The cache of results is a table. Whatever calls came before, the first one on a store without results, no call fails,
and a key has just the result that was put under it last, if it was not dropped since, with all that the result was put
with. This is so since every result comes back from the text of its document. -/
theorem results_tabled (hs : s.HasNoResults k h) (hc : Sound k (c :: calls)) :
    c.Meets calls (ran (c.perform s) (after s h calls)).1 ∧
      ∀ r : BuildResult, r.createdAt.Real →
        (Json.parse (Json.pretty r.toDocument)).bind BuildResult.ofDocument? = some r := by
  refine ⟨(stored_step (stored_after hs hc.tail) hc).1, fun r hr => ?_⟩
  obtain ⟨text, htext, hparse⟩ := Option.bind_eq_some_iff.1 (BuildResult.readBack?_written_of_real hr)
  unfold written at htext
  rw [Text.ofBytes?_bytes] at htext
  exact Option.some.inj htext ▸ hparse

end ResultCall

namespace Sample

/-- A result whose time and texts have to be spelled with care. -/
def oddResult : BuildResult := ⟨"t\"\n\\", "sha256:é", .direct, ⟨⟨0, 2, 29⟩, 23, 59, 59, 120000⟩⟩

end Sample

/-- In a store that was just prepared, a key has a result that was put under it when another one was dropped since. -/
theorem ResultCall.results_tabled_prepared :
    (ran (Sample.store.getResult "k") (after Sample.store Sample.preparedHost
        [drop "l", put "k" Sample.oddResult, put "l" Sample.oddResult])).1 = .ok (some Sample.oddResult) ∧
      (Json.parse (Json.pretty Sample.oddResult.toDocument)).bind BuildResult.ofDocument? = some Sample.oddResult := by
  have hs := Store.hasNoResults_prepare Sample.furnished_workshop Sample.short_store Sample.yields_prepare
  have hfits : ∀ key ∈ ["k", "l"], Path.Fits Store.nameRoom (key ++ ".json") := by
    intro key hkey
    simp only [List.mem_cons, List.not_mem_nil, or_false] at hkey
    rcases hkey with rfl | rfl <;>
      exact ⟨by decide +kernel, by decide +kernel, by decide +kernel, by decide +kernel⟩
  have hreal : Sample.oddResult.createdAt.Real := ⟨by decide, by decide⟩
  have hc : Sound Store.nameRoom [get "k", drop "l", put "k" Sample.oddResult, put "l" Sample.oddResult] := by
    refine ⟨fun c hc => hfits _ ?_, fun key r hput => ?_⟩
    · simp only [List.mem_cons, List.not_mem_nil, or_false] at hc
      rcases hc with rfl | rfl | rfl | rfl <;> simp [key]
    · simp only [List.mem_cons, List.not_mem_nil, or_false, reduceCtorEq, false_or, put.injEq] at hput
      rcases hput with ⟨-, rfl⟩ | ⟨-, rfl⟩ <;> exact hreal
  obtain ⟨hget, hdocument⟩ := results_tabled hs hc
  have htable : table [drop "l", put "k" Sample.oddResult, put "l" Sample.oddResult] "k" = some Sample.oddResult := by
    decide
  exact ⟨Eq.trans hget (by rw [htable]), hdocument _ hreal⟩

end ImageRecipe
