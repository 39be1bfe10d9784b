import ImageRecipe.Proofs.MockImages
import ImageRecipe.Proofs.ResultTables

/-! Files of the cache with anything in them. A text that is no result is as good as no file, for those who look for the
result and for the build that goes by it. Bytes that spell no text are not: the file stays, and whoever looks for the
result fails. -/

namespace ImageRecipe

/-- To read a file as a text goes by its bytes. -/
theorem Store.ran_readText {h : Host} {path : String} {data : ByteArray}
    (hr : h.files.read h.directory path = .ok data) :
    ran (onFiles (Host.readText path)) h =
      match Text.ofBytes? data with
      | some text => (.ok text, h)
      | none => (.error (.io .notUtf8), h) := by
  have hbytes : Yields (Host.readBytes path) h data h := (yields_inspect ..).2 ⟨hr, rfl⟩
  unfold onFiles Host.readText
  rw [ran_failingAs, hbytes.ran_bind]
  cases Text.ofBytes? data <;> rfl

namespace Store

/-- In the cache there is a file for a key, with a content that can be read. -/
structure HasEntry (s : Store) (k : Nat) (h : Host) (key : String) (C : Location) (data : ByteArray) : Prop where
  room : h.files.Room h.directory k s.cache C
  fits : Path.Fits k (key ++ ".json")
  file : ∃ mode, h.files.entry? (C ++ [entryName key]) = some (.file mode data) ∧
    (Entry.file mode data).grants .read = true

/-- In the cache there is nothing for a key. -/
structure LacksEntry (s : Store) (k : Nat) (h : Host) (key : String) (C : Location) : Prop where
  room : h.files.Room h.directory k s.cache C
  fits : Path.Fits k (key ++ ".json")
  missing : h.files.entry? (C ++ [entryName key]) = none

variable {s : Store} {k : Nat} {h : Host} {key text : String} {C : Location} {data : ByteArray} {r : BuildResult}

/-- The host without the file of a key. -/
def withoutEntry (h : Host) (C : Location) (key : String) : Host :=
  { h with files := h.files.erase (C ++ [entryName key]) }

namespace LacksEntry

theorem getResult (he : s.LacksEntry k h key C) : Yields (s.getResult key) h none h := by
  have hresolve : h.files.resolve true h.directory (s.resultPath key) = .ok (C ++ [entryName key]) :=
    he.room.resolve_join he.fits fun _ _ hlink => by cases he.missing.symm.trans hlink
  have hmissing : h.files.pathExists h.directory (s.resultPath key) = false := by
    refine Bool.eq_false_iff.2 fun hexists => ?_
    obtain ⟨l, e, hl, hentry⟩ := FileTree.pathExists_iff.1 hexists
    rw [← Except.ok.inj (hresolve.symm.trans hl), he.missing] at hentry
    cases hentry
  refine (yields_bind ..).2 ⟨false, h, (yields_look ..).2 ⟨hmissing, rfl⟩, ?_⟩
  exact (yields_pure ..).2 ⟨rfl, rfl⟩

/-- A result that is put has a file then. -/
theorem putResult (he : s.LacksEntry k h key C) (r : BuildResult) :
    ∃ h', Yields (s.putResult key r) h () h' ∧ s.HasEntry k h' key C (written r.toDocument) := by
  have hno : Entry.NoDirectory (h.files.entry? (C ++ [entryName key])) := by
    rw [he.missing]
    exact nofun
  have hlink : ∀ target, h.files.entry? (C ++ [entryName key]) ≠ some (.link target) := by
    rw [he.missing]
    exact nofun
  refine ⟨_, (yields_onFiles ..).2 (he.room.yields_writeBytes he.fits hno hlink (written r.toDocument)), ?_⟩
  exact ⟨he.room.carries (.of_put_file hno hlink _ _), he.fits, writtenMode,
    h.files.entry?_put_self (by simp) _, FileTree.grants_written _⟩

end LacksEntry

namespace HasEntry

theorem read (he : s.HasEntry k h key C data) : h.files.read h.directory (s.resultPath key) = .ok data := by
  obtain ⟨mode, hfile, hg⟩ := he.file
  exact he.room.read_join he.fits hfile hg

theorem remove (he : s.HasEntry k h key C data) :
    Yields (Host.remove (s.resultPath key)) h () (withoutEntry h C key) ∧
      s.LacksEntry k (withoutEntry h C key) key C := by
  obtain ⟨mode, hfile, -⟩ := he.file
  refine ⟨(yields_change ..).2 ⟨_, he.room.remove_join he.fits hfile, rfl⟩, ?_, he.fits, ?_⟩
  · refine he.room.carries (.of_erase ?_ ?_)
    · rw [hfile]
      exact nofun
    · rw [hfile]
      exact nofun
  · exact h.files.entry?_erase_self (by simp)

/-- To look for a result goes by the text of the file, if it has one. -/
theorem ran_getResult (he : s.HasEntry k h key C data) :
    ran (s.getResult key) h =
      match Text.ofBytes? data with
      | none => (.error (.io .notUtf8), h)
      | some text =>
        match (Json.parse text).bind BuildResult.ofDocument? with
        | some r => (.ok (some r), h)
        | none => (.ok none, withoutEntry h C key) := by
  have hlook : Yields (Host.pathExists (s.resultPath key) : StoreM Bool) h true h :=
    (yields_look ..).2 ⟨FileTree.pathExists_of_read he.read, rfl⟩
  unfold Store.getResult
  rw [hlook.ran_bind]
  change ran (onFiles (Host.readText (s.resultPath key)) >>= _) h = _
  rw [ran_bind, ran_readText he.read]
  cases Text.ofBytes? data with
  | none => rfl
  | some text =>
    dsimp only
    cases (Json.parse text).bind BuildResult.ofDocument? with
    | some r => rfl
    | none =>
      have hremove : Yields (onFiles (Host.remove (s.resultPath key))) h () (withoutEntry h C key) :=
        (yields_onFiles ..).2 he.remove.1
      exact hremove.ran_bind _

theorem getResult_of_result (he : s.HasEntry k h key C data)
    (hr : readBack? BuildResult.ofDocument? data = some r) : Yields (s.getResult key) h (some r) h :=
  yields_getResult.2 ⟨rfl, data, he.read, hr⟩

theorem getResult_of_text (he : s.HasEntry k h key C data) (ht : Text.ofBytes? data = some text)
    (hno : (Json.parse text).bind BuildResult.ofDocument? = none) :
    Yields (s.getResult key) h none (withoutEntry h C key) := by
  unfold Yields
  simp only [he.ran_getResult, ht, hno]

theorem getResult_of_bytes (he : s.HasEntry k h key C data) (ht : Text.ofBytes? data = none) :
    ran (s.getResult key) h = (.error (.io .notUtf8), h) := by
  simp only [he.ran_getResult, ht]

end HasEntry

end Store

namespace Recipe

open Workshop

variable {r : Recipe} {w w₁ : Workshop} {j : Job}

/-- What is left to do in a build when nothing is found under its key. -/
def makeAnew (r : Recipe) (j : Job) : BuildM Outcome := do
  let result ← r.materialize j
  register r.project result
  pure ⟨result, j.plan.contentHash, false⟩

/-- A build that finds nothing in the cache makes its image. -/
theorem ran_build_of_missed (hj : Yields r.job w j w₁) {h' : Host}
    (hm : Yields (w₁.store.getResult (r.key j)) w₁.host none h') :
    ran r.build w = ran (r.makeAnew j) { w₁ with host := h' } := by
  have hget : Yields (onHost .store (w₁.store.getResult (r.key j))) w₁ none { w₁ with host := h' } :=
    (yields_onHost ..).2 ⟨h', hm, rfl⟩
  have hcached : Yields (r.cached? (r.key j)) w₁ none { w₁ with host := h' } := by
    unfold cached?
    refine (yields_bind ..).2 ⟨w₁, w₁, (yields_get ..).2 ⟨rfl, rfl⟩, (yields_bind ..).2 ⟨none, _, hget, ?_⟩⟩
    exact (yields_pure ..).2 ⟨rfl, rfl⟩
  unfold build
  rw [hj.ran_bind, hcached.ran_bind]
  rfl

/-- A build that cannot look for its result goes no further. -/
theorem ran_build_of_failed (hj : Yields r.job w j w₁) {e : StoreError}
    (hm : ran (w₁.store.getResult (r.key j)) w₁.host = (.error e, w₁.host)) :
    ran r.build w = (.error (.store e), w₁) := by
  have hcached : ran (r.cached? (r.key j)) w₁ = (.error (.store e), w₁) := by
    unfold cached?
    rw [ran_bind, ran_get]
    dsimp only
    rw [ran_bind, ran_onHost, hm]
    rfl
  unfold build
  rw [hj.ran_bind, ran_bind, hcached]

end Recipe

/-- A file of the cache is read without failure just if it holds a text. If the text is that of a result, the result is
found. If it is not, nothing is found and the file is gone: looking again finds nothing, what is put then is found, and
a build that looked goes on to make its image. If it holds no text, nothing changes and the build fails too. -/
theorem Store.HasEntry.missed_iff {s : Store} {k : Nat} {h : Host} {key : String} {C : Location} {data : ByteArray}
    (he : s.HasEntry k h key C data) :
    ((∃ found h', Yields (s.getResult key) h found h') ↔ ∃ text, Text.ofBytes? data = some text) ∧
      (∀ text r, Text.ofBytes? data = some text → (Json.parse text).bind BuildResult.ofDocument? = some r →
        Yields (s.getResult key) h (some r) h) ∧
      (∀ text, Text.ofBytes? data = some text → (Json.parse text).bind BuildResult.ofDocument? = none →
        ∃ h', h' = { h with files := h.files.erase (C ++ [entryName key]) } ∧
          Yields (s.getResult key) h none h' ∧ Yields (s.getResult key) h' none h' ∧
          (∀ r : BuildResult, r.createdAt.Real →
            ∃ h'', Yields (s.putResult key r) h' () h'' ∧ Yields (s.getResult key) h'' (some r) h'') ∧
          ∀ (r : Recipe) w j w₁, Yields r.job w j w₁ → w₁.store = s → w₁.host = h → r.key j = key →
            ran r.build w = ran (r.makeAnew j) { w₁ with host := h' }) ∧
      (Text.ofBytes? data = none →
        ran (s.getResult key) h = (.error (.io .notUtf8), h) ∧
          ∀ (r : Recipe) w j w₁, Yields r.job w j w₁ → w₁.store = s → w₁.host = h → r.key j = key →
            ran r.build w = (.error (.store (.io .notUtf8)), w₁)) := by
  refine ⟨⟨?_, ?_⟩, fun text r ht hr => ?_, fun text ht hno => ?_, fun ht => ?_⟩
  · rintro ⟨found, h', hy⟩
    cases ht : Text.ofBytes? data with
    | some text => exact ⟨text, rfl⟩
    | none =>
      rw [Yields, he.getResult_of_bytes ht] at hy
      cases hy
  · rintro ⟨text, ht⟩
    cases hr : (Json.parse text).bind BuildResult.ofDocument? with
    | some r => exact ⟨_, _, he.getResult_of_result (Option.bind_eq_some_iff.2 ⟨text, ht, hr⟩)⟩
    | none => exact ⟨_, _, he.getResult_of_text ht hr⟩
  · exact he.getResult_of_result (Option.bind_eq_some_iff.2 ⟨text, ht, hr⟩)
  · have hmissed := he.getResult_of_text ht hno
    refine ⟨_, rfl, hmissed, he.remove.2.getResult, fun r hr => ?_, ?_⟩
    · obtain ⟨h'', hput, he'⟩ := he.remove.2.putResult r
      exact ⟨h'', hput, he'.getResult_of_result (BuildResult.readBack?_written_of_real hr)⟩
    · rintro r w j w₁ hj rfl rfl rfl
      exact Recipe.ran_build_of_missed hj hmissed
  · refine ⟨he.getResult_of_bytes ht, ?_⟩
    rintro r w j w₁ hj rfl rfl rfl
    exact Recipe.ran_build_of_failed hj (he.getResult_of_bytes ht)

namespace Sample

/-- A result that broke off after its first byte. -/
def brokenOff : ByteArray := Text.bytes "\x7b"

/-- A byte that no text has. -/
def noText : ByteArray := ⟨#[0xff]⟩

def cachePlace : Location := Location.ofTexts ["s", "store", "cache"]

/-- A workshop in whose cache two files are damaged, one of them that of the recipe for the mock backend. -/
def damaged : Workshop :=
  let entries := [["w"], ["s"], ["s", "store"], ["s", "store", "cache"]].map fun l =>
    (Location.ofTexts l, Entry.directory directoryMode)
  let files := entries.foldl (fun t e => t.put e.1 e.2) FileTree.empty
  { workshop with
    host.files := (files.put (cachePlace ++ [Store.entryName mockKey]) (.file writtenMode brokenOff)).put
      (cachePlace ++ [Store.entryName "k"]) (.file writtenMode noText) }

/-- The job of the recipe has its plan and its context, and leaves the damaged files in their places. -/
theorem job_damaged :
    (match ran (recipe .mock .x86).job damaged with
      | (.ok j, w) => decide (j.plan = onePlan "FROM i:v" ∧ j.context = noContext ∧ w.store = store ∧
          w.host.files.resolve true w.host.directory store.cache = .ok cachePlace ∧
          w.host.files.entry? cachePlace = some (.directory directoryMode) ∧
          w.host.files.entry? (cachePlace ++ [Store.entryName mockKey]) = some (.file writtenMode brokenOff) ∧
          w.host.files.entry? (cachePlace ++ [Store.entryName "k"]) = some (.file writtenMode noText))
      | _ => false) = true := by decide +kernel

/-- A damaged file can be read, and is the entry of its key. -/
theorem hasEntry_damaged {h : Host} {key : String} {data : ByteArray} (hfits : Path.Fits Store.nameRoom (key ++ ".json"))
    (hresolve : h.files.resolve true h.directory store.cache = .ok cachePlace)
    (hdirectory : h.files.entry? cachePlace = some (.directory directoryMode))
    (hfile : h.files.entry? (cachePlace ++ [Store.entryName key]) = some (.file writtenMode data)) :
    store.HasEntry Store.nameRoom h key cachePlace data where
  room :=
    { endsInName := .join (Path.join store.root "store") (show (FileName.ofText "cache").Proper by decide +kernel)
      resolve_eq := hresolve
      directory := ⟨directoryMode, hdirectory, fun r => by cases r <;> decide⟩
      short := short_store.path (show "cache" ∈ Store.roomNames by simp [Store.roomNames]) }
  fits := hfits
  file := ⟨writtenMode, hfile, FileTree.grants_written data⟩

end Sample

/-- A build starts anew from an entry that broke off, and a look for an entry with a byte that no text has fails. -/
theorem Store.HasEntry.missed_iff_sample :
    (∃ j w₁ h', Yields (Sample.recipe .mock .x86).job Sample.damaged j w₁ ∧
      ran (Sample.recipe .mock .x86).build Sample.damaged =
        ran ((Sample.recipe .mock .x86).makeAnew j) { w₁ with host := h' }) ∧
      (∃ h, ran (Sample.store.getResult "k") h = (.error (.io .notUtf8), h)) := by
  have hjob := Sample.job_damaged
  rcases hrun : ran (Sample.recipe .mock .x86).job Sample.damaged with ⟨_ | j, w⟩
  · rw [hrun] at hjob
    cases hjob
  · rw [hrun] at hjob
    obtain ⟨hplan, hcontext, hstore, hresolve, hdirectory, hbroken, hbytes⟩ := of_decide_eq_true hjob
    have hkey : (Sample.recipe .mock .x86).key j = Sample.mockKey := by
      unfold Recipe.key
      rw [hplan, hcontext, Sample.leadsToKey.1.plan, Sample.leadsToKey.1.key]
    have hfits : ∀ key ∈ [Sample.mockKey, "k"], Path.Fits Store.nameRoom (key ++ ".json") := by
      intro key hmem
      simp only [List.mem_cons, List.not_mem_nil, or_false] at hmem
      rcases hmem with rfl | rfl <;> exact ⟨by decide +kernel, by decide +kernel, by decide +kernel, by decide +kernel⟩
    have he := Sample.hasEntry_damaged (hfits _ (by simp)) hresolve hdirectory hbroken
    have he' := Sample.hasEntry_damaged (hfits _ (by simp)) hresolve hdirectory hbytes
    obtain ⟨-, -, hmissed, -⟩ := Store.HasEntry.missed_iff he
    obtain ⟨-, -, -, hfailed⟩ := Store.HasEntry.missed_iff he'
    obtain ⟨h', -, -, -, -, hbuild⟩ := hmissed "\x7b" (Text.ofBytes?_bytes "\x7b") (by decide +kernel)
    exact ⟨⟨j, w, h', hrun, hbuild _ _ j w hrun hstore rfl hkey⟩, w.host, (hfailed (by decide +kernel)).1⟩

end ImageRecipe
