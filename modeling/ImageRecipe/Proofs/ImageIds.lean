import ImageRecipe.Proofs.EngineCalls
import ImageRecipe.Proofs.Shelves
import ImageRecipe.Proofs.StoreReads

/-! Whose image ids are taken. An id that the daemon backend gives was left by the very call that built the image: what
an earlier build left is removed before, and what a call leaves is what its reply says. -/

namespace ImageRecipe

open Host

namespace FileTree

variable {t t' : FileTree} {d D l : Location} {base name path : String} {mode : Nat} {data id : ByteArray}
  {P : Location → Prop}

theorem pathExists_of_remove (h : t.remove d path = .ok t') : t'.pathExists d path = false := by
  obtain ⟨l, e, hl, he, hno, rfl⟩ := remove_ok h
  have hroot : l ≠ [] := by
    rintro rfl
    rw [entry?_root] at he
    simp [← Option.some.inj he, Entry.isDirectory] at hno
  have hsubset : ∀ p e, entry? (t.erase l) p = some e → t.entry? p = some e := by
    intro p e hp
    by_cases heq : p = l
    · simp [heq, t.entry?_erase_self hroot] at hp
    · rwa [t.entry?_erase_of_ne heq] at hp
  rw [← Bool.not_eq_true, pathExists_iff]
  rintro ⟨q, e, hq, he⟩
  obtain ⟨p, hp, hthere⟩ := exists_resolve_false hq (by simp [he])
  obtain rfl : p = l := Except.ok.inj ((resolve_of_subset hsubset hthere hp).symm.trans hl)
  exact hthere (t.entry?_erase_self hroot)

/-- An absolute path leads from everywhere to one place. -/
theorem resolve_of_isAbsolute {last : Bool} {d' : Location} (h : RawPath.isAbsolute (RawPath.ofText path) = true) :
    t.resolve last d path = t.resolve last d' path := by
  simp only [resolve, h, if_true]

/-- A path leads to a file that was written as a whole. -/
def Holds (t : FileTree) (d : Location) (path : String) (data : ByteArray) : Prop :=
  ∃ l, t.resolve true d path = .ok l ∧ t.entry? l = some (.file writtenMode data)

theorem Holds.read (h : t.Holds d path data) : t.read d path = .ok data := by
  obtain ⟨l, hl, he⟩ := h
  exact read_eq hl he (grants_written data)

theorem Holds.of_subset (h : t.Holds d path data) (ht : ∀ l e, t.entry? l = some e → t'.entry? l = some e) :
    t'.Holds d path data := by
  obtain ⟨l, hl, he⟩ := h
  exact ⟨l, resolve_of_subset ht (by simp [he]) hl, ht l _ he⟩

/-- A name in a directory led to its place there before the tree got more dead ends. -/
theorem Blocks.eq_of_join (hb : Blocks t t') (hn : (FileName.ofText name).Proper)
    (hl : t.resolve false d (Path.join base name) = .ok l) (hD : t'.resolve true d base = .ok D)
    (hmode : t'.entry? D = some (.directory mode)) : l = D ++ [FileName.ofText name] := by
  obtain hjoin | ⟨f, -, hf⟩ := resolve_join_cases hn (hb.resolve hmode hD) (hb.directory hmode)
  · exact Except.ok.inj (hl.symm.trans hjoin)
  · rw [hl] at hf
    cases hf

/-- A file for which a name was free stands under its name, whatever dead ends the tree got since. -/
theorem Blocks.holds_join (hb : Blocks t t') (hn : (FileName.ofText name).Proper)
    (hl : t.resolve false d (Path.join base name) = .ok l) (hD : t'.resolve true d base = .ok D)
    (hmode : t'.entry? D = some (.directory mode))
    (he : t'.entry? (D ++ [FileName.ofText name]) = some (.file writtenMode data)) :
    t'.Holds d (Path.join base name) data :=
  ⟨_, resolve_join_again hn (hb.resolve hmode hD) hD (hmode.trans (hb.directory hmode).symm) hl (by simp [he]), he⟩

/-- A tree has a content in files in which another one has other files or nothing, all of them at certain places. -/
def Receives (P : Location → Prop) (id : ByteArray) (t t' : FileTree) : Prop :=
  ∀ l, t'.entry? l = t.entry? l ∨ P l ∧ Entry.DeadEnd (t.entry? l) ∧ ∃ mode, t'.entry? l = some (.file mode id)

namespace Receives

theorem refl (t : FileTree) : Receives P id t t := fun _ => .inl rfl

theorem carried (h : Receives P id t t') : Carries t' t where
  directory l mode hd := by
    rcases h l with heq | ⟨-, -, mode', hfile⟩
    · rw [← heq, hd]
    · simp [hfile] at hd
  link l target := by
    rcases h l with heq | ⟨-, hend, mode, hfile⟩
    · rw [heq]
    · simp [hend.2 target, hfile]

theorem put (h : Receives P id t t') (hl : P l) (hend : Entry.DeadEnd (t'.entry? l)) (mode : Nat) :
    Receives P id t (t'.put l (.file mode id)) := by
  have hroot : l ≠ [] := by
    rintro rfl
    exact hend.1 _ t'.entry?_root
  intro p
  by_cases heq : p = l
  · subst heq
    refine .inr ⟨hl, ?_, mode, t'.entry?_put_self hroot _⟩
    rcases h p with hsame | ⟨-, hend', -⟩
    · rwa [hsame] at hend
    · exact hend'
  · rw [t'.entry?_put_of_ne heq]
    exact h p

/-- A path that led to nothing is read from as what was received. -/
theorem eq_of_read (h : Receives P id t t') (hnone : t.pathExists d path = false) (hr : t'.read d path = .ok data) :
    data = id := by
  obtain ⟨l, mode, hl, he⟩ := read_ok hr
  rcases h l with heq | ⟨-, -, mode', hfile⟩
  · have hthere : t.pathExists d path = true :=
      pathExists_iff.2 ⟨l, _, h.carried.resolve hl, heq.symm.trans he⟩
    simp [hnone] at hthere
  · rw [hfile] at he
    cases he
    rfl

end Receives

end FileTree

/-- What the engine does on its next call. -/
def Host.reply (h : Host) : Reply := h.replies.head?.getD {}

namespace Engine

variable {e : Engine} {directory : Option String} {arguments : List String} {h h' : Host} {o : EngineOutput}
  {place : Location} {id : ByteArray}

theorem yields_callDirectory {path : String} : Yields (callDirectory (some path)) h place h' ↔
    h = h' ∧ h.files.resolve true h.directory path = .ok place ∧ ∃ mode, h.files.entry? place = some (.directory mode) := by
  unfold callDirectory
  simp only [yields_bind, yields_get, yields_ofExcept]
  constructor
  · rintro ⟨_, _, ⟨rfl, rfl⟩, l, _, ⟨hl, rfl⟩, hy⟩
    split at hy
    · next mode he =>
      obtain ⟨rfl, rfl⟩ := (yields_pure ..).1 hy
      exact ⟨rfl, hl, mode, he⟩
    · exact (yields_throw _ _ _ _ hy).elim
    · exact (yields_throw _ _ _ _ hy).elim
  · rintro ⟨rfl, hl, mode, he⟩
    refine ⟨h, h, ⟨rfl, rfl⟩, place, h, ⟨hl, rfl⟩, ?_⟩
    rw [he]
    simp

/-- A place that a call is told to leave an image id at. -/
def Told (arguments : List String) (place : Location) (h : Host) (l : Location) : Prop :=
  ∃ path ∈ imageIdTargets arguments, h.files.resolve true place path = .ok l

/-- A call of the engine from a place came to its end. -/
structure Called (arguments : List String) (place : Location) (h : Host) (o : EngineOutput) (h' : Host) : Prop where
  output : o = ⟨h.reply.code, Text.ofBytesLossy h.reply.output, Text.ofBytesLossy h.reply.errors⟩
  setting : SameSetting h h'
  files : h'.files = h.files ∨
    ∃ id, h.reply.imageId = some id ∧ FileTree.Receives (Told arguments place h) id h.files h'.files

/-- A host on which nothing was done but to leave image ids at places that a call was told. -/
private structure Receiving (arguments : List String) (place : Location) (id : ByteArray) (h u : Host) : Prop where
  setting : SameSetting h u
  files : FileTree.Receives (Told arguments place h) id h.files u.files

private theorem Receiving.leaveImageId {u : Host} (hr : Receiving arguments place id h u) {path : String}
    (hpath : path ∈ imageIdTargets arguments) : Receiving arguments place id h (leaveImageId place id u path) := by
  unfold Engine.leaveImageId
  split
  · exact hr
  · next l hl =>
    have htold : Told arguments place h l := ⟨path, hpath, hr.files.carried.resolve hl⟩
    have hput : ∀ mode, Entry.DeadEnd (u.files.entry? l) →
        Receiving arguments place id h { u with files := u.files.put l (.file mode id) } :=
      fun mode hend => ⟨IsTrans.trans _ _ _ hr.setting (.withFiles ..), hr.files.put htold hend mode⟩
    split
    · next mode data he => exact hput mode (by rw [he]; exact ⟨nofun, nofun⟩)
    · next he => exact hput openedMode (by rw [he]; exact ⟨nofun, nofun⟩)
    · exact hr

private theorem Receiving.leaveImageIds : ∀ {paths : List String} {u : Host}, Receiving arguments place id h u →
    (∀ path ∈ paths, path ∈ imageIdTargets arguments) →
      Receiving arguments place id h (paths.foldl (Engine.leaveImageId place id) u)
  | [], _, hr, _ => hr
  | _ :: _, _, hr, hpaths => (hr.leaveImageId (hpaths _ List.mem_cons_self)).leaveImageIds
      fun path hpath => hpaths path (List.mem_cons_of_mem _ hpath)

theorem called_of_yields (hy : Yields (e.call directory arguments) h o h') :
    ∃ place, Yields (callDirectory directory) h place h ∧ Called arguments place h o h' := by
  unfold call at hy
  obtain ⟨place, _, hstart, hy⟩ := (yields_bind ..).1 hy
  rw [yields_failingAs] at hstart
  obtain ⟨_, _, hwords, hstart⟩ := (yields_bind ..).1 hstart
  obtain ⟨-, rfl⟩ := (yields_ofExcept ..).1 hwords
  obtain ⟨place', _, hplace, hstart⟩ := (yields_bind ..).1 hstart
  obtain rfl := keeps_callDirectory.yields hplace
  obtain ⟨_, _, hprogram, hstart⟩ := (yields_bind ..).1 hstart
  obtain rfl := (keeps_startFrom place').yields hprogram
  obtain ⟨rfl, rfl⟩ := (yields_pure ..).1 hstart
  refine ⟨place', hplace, ?_⟩
  obtain ⟨cancelled, _, hcancelled, hy⟩ := (yields_bind ..).1 hy
  obtain rfl : h = _ := (Keeps.get.bind fun _ => Keeps.pure _ : Keeps Eq Host.isCancelled).yields hcancelled
  split at hy
  · exact (yields_throw _ _ _ _ hy).elim
  · simp only [Yields, environment, readVariable, bind_assoc, pure_bind, ran_bind, ran_get, ran_set, ran_pure,
      Prod.mk.injEq, Except.ok.injEq] at hy
    obtain ⟨rfl, rfl⟩ := hy
    cases hid : h.reply.imageId with
    | none =>
      rw [Host.reply] at hid
      rw [hid]
      exact ⟨rfl, ⟨rfl, rfl⟩, .inl rfl⟩
    | some id =>
      rw [Host.reply] at hid
      rw [hid]
      have hleft (replies : List Reply) (calls : List Call) : Receiving arguments place' id h
          ((imageIdTargets arguments).foldl (leaveImageId place' id) { h with replies, calls }) :=
        Receiving.leaveImageIds ⟨⟨rfl, rfl⟩, .refl _⟩ fun _ hpath => hpath
      exact ⟨rfl, (hleft _ _).setting, .inr ⟨id, hid, (hleft _ _).files⟩⟩

end Engine

namespace Daemon

variable {d : Daemon} {p : DaemonPlan} {w : WorkDirectory} {tag : String} {a : Architecture} {h h₁ h₂ h' : Host}
  {o : EngineOutput} {r : BuildResult}

/-- The tree with the files that the engine's build reads, put at two places one after the other. -/
private def supplied (p : DaemonPlan) (t : FileTree) (l l' : Location) : FileTree :=
  (t.put l (.file writtenMode (Text.bytes p.buildFile))).put l' (.file writtenMode (Text.bytes p.ignoreManifest))

private theorem yields_writeInputs (hy : Yields (writeInputs p w) h () h') : ∃ l l',
    h.files.resolve false h.directory w.buildFile = .ok l ∧
      (h.files.put l (.file writtenMode (Text.bytes p.buildFile))).resolve false h.directory w.ignoreFile = .ok l' ∧
      ((supplied p h.files l l').pathExists h.directory w.imageIdFile = false ∧
          h' = { h with files := supplied p h.files l l' } ∨
        ∃ files, (supplied p h.files l l').remove h.directory w.imageIdFile = .ok files ∧ h' = { h with files }) := by
  unfold writeInputs at hy
  obtain ⟨_, _, hbuild, hy⟩ := (yields_bind ..).1 hy
  rw [yields_failingAs, WorkDirectory.writeBuildFile, yields_onFiles] at hbuild
  obtain ⟨l, hl, -, rfl⟩ := yields_writeBytes hbuild
  obtain ⟨_, _, hignore, hy⟩ := (yields_bind ..).1 hy
  rw [yields_failingAs, WorkDirectory.writeIgnoreFile, yields_onFiles] at hignore
  obtain ⟨l', hl', -, rfl⟩ := yields_writeBytes hignore
  refine ⟨l, l', hl, hl', ?_⟩
  obtain ⟨there, _, hthere, hy⟩ := (yields_bind ..).1 hy
  obtain ⟨rfl, rfl⟩ := (yields_look ..).1 hthere
  split at hy
  · rw [yields_failingAs] at hy
    obtain ⟨files, hremove, rfl⟩ := (yields_change ..).1 hy
    exact .inr ⟨files, hremove, rfl⟩
  · next hnone =>
    obtain ⟨-, rfl⟩ := (yields_pure ..).1 hy
    rw [Bool.not_eq_true] at hnone
    exact .inl ⟨hnone, rfl⟩

/-- No image id of an earlier build is left when the engine is called. -/
theorem pathExists_of_writeInputs (hy : Yields (writeInputs p w) h () h') :
    h'.files.pathExists h'.directory w.imageIdFile = false := by
  obtain ⟨l, l', -, -, ⟨hnone, rfl⟩ | ⟨files, hremove, rfl⟩⟩ := yields_writeInputs hy
  · exact hnone
  · exact FileTree.pathExists_of_remove hremove

/-- What the engine's build reads is there once it was written, if the engine can be started in the work directory. -/
theorem holds_of_writeInputs (hy : Yields (writeInputs p w) h () h') {D : Location} {mode : Nat}
    (hD : h'.files.resolve true h'.directory w.root = .ok D) (hmode : h'.files.entry? D = some (.directory mode)) :
    h'.files.Holds h'.directory w.buildFile (Text.bytes p.buildFile) ∧
      h'.files.Holds h'.directory w.ignoreFile (Text.bytes p.ignoreManifest) := by
  have hbuild : (FileName.ofText "Dockerfile").Proper := FileName.proper_of_fixed (by simp [fixedNames])
  have hignore : (FileName.ofText ".dockerignore").Proper := FileName.proper_of_fixed (by simp [fixedNames])
  have hapart : FileName.ofText "Dockerfile" ≠ FileName.ofText ".dockerignore" := by decide +kernel
  obtain ⟨l, l', hl, hl', hor⟩ := yields_writeInputs hy
  obtain ⟨t, rfl, ht⟩ : ∃ t, h' = { h with files := t } ∧ (t = supplied p h.files l l' ∨
      ∃ l'', (supplied p h.files l l').resolve false h.directory w.imageIdFile = .ok l'' ∧
        t = (supplied p h.files l l').erase l'') := by
    obtain ⟨-, rfl⟩ | ⟨files, hremove, rfl⟩ := hor
    · exact ⟨_, rfl, .inl rfl⟩
    · obtain ⟨l'', -, hl'', -, -, hfiles⟩ := FileTree.remove_ok hremove
      exact ⟨files, rfl, .inr ⟨l'', hl'', hfiles⟩⟩
  -- whatever is written or removed, the work directory stays where it is
  have hlast : FileTree.Blocks (supplied p h.files l l') t := by
    obtain rfl | ⟨l'', -, rfl⟩ := ht
    · exact .refl _
    · exact .erase _ _
  have hmiddle : FileTree.Blocks (h.files.put l (.file writtenMode (Text.bytes p.buildFile))) t :=
    (FileTree.Blocks.put_file _ _ _ _).trans hlast
  have hfirst : FileTree.Blocks h.files t := (FileTree.Blocks.put_file _ _ _ _).trans hmiddle
  have hsame : ∀ n, n ≠ imageIdName → t.entry? (D ++ [n]) = FileTree.entry? (supplied p h.files l l') (D ++ [n]) := by
    intro n hn
    obtain rfl | ⟨l'', hl'', rfl⟩ := ht
    · rfl
    · obtain rfl := hlast.eq_of_join proper_imageIdName hl'' hD hmode
      exact FileTree.entry?_erase_of_ne _ (by simpa [imageIdName] using hn)
  obtain rfl := hfirst.eq_of_join hbuild hl hD hmode
  obtain rfl := hmiddle.eq_of_join hignore hl' hD hmode
  constructor
  · refine hfirst.holds_join hbuild hl hD hmode ?_
    rw [hsame _ (by decide +kernel), supplied, FileTree.entry?_put_of_ne _ (by simpa using hapart)]
    exact FileTree.entry?_put_self _ (by simp) _
  · refine hmiddle.holds_join hignore hl' hD hmode ?_
    rw [hsame _ (by decide +kernel), supplied]
    exact FileTree.entry?_put_self _ (by simp) _

/-- A daemon backend wrote what the engine's build reads, and then the engine ran until it came to its end. -/
structure Runs (d : Daemon) (p : DaemonPlan) (w : WorkDirectory) (tag : String) (a : Architecture) (h h₁ : Host)
    (o : EngineOutput) (h₂ : Host) : Prop where
  inputs : Yields (writeInputs p w) h () h₁
  call : Yields (d.call (some w.root) (buildArguments w tag a)) h₁ o h₂

/-- The engine changed nothing but the file that a work directory's image id is to be left in. -/
def LeavesId (w : WorkDirectory) (h h' : Host) : Prop :=
  ∀ l, h'.files.entry? l ≠ h.files.entry? l → h.files.resolve true h.directory w.imageIdFile = .ok l

namespace Runs

variable (hr : d.Runs p w tag a h h₁ o h₂)
include hr

theorem called : ∃ D mode, h₁.files.resolve true h₁.directory w.root = .ok D ∧
    h₁.files.entry? D = some (.directory mode) ∧ Engine.Called (buildArguments w tag a) D h₁ o h₂ := by
  have hcall := hr.call
  unfold Daemon.call at hcall
  obtain ⟨D, hplace, hcalled⟩ := Engine.called_of_yields ((yields_failingAs ..).1 hcall)
  obtain ⟨-, hD, mode, hmode⟩ := Engine.yields_callDirectory.1 hplace
  exact ⟨D, mode, hD, hmode, hcalled⟩

theorem directory_eq : h₂.directory = h₁.directory := by
  obtain ⟨D, mode, -, -, hcalled⟩ := hr.called
  exact hcalled.setting.directory

/-- An image id that is read after the engine ran was left by the engine. -/
theorem imageId_of_read {id : ByteArray} (hid : h₂.files.read h₂.directory w.imageIdFile = .ok id) :
    h₁.reply.imageId = some id := by
  have hnone := pathExists_of_writeInputs hr.inputs
  rw [hr.directory_eq] at hid
  obtain ⟨D, mode, -, -, hcalled⟩ := hr.called
  obtain hsame | ⟨id', hreply, hreceives⟩ := hcalled.files
  · rw [hsame] at hid
    have hthere := FileTree.pathExists_of_read hid
    simp [hnone] at hthere
  · rwa [hreceives.eq_of_read hnone hid]

/-- What the engine's build reads is there after the engine ran, as it was written. -/
theorem holds (hleaves : LeavesId w h₁ h₂) : h₂.files.Holds h₂.directory w.buildFile (Text.bytes p.buildFile) ∧
    h₂.files.Holds h₂.directory w.ignoreFile (Text.bytes p.ignoreManifest) := by
  -- there was nothing yet where the image id was left
  have hsubset : ∀ l e, h₁.files.entry? l = some e → h₂.files.entry? l = some e := by
    intro l e he
    by_contra hchanged
    have hl := hleaves l fun hsame => hchanged (hsame.trans he)
    have hthere := FileTree.pathExists_iff.2 ⟨l, e, hl, he⟩
    simp [pathExists_of_writeInputs hr.inputs] at hthere
  obtain ⟨D, mode, hD, hmode, -⟩ := hr.called
  rw [hr.directory_eq]
  exact (holds_of_writeInputs hr.inputs hD hmode).imp (·.of_subset hsubset) (·.of_subset hsubset)

/-- An engine that is told one place for the image id changes nothing but the file at this place. -/
theorem leavesId (habsolute : RawPath.isAbsolute (RawPath.ofText w.root) = true) (ht : Engine.Inert tag) :
    LeavesId w h₁ h₂ := by
  obtain ⟨D, mode, -, -, hcalled⟩ := hr.called
  intro l hchanged
  obtain hsame | ⟨id, -, hreceives⟩ := hcalled.files
  · exact absurd (by rw [hsame]) hchanged
  · obtain ⟨⟨path, hpath, hl⟩, -⟩ := (hreceives l).resolve_left hchanged
    obtain rfl := eq_of_mem_imageIdTargets ht hpath
    have hfile : RawPath.isAbsolute (RawPath.ofText w.imageIdFile) = true :=
      (Path.isAbsolute_join _ proper_imageIdName.slash_notMem).trans habsolute
    rwa [FileTree.resolve_of_isAbsolute hfile] at hl

/-- After the engine ran, its code and the image id that it left decide about the build. -/
theorem ran_materialize : ran (d.materialize (.daemon p) w tag a) h =
    (if o.code = some 0 then
      ((ran w.readImageId h₂).1.map fun id => ⟨tag, id, .daemon, h₂.clock⟩).mapError fun e =>
        .build (o.log ++ "\nengine did not write an image id: " ++ e.message)
    else .error (.build o.log), h₂) := by
  have hkeeps : Keeps Eq w.readImageId := (Keeps.readText _).onFiles.bind fun _ => Keeps.pure _
  unfold materialize
  dsimp only
  rw [hr.inputs.ran_bind, hr.call.ran_bind]
  by_cases hcode : o.code = some 0
  · have hsucceeded : o.succeeded = true := by simp [EngineOutput.succeeded, hcode]
    rw [hsucceeded, if_pos hcode, Bool.not_true, if_neg Bool.false_ne_true, ran_bind, ran_failingAs]
    rcases hread : ran w.readImageId h₂ with ⟨e | id, h₃⟩
    · obtain rfl := hkeeps.ends hread
      rfl
    · obtain rfl := hkeeps.ends hread
      rfl
  · have hsucceeded : o.succeeded = false := by simp [EngineOutput.succeeded, hcode]
    rw [hsucceeded, if_neg hcode]
    rfl

end Runs

private theorem yields_readImageId {id : String} : Yields w.readImageId h id h' ↔ h = h' ∧ ∃ data text,
    h.files.read h.directory w.imageIdFile = .ok data ∧ Text.ofBytes? data = some text ∧ Text.trim text = id := by
  unfold WorkDirectory.readImageId
  rw [yields_bind]
  simp only [yields_onFiles, yields_readText, yields_pure]
  constructor
  · rintro ⟨text, _, ⟨rfl, data, hdata, htext⟩, rfl, rfl⟩
    exact ⟨rfl, data, text, hdata, htext, rfl⟩
  · rintro ⟨rfl, data, text, hdata, htext, rfl⟩
    exact ⟨text, h, ⟨rfl, data, hdata, htext⟩, rfl, rfl⟩

/-- An image is built when the engine ran, ended with code zero and left an image id that is a text. -/
theorem yields_materialize : Yields (d.materialize (.daemon p) w tag a) h r h' ↔ ∃ h₁ o id text,
    d.Runs p w tag a h h₁ o h' ∧ o.code = some 0 ∧ h'.files.read h'.directory w.imageIdFile = .ok id ∧
      Text.ofBytes? id = some text ∧ r = ⟨tag, Text.trim text, .daemon, h'.clock⟩ := by
  constructor
  · intro hy
    obtain ⟨h₁, o, h₂, hr⟩ : ∃ h₁ o h₂, d.Runs p w tag a h h₁ o h₂ := by
      unfold materialize at hy
      obtain ⟨_, h₁, hinputs, hy⟩ := (yields_bind ..).1 hy
      obtain ⟨o, h₂, hcall, -⟩ := (yields_bind ..).1 hy
      exact ⟨h₁, o, h₂, hinputs, hcall⟩
    unfold Yields at hy
    rw [hr.ran_materialize] at hy
    obtain ⟨hout, rfl⟩ := Prod.mk.inj hy
    split at hout
    · next hcode =>
      obtain ⟨id, hid, rfl⟩ := map_eq_ok.1 (mapError_eq_ok.1 hout)
      obtain ⟨_, hread⟩ := exists_yields hid
      obtain ⟨rfl, data, text, hdata, htext, rfl⟩ := yields_readImageId.1 hread
      exact ⟨h₁, o, data, text, hr, hcode, hdata, htext, rfl⟩
    · cases hout
  · rintro ⟨h₁, o, id, text, hr, hcode, hread, htext, rfl⟩
    have hid : Yields w.readImageId h' (Text.trim text) h' := yields_readImageId.2 ⟨rfl, id, text, hread, htext, rfl⟩
    unfold Yields at hid ⊢
    rw [hr.ran_materialize, if_pos hcode, hid]
    rfl

/-- An image id is that of the image which the engine just built. The engine is called when no image id is left of an
earlier build, and what is then read is what it leaves. Whenever it ran and left none, or failed, the build fails with
what it wrote; and if it changed nothing but the image id, the files that it read are still there. -/
theorem materialize_fresh (d : Daemon) (p : DaemonPlan) (w : WorkDirectory) (tag : String) (a : Architecture) (h : Host) :
    (∀ r h', Yields (d.materialize (.daemon p) w tag a) h r h' ↔ ∃ h₁ o id text,
      d.Runs p w tag a h h₁ o h' ∧ o.code = some 0 ∧ h₁.files.pathExists h₁.directory w.imageIdFile = false ∧
        h₁.reply.imageId = some id ∧ h'.files.read h'.directory w.imageIdFile = .ok id ∧
        Text.ofBytes? id = some text ∧ r = ⟨tag, Text.trim text, .daemon, h'.clock⟩) ∧
    ∀ h₁ o h₂, d.Runs p w tag a h h₁ o h₂ →
      ((∃ r, Yields (d.materialize (.daemon p) w tag a) h r h₂) ∨
        ∃ rest, ran (d.materialize (.daemon p) w tag a) h = (.error (.build (o.log ++ rest)), h₂)) ∧
      (LeavesId w h₁ h₂ → h₂.files.read h₂.directory w.buildFile = .ok (Text.bytes p.buildFile) ∧
        h₂.files.read h₂.directory w.ignoreFile = .ok (Text.bytes p.ignoreManifest)) := by
  constructor
  · intro r h'
    rw [yields_materialize]
    constructor
    · rintro ⟨h₁, o, id, text, hr, hcode, hread, htext, rfl⟩
      exact ⟨h₁, o, id, text, hr, hcode, pathExists_of_writeInputs hr.inputs, hr.imageId_of_read hread, hread, htext, rfl⟩
    · rintro ⟨h₁, o, id, text, hr, hcode, -, -, hread, htext, rfl⟩
      exact ⟨h₁, o, id, text, hr, hcode, hread, htext, rfl⟩
  · intro h₁ o h₂ hr
    refine ⟨?_, fun hleaves => (hr.holds hleaves).imp FileTree.Holds.read FileTree.Holds.read⟩
    unfold Yields
    rw [hr.ran_materialize]
    by_cases hcode : o.code = some 0
    · rw [if_pos hcode]
      cases (ran w.readImageId h₂).1 with
      | ok id => exact .inl ⟨_, rfl⟩
      | error e => exact .inr ⟨"\nengine did not write an image id: " ++ e.message, by rw [← String.append_assoc]; rfl⟩
    · rw [if_neg hcode]
      exact .inr ⟨"", by rw [String.append_empty]⟩

end Daemon

namespace Sample

/-- A host with an engine that will do what a reply says, and with an image id that an earlier build left. -/
def leftover (reply : Reply) : Host :=
  let entries := [(["engine"], Entry.file 0o755 (Text.bytes "#!/bin/sh")), (["w"], .directory directoryMode),
    (["w", "image-id"], .file writtenMode (Text.bytes "sha256:old"))]
  { files := entries.foldl (fun t e => t.put (Location.ofTexts e.1) e.2) FileTree.empty
    replies := [reply] }

def daemon : Daemon := { engine := ⟨"/engine"⟩, minMajor := 19, pullRetry := {} }

def scratchPlan : DaemonPlan := ⟨["FROM scratch"], SortedMap.empty⟩

/-- Write what the engine's build reads, and call the engine. -/
def callEngine : BackendM EngineOutput := do
  Daemon.writeInputs scratchPlan ⟨"/w"⟩
  daemon.call (some "/w") (Daemon.buildArguments ⟨"/w"⟩ "t" .x86)

theorem runs_of_callEngine {h : Host} {o : EngineOutput} (ho : (ran callEngine h).1 = .ok o) :
    ∃ h₁ h₂, daemon.Runs scratchPlan ⟨"/w"⟩ "t" .x86 h h₁ o h₂ := by
  obtain ⟨h₂, hy⟩ := exists_yields ho
  obtain ⟨_, h₁, hinputs, hcall⟩ := (yields_bind ..).1 hy
  exact ⟨h₁, h₂, hinputs, hcall⟩

end Sample

open Sample in
/-- An engine that leaves an id gives it to the image. One that leaves none makes the build fail, though there was the
id of an earlier image. -/
theorem Daemon.materialize_fresh_sample :
    (∃ r h₂, Yields (daemon.materialize (.daemon scratchPlan) ⟨"/w"⟩ "t" .x86)
        (leftover { imageId := some (Text.bytes "sha256:new\n") }) r h₂ ∧ r.imageId = "sha256:new" ∧
      h₂.files.read h₂.directory "/w/Dockerfile" = .ok (Text.bytes scratchPlan.buildFile)) ∧
    ∃ rest h₂, ran (daemon.materialize (.daemon scratchPlan) ⟨"/w"⟩ "t" .x86)
      (leftover { output := Text.bytes "built" }) = (.error (.build ("built\n" ++ rest)), h₂) := by
  constructor
  · have hbuilt : (ran (daemon.materialize (.daemon scratchPlan) ⟨"/w"⟩ "t" .x86)
        (leftover { imageId := some (Text.bytes "sha256:new\n") })).1 =
          .ok ⟨"t", "sha256:new", .daemon, (leftover {}).clock⟩ := by decide +kernel
    obtain ⟨h₂, hy⟩ := exists_yields hbuilt
    obtain ⟨hiff, hruns⟩ := materialize_fresh daemon scratchPlan ⟨"/w"⟩ "t" .x86
      (leftover { imageId := some (Text.bytes "sha256:new\n") })
    obtain ⟨h₁, o, -, -, hr, -⟩ := (hiff _ _).1 hy
    have hleaves := hr.leavesId (by decide +kernel) (by decide +kernel)
    exact ⟨_, h₂, hy, rfl, ((hruns h₁ o h₂ hr).2 hleaves).1⟩
  · obtain ⟨h₁, h₂, hr⟩ := runs_of_callEngine (h := leftover { output := Text.bytes "built" })
      (o := ⟨some 0, "built", ""⟩) (by decide +kernel)
    obtain ⟨-, hruns⟩ := materialize_fresh daemon scratchPlan ⟨"/w"⟩ "t" .x86 (leftover { output := Text.bytes "built" })
    obtain ⟨r, hy⟩ | ⟨rest, hfails⟩ := (hruns _ _ _ hr).1
    · have hfails : (ran (daemon.materialize (.daemon scratchPlan) ⟨"/w"⟩ "t" .x86)
          (leftover { output := Text.bytes "built" })).1.isOk = false := by decide +kernel
      rw [show ran _ _ = _ from hy] at hfails
      cases hfails
    · exact ⟨rest, h₂, hfails⟩

end ImageRecipe
