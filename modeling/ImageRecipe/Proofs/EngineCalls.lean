import ImageRecipe.Proofs.Backends
import ImageRecipe.Proofs.StoreSteps

/-! What calls of the container engine do to the files of a host: nothing, unless they are told a file to leave an
image id in. -/

namespace ImageRecipe

namespace Host

/-- The host has the same files and the same setting. -/
structure SameFiles (h h' : Host) : Prop where
  files : h'.files = h.files
  setting : SameSetting h h'

instance : Std.Refl SameFiles where
  refl h := ⟨rfl, refl h⟩

instance : IsTrans Host SameFiles where
  trans _ _ _ h h' := ⟨h'.files.trans h.files, IsTrans.trans _ _ _ h.setting h'.setting⟩

end Host

open Host

namespace Store

variable {s : Store} {f : Frame}

theorem evolves_of_sameFiles {h h' : Host} (hsame : SameFiles h h') : s.Evolves f h h' := by
  intro _
  rw [hsame.files]
  exact ⟨hsame.setting, .refl _⟩

/-- A frame in which any file may be written. -/
def Frame.WritesAll (f : Frame) : Prop := ∀ S l data, (f S l).writes data

theorem writesAll_all : Frame.all.WritesAll := fun _ _ _ => trivial

theorem noLinkNamed_of_evolves {n : FileName} {h h' : Host} (he : s.Evolves f h h') (hp : s.Plain h)
    (hn : h.files.NoLinkNamed n) : h'.files.NoLinkNamed n := by
  intro outer target hlink
  have hchange := (he hp).2.files (outer ++ [n])
  rw [hlink] at hchange
  exact hn outer target hchange.link

/-- Steps within a frame, as long as any file may be written or no link has a name. -/
def EvolvesPast (s : Store) (f : Frame) (n : FileName) (h h' : Host) : Prop :=
  f.WritesAll ∨ h.files.NoLinkNamed n → s.Evolves f h h'

instance (n : FileName) : Std.Refl (s.EvolvesPast f n) where
  refl h _ := Std.Refl.refl h

instance (n : FileName) : IsTrans Host (s.EvolvesPast f n) where
  trans _ _ _ h h' hn hp :=
    IsTrans.trans (r := s.Evolves f) _ _ _ (h hn)
      (h' (hn.imp_right (noLinkNamed_of_evolves (h hn) hp))) hp

theorem keepsPast {ε α : Type} {x : HostM ε α} (hx : Keeps (s.Evolves f) x) (n : FileName) :
    Keeps (s.EvolvesPast f n) x := hx.mono fun _ _ h _ => h

end Store

namespace Engine

variable {e : Engine} {directory : Option String} {arguments : List String}

/-- A word that names no file to leave an image id in. -/
def Inert (word : String) : Prop := imageIdTargets [word] = []

instance : DecidablePred Inert := fun _ => inferInstanceAs (Decidable (_ = _))

theorem imageIdTargets_eq_nil_iff : imageIdTargets arguments = [] ↔ ∀ word ∈ arguments, Inert word := by
  simp [imageIdTargets, Inert]

theorem keeps_callDirectory : Keeps Eq (callDirectory directory) := by
  unfold callDirectory
  refine Keeps.get.bind fun h => ?_
  split
  · exact Keeps.pure _
  · refine (Keeps.ofExcept _).bind fun place => ?_
    split
    · exact Keeps.pure _
    · exact Keeps.throw _
    · exact Keeps.throw _

theorem keeps_startFrom (place : Location) : Keeps Eq (e.startFrom place) := by
  unfold startFrom
  have hcheck : Keeps Eq (do
      HostM.ofExcept (checkProgram (← get) place scriptDepth e.program) : HostM Fault Unit) :=
    Keeps.get.bind fun _ => Keeps.ofExcept _
  exact Keeps.when (Keeps.throw _) (fun _ => hcheck) hcheck

/-- A call does nothing to the files but to leave an image id where it is told to. -/
theorem keeps_call {R : Host → Host → Prop} [Std.Refl R] [IsTrans Host R]
    (hsame : ∀ h h', SameFiles h h' → R h h')
    (hleave : ∀ h place id, ∀ path ∈ imageIdTargets arguments, R h (leaveImageId place id h path)) :
    Keeps R (e.call directory arguments) := by
  have hall : ∀ place id (l : List String), (∀ path ∈ l, path ∈ imageIdTargets arguments) → ∀ h,
      R h (l.foldl (leaveImageId place id) h) := by
    intro place id l
    induction l with
    | nil => exact fun _ h => refl h
    | cons path l ih =>
      intro hl h
      exact IsTrans.trans _ _ _ (hleave h place id path (hl path List.mem_cons_self))
        (ih (fun p hp => hl p (List.mem_cons_of_mem _ hp)) _)
  unfold call
  refine Keeps.bind ?_ fun place => ?_
  · refine Keeps.failingAs (Keeps.of_eq ?_) _
    exact (Keeps.ofExcept _).bind fun _ => keeps_callDirectory.bind fun place => (keeps_startFrom place).bind fun _ =>
      Keeps.pure _
  · refine Keeps.bind (Keeps.of_eq (Keeps.get.bind fun _ => Keeps.pure _)) fun cancelled => ?_
    refine Keeps.when (Keeps.throw _) (fun _ => ?_) ?_ <;>
    · constructor
      intro h
      simp only [environment, readVariable, bind_assoc, pure_bind, ran_bind, ran_get, ran_set, ran_pure]
      split
      · refine IsTrans.trans _ _ _ ?_ (hall place _ _ (fun _ => id) _)
        exact hsame _ _ ⟨rfl, rfl, rfl⟩
      · exact hsame _ _ ⟨rfl, rfl, rfl⟩

theorem sameFiles_call (h : imageIdTargets arguments = []) : Keeps SameFiles (e.call directory arguments) :=
  keeps_call (fun _ _ => id) (by simp [h])

variable {s : Store} {f : Store.Frame}

/-- An image id is put into a file, be it new. -/
theorem evolves_leaveImageId {place : Location} {id : ByteArray} {h : Host} {path : String}
    (hf : ∀ l, h.files.resolve true place path = .ok l → (f (s.place h.directory) l).writes id) :
    s.Evolves f h (leaveImageId place id h path) := by
  intro _
  unfold leaveImageId
  split
  · exact ⟨refl h, .refl _⟩
  · next l hl =>
    split
    · next mode data he =>
      refine ⟨.withFiles .., .put_file (hf l hl) _ ?_ fun hr => hr.resolve_parent hl⟩
      rw [he]
      exact fun _ h => by cases h
    · next he =>
      refine ⟨.withFiles .., .put_file (hf l hl) _ ?_ fun hr => hr.resolve_parent hl⟩
      rw [he]
      exact Entry.noDirectory_none
    · exact ⟨refl h, .refl _⟩

/-- A word of a call does not make the engine write what a frame does not allow. -/
def Suits (f : Store.Frame) (word : String) : Prop := f.WritesAll ∨ Inert word

theorem Inert.suits {word : String} (h : Inert word) : Suits f word := .inr h

theorem keeps_call_of_suits (h : ∀ word ∈ arguments, Suits f word) :
    Keeps (s.Evolves f) (e.call directory arguments) := by
  refine keeps_call (fun _ _ => Store.evolves_of_sameFiles) fun h' place id path hpath => ?_
  obtain ⟨word, hword, hpath⟩ : ∃ word ∈ arguments, path ∈ imageIdTargets [word] := by
    simpa [imageIdTargets] using hpath
  rcases h word hword with hall | hinert
  · exact evolves_leaveImageId fun l _ => hall _ l id
  · rw [hinert] at hpath
    simp at hpath

end Engine

namespace Daemon

variable {d : Daemon} {w : WorkDirectory} {tag : String} {a : Architecture} {s : Store} {f : Store.Frame}

theorem sameFiles_call {directory : Option String} {arguments : List String}
    (h : Engine.imageIdTargets arguments = []) : Keeps SameFiles (d.call directory arguments) :=
  (Engine.sameFiles_call h).failingAs _

theorem sameFiles_checkVersion : Keeps SameFiles d.checkVersion := by
  have hcall : Keeps SameFiles (d.call none ["version", "--format", "\x7b\x7b.Server.Version\x7d\x7d"]) :=
    sameFiles_call (by decide)
  unfold checkVersion
  split
  · exact Keeps.pure _
  · refine hcall.bind fun o => ?_
    dsimp only
    split
    · exact Keeps.throw _
    · split
      · split
        · exact Keeps.throw _
        · exact Keeps.pure _
      · exact Keeps.throw _

theorem keeps_defaultUser {base : String} (hb : Engine.Suits f base) :
    Keeps (s.Evolves f) (d.defaultUser base) := by
  have hwords : ∀ word ∈ ["run", "--rm", "--entrypoint", "/bin/sh", base, "-c", "whoami"],
      Engine.Suits f word := by
    simp only [List.mem_cons, List.not_mem_nil, or_false]
    rintro word (rfl | rfl | rfl | rfl | rfl | rfl | rfl)
    all_goals first
      | exact hb
      | exact Engine.Inert.suits (by decide)
  have hcall : Keeps (s.Evolves f) (d.call none ["run", "--rm", "--entrypoint", "/bin/sh", base, "-c", "whoami"]) :=
    (Engine.keeps_call_of_suits hwords).failingAs _
  unfold defaultUser
  exact hcall.bind fun o => Keeps.when (Keeps.throw _) (fun _ => Keeps.pure _) (Keeps.pure _)

theorem keeps_imageExists {id : String} (hid : Engine.Suits f id) : Keeps (s.Evolves f) (d.imageExists id) := by
  have hwords : ∀ word ∈ ["image", "inspect", id], Engine.Suits f word := by
    simp only [List.mem_cons, List.not_mem_nil, or_false]
    rintro word (rfl | rfl | rfl)
    · exact Engine.Inert.suits (by decide)
    · exact Engine.Inert.suits (by decide)
    · exact hid
  exact ((Engine.keeps_call_of_suits hwords).failingAs _).bind fun _ => Keeps.pure _

/-- The call that builds an image is told to leave the id in the file of the work directory. -/
theorem eq_of_mem_imageIdTargets (ht : Engine.Inert tag) {path : String}
    (h : path ∈ Engine.imageIdTargets (buildArguments w tag a)) : path = w.imageIdFile := by
  have hplatform : Engine.Inert a.platform := by
    cases a <;> decide
  obtain ⟨word, hword, hpath⟩ : ∃ word ∈ buildArguments w tag a, path ∈ Engine.imageIdTargets [word] := by
    simpa [Engine.imageIdTargets] using h
  by_cases hoption : word = Engine.imageIdOption ++ w.imageIdFile
  · subst hoption
    simpa [Engine.imageIdTargets, Text.dropStart?_append, eq_comm] using hpath
  · have hnone : Engine.Inert word := by
      simp only [buildArguments, List.mem_cons, List.not_mem_nil, or_false] at hword
      rcases hword with rfl | rfl | rfl | rfl | rfl | rfl | rfl | rfl | rfl | rfl | rfl
      all_goals first
        | exact absurd rfl hoption
        | exact hplatform
        | exact ht
        | decide
    rw [hnone] at hpath
    simp at hpath

/-- A frame in which image ids may be forgotten. -/
def AllowsForgetting (f : Store.Frame) : Prop := ∀ S outer, (f S (outer ++ [imageIdName])).drops

private theorem rawNames_imageIdFile : ∃ front, Path.rawNames w.imageIdFile = front ++ [imageIdName] :=
  Path.exists_rawNames_join _ ⟨[], RawPath.names_of_slash_notMem proper_imageIdName.slash_notMem⟩

theorem keeps_writeInputs (hf : f.AllowsNames) (hd : AllowsForgetting f) (p : DaemonPlan) :
    Keeps (s.Evolves f) (writeInputs p w) := by
  have hremove : Keeps (s.Evolves f) ((Host.remove w.imageIdFile).failingAs BackendError.io) := by
    refine Keeps.failingAs (Store.keeps_remove fun h l _ hl => ?_) _
    obtain ⟨outer, rfl⟩ := FileTree.resolve_last proper_imageIdName (by simp) rawNames_imageIdFile hl
    exact hd _ outer
  unfold writeInputs
  refine ((WorkDirectory.keeps_writeBuildFile hf _).failingAs _).bind fun _ =>
    ((WorkDirectory.keeps_writeIgnoreFile hf _).failingAs _).bind fun _ => (Keeps.look ..).bind fun b => ?_
  split
  · exact hremove
  · exact Keeps.pure _

/-- The engine builds an image, and if no link leads it elsewhere it leaves the id in the file that it was told. -/
theorem keeps_materialize (hf : f.AllowsNames) (hd : AllowsForgetting f) (ht : Engine.Suits f tag) (p : Plan) :
    Keeps (s.EvolvesPast f imageIdName) (d.materialize p w tag a) := by
  have hcall : Keeps (s.EvolvesPast f imageIdName) (d.call (some w.root) (buildArguments w tag a)) := by
    refine Keeps.failingAs (Engine.keeps_call (fun _ _ h _ => Store.evolves_of_sameFiles h) ?_) _
    intro h place id path hpath hpast
    apply Engine.evolves_leaveImageId
    intro l hl
    have hall (hall : f.WritesAll) : (f (s.place h.directory) l).writes id := hall _ l id
    rcases ht with ht | ht
    · exact hall ht
    · rcases hpast with hpast | hlink
      · exact hall hpast
      · rw [eq_of_mem_imageIdTargets ht hpath] at hl
        obtain ⟨outer, rfl⟩ := FileTree.resolve_last proper_imageIdName (fun _ => hlink) rawNames_imageIdFile hl
        exact hf _ outer imageIdName id (FileName.isPlain_ofText (by simp [fixedNames]))
  have hid : Keeps Eq w.readImageId := (Keeps.readText _).onFiles.bind fun _ => Keeps.pure _
  unfold materialize
  split
  · exact Keeps.throw _
  · refine (Store.keepsPast (keeps_writeInputs hf hd _) _).bind fun _ => hcall.bind fun o => ?_
    refine Keeps.when (Keeps.throw _) (fun _ => ?_) ?_ <;>
    exact (Keeps.of_eq (hid.failingAs _)).bind fun _ => Keeps.now.bind fun _ => Keeps.pure _

end Daemon

/-- Starting a backend at most asks the engine for its version. -/
theorem Backend.sameFiles_start (t : Settings) (s : Store) (k : BackendKind) : Keeps SameFiles (start t s k) := by
  have hselect : Keeps SameFiles (select t s k) := by
    have havailable : ∀ b : Backend, Keeps SameFiles (b.isAvailable : BackendM Bool) := by
      intro b
      cases b with
      | daemon d =>
        unfold isAvailable Engine.isAvailable
        dsimp only
        split
        · exact Keeps.look ..
        · exact Keeps.pure _
      | direct | mock => exact Keeps.pure _
    exact (havailable _).bind fun _ => Keeps.when (Keeps.throw _) (fun _ => Keeps.pure _) (Keeps.pure _)
  refine hselect.bind fun b => ?_
  cases b with
  | daemon d => exact Daemon.sameFiles_checkVersion.bind fun _ => Keeps.pure _
  | direct | mock => exact Keeps.pure _

end ImageRecipe
