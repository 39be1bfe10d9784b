import ImageRecipe.Proofs.RepeatedPreparations

/-! What getting a work directory ready makes: its own rooms and nothing above them, as long as the work directory is
not cleared away itself. -/

namespace ImageRecipe

/-- The names of the directories that a build makes in its work directory. -/
def workRoomNames : List FileName := ["context", "ephemeral", "docker", "packages", "repos"].map FileName.ofText

/-- A frame in which directories may be made with the names of rooms. -/
def Store.Frame.AllowsRooms (f : Store.Frame) : Prop :=
  ∀ (S outer : Location) (n : FileName), n ∈ workRoomNames → (f S (outer ++ [n])).makes

namespace WorkDirectory

variable {s : Store} {f : Store.Frame} {w : WorkDirectory} {h h' : Host} {base outer name : String}

/-- The work directory is still there once the repository definitions of an earlier build are cleared away. -/
def Survives (w : WorkDirectory) (h : Host) : Prop :=
  ∀ h₁ h₂, Yields w.makeRooms h () h₁ → Yields (Host.removeTree w.repositories) h₁ () h₂ →
    h₂.files.isDirectory h₂.directory w.root = true

/-- Steps within a frame that leave a directory in place. -/
private def Furnishes (s : Store) (f : Store.Frame) (root : String) (h h' : Host) : Prop :=
  h.files.isDirectory h.directory root = true →
    s.Evolves f h h' ∧ h'.files.isDirectory h'.directory root = true

private instance (root : String) : IsTrans Host (Furnishes s f root) where
  trans _ _ _ h₁ h₂ hd :=
    ⟨IsTrans.trans _ _ _ (h₁ hd).1 (h₂ (h₁ hd).2).1, (h₂ (h₁ hd).2).2⟩

private theorem evolves_makeDirectory (hf : f.AllowsRooms) (hn : FileName.ofText name ∈ workRoomNames)
    (hproper : (FileName.ofText name).Proper) {t t' : FileTree}
    (hmade : t.makeDirectory h.directory (Path.join base name) = .ok t') :
    s.Evolves f { h with files := t } { h with files := t' } := by
  obtain ⟨l, mode, hl, hnone, rfl⟩ := FileTree.makeDirectory_ok hmade
  obtain ⟨outer, rfl⟩ := FileTree.resolve_last hproper (by simp)
    (Path.exists_rawNames_join _ ⟨[], RawPath.names_of_slash_notMem hproper.slash_notMem⟩) hl
  exact fun _ => ⟨.withFiles .., .put_directory (hf _ outer _ hn) hnone mode fun hr => hr.resolve_parent hl⟩

private theorem furnishes_makePath {root path : String}
    (he : ∀ files, h.files.isDirectory h.directory root = true → h.files.makePath h.directory path = .ok files →
      s.Evolves f h { h with files }) : Furnishes s f root h (ran (Host.makePath path) h).2 := by
  intro hd
  unfold Host.makePath
  rw [ran_change]
  cases hmade : h.files.makePath h.directory path with
  | error e => exact ⟨refl h, hd⟩
  | ok files => exact ⟨he files hd hmade, (FileTree.gainsDirectories_makePath hmade).carries.isDirectory hd⟩

private theorem furnishes_room (hf : f.AllowsRooms) (hn : FileName.ofText name ∈ workRoomNames)
    (hproper : (FileName.ofText name).Proper) :
    Furnishes s f base h (ran (Host.makePath (Path.join base name)) h).2 := by
  refine furnishes_makePath fun files hd hmade => ?_
  rcases FileTree.makePath_join hproper hd hmade with rfl | hmade
  · exact refl h
  · exact evolves_makeDirectory hf hn hproper hmade

private theorem furnishes_innerRoom (hf : f.AllowsRooms) (hn : FileName.ofText name ∈ workRoomNames)
    (hproper : (FileName.ofText name).Proper) :
    Furnishes s f w.root h (ran (Host.makePath (Path.join w.outerRoom name)) h).2 := by
  have houter : (FileName.ofText "ephemeral").Proper := FileName.proper_of_known (by simp [knownNames])
  refine furnishes_makePath fun files hd hmade => ?_
  obtain ⟨t, ht, hfiles⟩ := FileTree.makePath_join_join houter hproper hd hmade
  have hfirst : s.Evolves f h { h with files := t } := by
    rcases ht with rfl | ht
    · exact refl h
    · exact evolves_makeDirectory hf (by simp [workRoomNames]) houter ht
  refine IsTrans.trans (r := s.Evolves f) _ _ _ hfirst ?_
  rcases hfiles with rfl | hmade
  · exact refl _
  · exact evolves_makeDirectory hf hn hproper hmade

/-- A work directory that is not cleared away is got ready by making rooms alone. -/
theorem evolves_prepare_rooms (hf : f.AllowsRooms)
    (hempties : ∀ l l', w.Clears h l → l <+: l' → (f (s.place h.directory) l').empties) (hw : w.Survives h) :
    s.Evolves f h (ran w.prepare h).2 := by
  have hfiles : ∀ {x : HostM Fault Unit} {h : Host}, Furnishes s f w.root h (ran x h).2 →
      Furnishes s f w.root h (ran (Store.onFiles x) h).2 := by
    intro x h hx
    unfold Store.onFiles
    rwa [ran_failingAs]
  have hrooms : Furnishes s f w.root h (ran w.makeRooms h).2 := by
    unfold makeRooms
    rw [ephemeral_eq, packages_eq]
    refine Keeps.bind_at (R := Furnishes s f w.root) (hfiles ?_) fun _ h₁ _ =>
      Keeps.bind_at (R := Furnishes s f w.root) (hfiles ?_) fun _ h₂ _ => hfiles ?_
    · exact furnishes_room hf (by simp [workRoomNames, contextDirectory])
        (FileName.proper_of_known (by simp [knownNames, contextDirectory]))
    · exact furnishes_innerRoom hf (by simp [workRoomNames]) proper_ephemeral
    · exact furnishes_innerRoom hf (by simp [workRoomNames]) proper_packages
  refine evolves_prepare_of (fun hd => (hrooms hd).1) hempties fun hd h₁ h₂ hy hor => ?_
  have hthere : h₂.files.isDirectory h₂.directory w.root = true := by
    rcases hor with rfl | hremove
    · have := (hrooms hd).2
      rwa [show ran w.makeRooms h = (.ok (), h₂) from hy] at this
    · exact hw h₁ h₂ hy hremove
  rw [repositories_eq]
  exact (furnishes_innerRoom hf (by simp [workRoomNames]) proper_repositories hthere).1

end WorkDirectory

end ImageRecipe
