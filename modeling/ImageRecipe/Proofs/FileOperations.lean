import ImageRecipe.Proofs.Actions
import ImageRecipe.Proofs.Walk

/-! What each operation on files does to the tree when it succeeds. -/

namespace ImageRecipe.FileTree

variable {t t' : FileTree} {d : Location} {path : String}

private theorem not_throw {α : Type} {f : Fault} {a : α} : ¬ (throw f : Except Fault α) = .ok a := by
  intro h
  cases h

theorem replace_ok {l : Location} {e : Entry} (h : t.replace l e = .ok t') :
    t.require .write l.dropLast = .ok () ∧ (∀ mode, t.entry? l ≠ some (.directory mode)) ∧
      t' = t.put l e := by
  unfold replace at h
  obtain ⟨_, hr, h⟩ := bind_eq_ok.1 h
  split at h
  · exact absurd h not_throw
  · next hno => exact ⟨hr, hno, (Except.ok.inj h).symm⟩

theorem status_ok {e : Entry} (h : t.status d path = .ok e) :
    ∃ l, t.resolve true d path = .ok l ∧ t.entry? l = some e := by
  unfold status at h
  obtain ⟨l, hl, h⟩ := bind_eq_ok.1 h
  split at h
  · next e' he =>
    cases h
    exact ⟨l, hl, he⟩
  · exact absurd h not_throw

theorem read_ok {data : ByteArray} (h : t.read d path = .ok data) :
    ∃ l mode, t.resolve true d path = .ok l ∧ t.entry? l = some (.file mode data) := by
  unfold read at h
  obtain ⟨_, -, h⟩ := bind_eq_ok.1 h
  obtain ⟨e, hs, h⟩ := bind_eq_ok.1 h
  obtain ⟨l, hl, he⟩ := status_ok hs
  split at h
  · next mode data' =>
    cases h
    exact ⟨l, mode, hl, he⟩
  · exact absurd h not_throw
  · exact absurd h not_throw

theorem pathExists_of_read {data : ByteArray} (h : t.read d path = .ok data) :
    t.pathExists d path = true := by
  unfold read at h
  obtain ⟨_, -, h⟩ := bind_eq_ok.1 h
  obtain ⟨e, hs, -⟩ := bind_eq_ok.1 h
  unfold pathExists
  rw [hs]
  rfl

theorem status_of_pathExists (h : t.pathExists d path = true) : ∃ e, t.status d path = .ok e := by
  unfold pathExists at h
  cases hs : t.status d path with
  | error e => simp [hs, Except.toOption] at h
  | ok e => exact ⟨e, rfl⟩

theorem write_ok {data : ByteArray} (h : t.write d path data = .ok t') :
    ∃ l, t.resolve false d path = .ok l ∧ (∀ mode, t.entry? l ≠ some (.directory mode)) ∧
      t' = t.put l (.file writtenMode data) := by
  unfold write at h
  obtain ⟨e, -, h⟩ := bind_eq_ok.1 h
  split at h
  · obtain ⟨l, hl, h⟩ := bind_eq_ok.1 h
    exact ⟨l, hl, (replace_ok h).2⟩
  · exact absurd h not_throw

theorem openFile_ok (h : t.openFile d path = .ok t') :
    ∃ l, t.resolve true d path = .ok l ∧
      (t' = t ∨ t.entry? l = none ∧ t' = t.put l (.file openedMode ByteArray.empty)) := by
  unfold openFile at h
  obtain ⟨l, hl, h⟩ := bind_eq_ok.1 h
  refine ⟨l, hl, ?_⟩
  split at h
  · exact absurd h not_throw
  · obtain ⟨_, -, h⟩ := bind_eq_ok.1 h
    exact .inl (Except.ok.inj h).symm
  · next hn => exact .inr ⟨hn, (replace_ok h).2.2⟩

theorem remove_ok (h : t.remove d path = .ok t') :
    ∃ l e, t.resolve false d path = .ok l ∧ t.entry? l = some e ∧ e.isDirectory = false ∧
      t' = t.erase l := by
  unfold remove at h
  obtain ⟨l, hl, h⟩ := bind_eq_ok.1 h
  split at h
  · exact absurd h not_throw
  · next e hno he =>
    obtain ⟨_, -, h⟩ := bind_eq_ok.1 h
    refine ⟨l, e, hl, he, ?_, (Except.ok.inj h).symm⟩
    cases e with
    | directory mode => exact absurd rfl (hno mode)
    | file | link | pipe => rfl
  · exact absurd h not_throw

theorem removeTree_ok (h : t.removeTree d path = .ok t') :
    ∃ l, t.resolve false d path = .ok l ∧
      ((∃ mode, t.entry? l = some (.directory mode)) ∧ t' = t.eraseBelow l ∨
        (∃ target, t.entry? l = some (.link target)) ∧ t' = t.erase l) := by
  unfold removeTree at h
  obtain ⟨l, hl, h⟩ := bind_eq_ok.1 h
  refine ⟨l, hl, ?_⟩
  split at h
  · next mode he =>
    obtain ⟨_, -, h⟩ := bind_eq_ok.1 h
    exact .inl ⟨⟨mode, he⟩, (Except.ok.inj h).symm⟩
  · next target he =>
    obtain ⟨_, -, h⟩ := bind_eq_ok.1 h
    exact .inr ⟨⟨target, he⟩, (Except.ok.inj h).symm⟩
  · exact absurd h not_throw
  · exact absurd h not_throw

theorem makeDirectory_ok (h : t.makeDirectory d path = .ok t') :
    ∃ l mode, t.resolve false d path = .ok l ∧ t.entry? l = none ∧ t' = t.put l (.directory mode) := by
  unfold makeDirectory makeDirectoryAt at h
  obtain ⟨l, hl, h⟩ := bind_eq_ok.1 h
  split at h
  · cases h
  · next hn =>
    obtain ⟨_, -, h⟩ := bind_eq_ok.1 h
    exact ⟨l, _, hl, by simpa using hn, (Except.ok.inj h).symm⟩

theorem ensureDirectory_ok (h : t.ensureDirectory d path = .ok t') :
    t' = t ∨ t.makeDirectory d path = .ok t' := by
  unfold ensureDirectory at h
  split at h
  · next u hu => exact .inr (hu.trans h)
  · split at h
    · exact .inl (Except.ok.inj h).symm
    · simp at h

/-- Making directories is making some of them one by one. -/
theorem makeDirectories_ok {R : FileTree → FileTree → Prop} (hrefl : ∀ t, R t t)
    (htrans : ∀ t u v, R t u → R u v → R t v) {paths : List String}
    (hstep : ∀ p ∈ paths, ∀ t t', makeDirectory t d p = .ok t' → R t t') :
    ∀ {t t'}, makeDirectories t d paths = .ok t' → R t t' := by
  induction paths with
  | nil =>
    intro t t' h
    simp [makeDirectories] at h
  | cons p outer ih =>
    intro t t' h
    rw [makeDirectories] at h
    split at h
    · rw [← Except.ok.inj h]
      exact hrefl t
    · split at h
      · next u hu =>
        rw [← Except.ok.inj h]
        exact hstep p (by simp) t u hu
      · obtain ⟨u, ho, h⟩ := bind_eq_ok.1 h
        have hr := ih (fun q hq => hstep q (by simp [hq])) ho
        rcases ensureDirectory_ok h with rfl | hm
        · exact hr
        · exact htrans _ _ _ hr (hstep p (by simp) _ _ hm)
      · split at h
        · rw [← Except.ok.inj h]
          exact hrefl t
        · simp at h

/-- Two trees in which a path leads to the same place with the same entry show the same there. -/
theorem status_congr (hr : t.resolve true d path = t'.resolve true d path)
    (he : ∀ l, t.resolve true d path = .ok l → t.entry? l = t'.entry? l) :
    t.status d path = t'.status d path := by
  unfold status
  rw [← hr]
  cases h : t.resolve true d path with
  | error e => rfl
  | ok l => simp only [bind, Except.bind, he l h]

theorem read_congr (hr : t.resolve true d path = t'.resolve true d path)
    (he : ∀ l, t.resolve true d path = .ok l → t.entry? l = t'.entry? l) :
    t.read d path = t'.read d path := by
  have hopen : t.openReadable d path = t'.openReadable d path := by
    unfold openReadable require
    rw [← hr]
    cases h : t.resolve true d path with
    | error e => rfl
    | ok l => simp only [bind, Except.bind, he l h]
  unfold read
  rw [hopen, status_congr hr he]

/-- A file that may be read is read where its path leads. -/
theorem read_eq {l : Location} {mode : Nat} {data : ByteArray} (hr : t.resolve true d path = .ok l)
    (he : t.entry? l = some (.file mode data)) (hg : (Entry.file mode data).grants .read = true) :
    t.read d path = .ok data := by
  unfold read openReadable require status
  simp only [hr, bind, Except.bind, he, hg, if_true]
  rfl

end ImageRecipe.FileTree

namespace ImageRecipe

/-- A file that was put in place stands where its path led without its last link. -/
theorem yields_replaceFile {path : String} {data : ByteArray} {h h' : Host} {u : Unit}
    (hy : Yields (Host.replaceFile path data) h u h') :
    ∃ l, h.files.resolve false h.directory path = .ok l ∧
      (∀ mode, h.files.entry? l ≠ some (.directory mode)) ∧
      h' = { h with files := h.files.put l (.file writtenMode data) } := by
  obtain ⟨files, hwrite, rfl⟩ := (yields_change ..).1 hy
  obtain ⟨l, hl, hno, rfl⟩ := FileTree.write_ok hwrite
  exact ⟨l, hl, hno, rfl⟩

/-- A text that was put in place is read at its path, if the path still leads to anything. -/
theorem yields_readText_replaced {path text : String} {h h' : Host} {u : Unit}
    (hy : Yields (Host.replaceFile path (Text.bytes text)) h u h')
    (hpath : h'.files.pathExists h'.directory path = true) : Yields (Host.readText path) h' text h' := by
  obtain ⟨place, hplace, hno, rfl⟩ := yields_replaceFile hy
  have hroot : place ≠ [] := by
    rintro rfl
    exact hno _ (FileTree.entry?_root _)
  have hentry := h.files.entry?_put_self hroot (.file writtenMode (Text.bytes text))
  have hresolve : (h.files.put place (.file writtenMode (Text.bytes text))).resolve true h.directory path =
      .ok place := by
    obtain ⟨_, hstatus⟩ := FileTree.status_of_pathExists hpath
    obtain ⟨q, hq, -⟩ := FileTree.status_ok hstatus
    rw [hq, ((FileTree.GainsFiles.refl _).put _ _ _).resolve_file hentry hplace hq]
  have hreadable : ∀ data, (Entry.file writtenMode data).grants .read = true := by
    intro data
    simp [Entry.grants, Entry.hasBit, Entry.mode, writtenMode, Right.bit]
  have hread := FileTree.read_eq hresolve hentry (hreadable _)
  unfold Host.readText Host.readBytes
  rw [yields_bind]
  refine ⟨_, _, (yields_inspect ..).2 ⟨hread, rfl⟩, ?_⟩
  rw [Text.ofBytes?_bytes]
  exact (yields_pure ..).2 ⟨rfl, rfl⟩

/-- A file that was put in place is at its path, unless there was a link at the end of it. -/
theorem pathExists_replaced {path : String} {data : ByteArray} {h h' : Host} {u : Unit}
    (hy : Yields (Host.replaceFile path data) h u h')
    (hlink : ∀ target, h.files.linkStatus h.directory path ≠ .ok (.link target)) :
    h'.files.pathExists h'.directory path = true := by
  obtain ⟨place, hplace, hno, rfl⟩ := yields_replaceFile hy
  have hroot : place ≠ [] := by
    rintro rfl
    exact hno _ (FileTree.entry?_root _)
  have hplain : ∀ target, h.files.entry? place ≠ some (.link target) := by
    intro target ht
    refine hlink target ?_
    unfold FileTree.linkStatus
    simp only [hplace, bind, Except.bind, ht]
    rfl
  have hfound := FileTree.resolve_put_file hno hplain hplace writtenMode data
  have hentry := h.files.entry?_put_self hroot (.file writtenMode data)
  unfold FileTree.pathExists FileTree.status
  simp only [hfound, bind, Except.bind, hentry]
  rfl

theorem yields_writeBytes {path : String} {data : ByteArray} {h h' : Host} {u : Unit}
    (hy : Yields (Host.writeBytes path data) h u h') :
    ∃ l, h.files.resolve false h.directory path = .ok l ∧
      (∀ mode, h.files.entry? l ≠ some (.directory mode)) ∧
      h' = { h with files := h.files.put l (.file writtenMode data) } := by
  unfold Host.writeBytes at hy
  obtain ⟨_, _, hreplace, hopen⟩ := (yields_bind ..).1 hy
  obtain ⟨-, rfl⟩ := (yields_inspect ..).1 hopen
  exact yields_replaceFile hreplace

/-- Whether it fails or not, to write a file puts it where its path leads or does nothing. -/
theorem ran_writeBytes (path : String) (data : ByteArray) (h : Host) :
    (ran (Host.writeBytes path data) h).2 = h ∨ ∃ l, h.files.resolve false h.directory path = .ok l ∧
      (ran (Host.writeBytes path data) h).2 = { h with files := h.files.put l (.file writtenMode data) } := by
  unfold Host.writeBytes Host.replaceFile
  rw [ran_bind, ran_change]
  cases hwrite : h.files.write h.directory path data with
  | error e => exact .inl rfl
  | ok files =>
    obtain ⟨l, hl, -, rfl⟩ := FileTree.write_ok hwrite
    exact .inr ⟨l, hl, by simp⟩

end ImageRecipe
