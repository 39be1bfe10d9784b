import ImageRecipe.Proofs.FileNames
import ImageRecipe.Proofs.RepeatedOperations
import ImageRecipe.Proofs.StoredDocuments

/-! Directories as maps from names to contents. A room is a directory that a path leads to, be it through links, and
in which everything is allowed; a shelf is a room with nothing but files, a cabinet a room with nothing but shelves. What
operations on files do in them is what they do to the map. -/

namespace ImageRecipe

/-- A name of less than so many bytes that files can have. -/
structure Path.Fits (k : Nat) (name : String) : Prop where
  proper : (FileName.ofText name).Proper
  nul_notMem : 0 ∉ FileName.ofText name
  length_lt : (FileName.ofText name).length < k
  length_le : (FileName.ofText name).length ≤ FileTree.nameLimit

theorem Path.Fits.mono {k k' : Nat} {name : String} (h : Fits k name) (hk : k ≤ k') : Fits k' name :=
  ⟨h.proper, h.nul_notMem, h.length_lt.trans_le hk, h.length_le⟩

namespace FileTree

theorem checkPath_eq_ok {p : RawPath} : checkPath p = .ok () ↔ p ≠ [] ∧ 0 ∉ p ∧ p.length < pathLimit := by
  unfold checkPath
  split
  · next h => simp_all
  · split
    · next h => simp_all
    · split
      · next h => simp_all
      · next h => simp_all

/-- A directory in which everything is allowed, at the end of a path to which names of less than so many bytes may be
added. -/
structure Room (t : FileTree) (d : Location) (k : Nat) (base : String) (D : Location) : Prop where
  endsInName : Path.EndsInName base
  resolve_eq : t.resolve true d base = .ok D
  directory : ∃ mode, t.entry? D = some (.directory mode) ∧ ∀ r, (Entry.directory mode).grants r = true
  short : (FileName.ofText base).length + k < pathLimit

/-- A room with nothing but files in it, which have these contents by their names. -/
structure Shelf (t : FileTree) (d : Location) (k : Nat) (base : String) (D : Location)
    (content : FileName → Option ByteArray) : Prop extends Room t d k base D where
  entry?_eq : ∀ n, t.entry? (D ++ [n]) = (content n).map (Entry.file writtenMode)

variable {t t' : FileTree} {d D D' : Location} {k k' : Nat} {base base' name : String} {n : FileName}
  {content content' : FileName → Option ByteArray}

theorem grants_written (data : ByteArray) : (Entry.file writtenMode data).grants .read = true := by
  simp [Entry.grants, Entry.hasBit, Entry.mode, writtenMode, Right.bit]

namespace Room

theorem carries (h : t.Room d k base D) (hc : Carries t t') : t'.Room d k base D where
  endsInName := h.endsInName
  resolve_eq := hc.resolve h.resolve_eq
  directory := by
    obtain ⟨mode, hmode, hg⟩ := h.directory
    exact ⟨mode, hc.directory _ _ hmode, hg⟩
  short := h.short

theorem require (h : t.Room d k base D) (r : Right) : t.require r D = .ok () := by
  obtain ⟨mode, hmode, hg⟩ := h.directory
  exact require_eq hmode (hg r)

theorem isDirectory (h : t.Room d k base D) : t.isDirectory d base = true := by
  obtain ⟨mode, hmode, -⟩ := h.directory
  exact isDirectory_iff.2 ⟨D, mode, h.resolve_eq, hmode⟩

theorem pathExists (h : t.Room d k base D) : t.pathExists d base = true := by
  obtain ⟨mode, hmode, -⟩ := h.directory
  exact pathExists_iff.2 ⟨D, _, h.resolve_eq, hmode⟩

theorem openReadable (h : t.Room d k base D) : t.openReadable d base = .ok () := by
  unfold FileTree.openReadable
  rw [h.resolve_eq]
  exact h.require .read

theorem list_eq (h : t.Room d k base D) : t.list d base = .ok (t.children D) := by
  obtain ⟨mode, hmode, -⟩ := h.directory
  unfold list
  simp only [h.resolve_eq, bind, Except.bind, hmode, h.require .read]
  rfl

/-- The bytes of a path and a name in it. -/
private theorem ofText_join (h : t.Room d k base D) (hn : (FileName.ofText name).Proper) :
    FileName.ofText (Path.join base name) = FileName.ofText base ++ [RawPath.slash] ++ FileName.ofText name := by
  have hslash : FileName.ofText "/" = [RawPath.slash] := by decide +kernel
  rw [h.endsInName.join_eq hn.slash_notMem, FileName.ofText_append, FileName.ofText_append, hslash]

private theorem checkPath_join (h : t.Room d k base D) (hn : Path.Fits k name) :
    checkPath (RawPath.ofText (Path.join base name)) = .ok () := by
  have hbase : checkPath (RawPath.ofText base) = .ok () := by
    have hr := h.resolve_eq
    unfold resolve at hr
    exact (bind_eq_ok.1 hr).elim fun _ hx => hx.1
  obtain ⟨hne, hnul, -⟩ := checkPath_eq_ok.1 hbase
  rw [checkPath_eq_ok, RawPath.ofText, h.ofText_join hn.proper]
  refine ⟨by simp, ?_, ?_⟩
  · simp only [List.mem_append, List.mem_singleton, not_or]
    exact ⟨⟨hnul, by decide⟩, hn.nul_notMem⟩
  · have := h.short
    have := hn.length_lt
    simp only [List.length_append, List.length_singleton]
    omega

/-- A name in a room leads to what has the name there, unless that is a link that is followed. -/
theorem resolve_join (h : t.Room d k base D) (hn : Path.Fits k name) {last : Bool}
    (hlink : last = true → ∀ target, t.entry? (D ++ [FileName.ofText name]) ≠ some (.link target)) :
    t.resolve last d (Path.join base name) = .ok (D ++ [FileName.ofText name]) := by
  obtain ⟨mode, hmode, hg⟩ := h.directory
  exact FileTree.resolve_join hn.proper hn.length_le h.resolve_eq hmode (hg .execute) (h.checkPath_join hn)
    hlink

section Files

variable {mode : Nat} {data : ByteArray}

theorem read_join (h : t.Room d k base D) (hn : Path.Fits k name)
    (he : t.entry? (D ++ [FileName.ofText name]) = some (.file mode data))
    (hg : (Entry.file mode data).grants .read = true) : t.read d (Path.join base name) = .ok data :=
  read_eq (h.resolve_join hn fun _ => by simp [he]) he hg

/-- A file is written in a room unless there is a directory or a link in its place. -/
theorem write_join (h : t.Room d k base D) (hn : Path.Fits k name)
    (hd : Entry.NoDirectory (t.entry? (D ++ [FileName.ofText name])))
    (hl : ∀ target, t.entry? (D ++ [FileName.ofText name]) ≠ some (.link target)) (data : ByteArray) :
    t.write d (Path.join base name) data = .ok (t.put (D ++ [FileName.ofText name]) (.file writtenMode data)) := by
  obtain ⟨mode, hmode, -⟩ := h.directory
  have hrequire : t.require .write (D ++ [FileName.ofText name]).dropLast = .ok () := by
    rw [List.dropLast_concat]
    exact h.require .write
  unfold write
  rw [h.endsInName.directory_join hn.proper]
  simp only [status_eq h.resolve_eq hmode, h.resolve_join hn fun _ => hl, bind, Except.bind, replace, hrequire]
  split
  · next heq => exact absurd heq (hd _)
  · rfl

theorem remove_join (h : t.Room d k base D) (hn : Path.Fits k name)
    (he : t.entry? (D ++ [FileName.ofText name]) = some (.file mode data)) :
    t.remove d (Path.join base name) = .ok (t.erase (D ++ [FileName.ofText name])) := by
  have hrequire : t.require .write (D ++ [FileName.ofText name]).dropLast = .ok () := by
    rw [List.dropLast_concat]
    exact h.require .write
  unfold remove
  simp only [h.resolve_join hn fun hlast => absurd hlast Bool.false_ne_true, bind, Except.bind, he, hrequire]
  rfl

end Files

/-- A directory in a room is a room for shorter names. -/
theorem join (h : t.Room d k base D) (hn : Path.Fits k name) (hk : (FileName.ofText name).length + 1 + k' ≤ k)
    (hd : ∃ mode, t.entry? (D ++ [FileName.ofText name]) = some (.directory mode) ∧
      ∀ r, (Entry.directory mode).grants r = true) :
    t.Room d k' (Path.join base name) (D ++ [FileName.ofText name]) where
  endsInName := .join base hn.proper
  resolve_eq := by
    obtain ⟨mode, hmode, -⟩ := hd
    exact h.resolve_join hn fun _ target ht => by simp [hmode] at ht
  directory := hd
  short := by
    have := h.short
    simp only [h.ofText_join hn.proper, List.length_append, List.length_singleton]
    omega

end Room

namespace Shelf

variable (h : t.Shelf d k base D content) (hn : Path.Fits k name)
include h

theorem not_link (n : FileName) (target : RawPath) : t.entry? (D ++ [n]) ≠ some (.link target) := by
  rw [h.entry?_eq]
  cases content n <;> simp

theorem noDirectory (n : FileName) : Entry.NoDirectory (t.entry? (D ++ [n])) := by
  intro mode
  rw [h.entry?_eq]
  cases content n <;> simp

theorem mem_children : n ∈ t.children D ↔ content n ≠ none := by
  rw [FileTree.mem_children, h.entry?_eq]
  simp

include hn

theorem resolve_join (last : Bool) : t.resolve last d (Path.join base name) = .ok (D ++ [FileName.ofText name]) :=
  h.toRoom.resolve_join hn fun _ => h.not_link _

theorem pathExists_join : t.pathExists d (Path.join base name) = (content (FileName.ofText name)).isSome := by
  rw [Bool.eq_iff_iff, pathExists_iff, Option.isSome_iff_exists]
  constructor
  · rintro ⟨l, e, hl, he⟩
    rw [h.resolve_join hn] at hl
    rw [← Except.ok.inj hl, h.entry?_eq] at he
    obtain ⟨data, hdata, -⟩ := Option.map_eq_some_iff.1 he
    exact ⟨data, hdata⟩
  · rintro ⟨data, hdata⟩
    exact ⟨_, _, h.resolve_join hn true, by rw [h.entry?_eq, hdata]; rfl⟩

theorem read_join {data : ByteArray} (hd : content (FileName.ofText name) = some data) :
    t.read d (Path.join base name) = .ok data :=
  h.toRoom.read_join hn (by rw [h.entry?_eq, hd]; rfl) (grants_written data)

theorem write_join (data : ByteArray) : t.write d (Path.join base name) data =
    .ok (t.put (D ++ [FileName.ofText name]) (.file writtenMode data)) :=
  h.toRoom.write_join hn (h.noDirectory _) (h.not_link _) data

theorem remove_join {data : ByteArray} (hd : content (FileName.ofText name) = some data) :
    t.remove d (Path.join base name) = .ok (t.erase (D ++ [FileName.ofText name])) :=
  h.toRoom.remove_join hn (by rw [h.entry?_eq, hd]; rfl)

end Shelf

namespace Shelf

theorem carries_put (h : t.Shelf d k base D content) (n : FileName) (data : ByteArray) :
    Carries t (t.put (D ++ [n]) (.file writtenMode data)) :=
  .of_put_file (h.noDirectory n) (h.not_link n) _ _

theorem carries_erase (h : t.Shelf d k base D content) (n : FileName) : Carries t (t.erase (D ++ [n])) :=
  .of_erase (h.noDirectory n) (h.not_link n)

theorem put (h : t.Shelf d k base D content) (n : FileName) (data : ByteArray) :
    (t.put (D ++ [n]) (.file writtenMode data)).Shelf d k base D (Function.update content n (some data)) where
  toRoom := h.toRoom.carries (h.carries_put n data)
  entry?_eq m := by
    by_cases hm : m = n
    · subst hm
      rw [t.entry?_put_self (by simp), Function.update_self]
      rfl
    · rw [t.entry?_put_of_ne (by simpa using hm), Function.update_of_ne hm, h.entry?_eq]

theorem erase (h : t.Shelf d k base D content) (n : FileName) :
    (t.erase (D ++ [n])).Shelf d k base D (Function.update content n none) where
  toRoom := h.toRoom.carries (h.carries_erase n)
  entry?_eq m := by
    by_cases hm : m = n
    · subst hm
      rw [t.entry?_erase_self (by simp), Function.update_self]
      rfl
    · rw [t.entry?_erase_of_ne (by simpa using hm), Function.update_of_ne hm, h.entry?_eq]

/-- A shelf stays as it is when nothing happens in it. -/
theorem frame (h : t.Shelf d k base D content) (hc : Carries t t')
    (he : ∀ n, t'.entry? (D ++ [n]) = t.entry? (D ++ [n])) : t'.Shelf d k base D content where
  toRoom := h.toRoom.carries hc
  entry?_eq n := by rw [he, h.entry?_eq]

private theorem concat_ne {n m : FileName} (hne : D ≠ D') : D ++ [m] ≠ D' ++ [n] :=
  fun heq => hne (List.append_inj' heq rfl).1

theorem put_elsewhere (h : t.Shelf d k base D content) (h' : t.Shelf d k' base' D' content') (hne : D ≠ D')
    (n : FileName) (data : ByteArray) : (t.put (D' ++ [n]) (.file writtenMode data)).Shelf d k base D content :=
  h.frame (h'.carries_put n data) fun _ => t.entry?_put_of_ne (concat_ne hne) _

theorem erase_elsewhere (h : t.Shelf d k base D content) (h' : t.Shelf d k' base' D' content') (hne : D ≠ D')
    (n : FileName) : (t.erase (D' ++ [n])).Shelf d k base D content :=
  h.frame (h'.carries_erase n) fun _ => t.entry?_erase_of_ne (concat_ne hne)

end Shelf

/-- A room with nothing but directories in which everything is allowed, which hold nothing but files. -/
structure Cabinet (t : FileTree) (d : Location) (k : Nat) (base : String) (D : Location)
    (content : FileName × FileName → Option ByteArray) : Prop extends Room t d k base D where
  drawer : ∀ x, t.entry? (D ++ [x]) ≠ none →
    ∃ mode, t.entry? (D ++ [x]) = some (.directory mode) ∧ ∀ r, (Entry.directory mode).grants r = true
  entry?_eq : ∀ x n, t.entry? (D ++ [x] ++ [n]) = (content (x, n)).map (Entry.file writtenMode)
  drawer_of_content : ∀ x n, content (x, n) ≠ none → t.entry? (D ++ [x]) ≠ none

namespace Cabinet

variable {content : FileName × FileName → Option ByteArray} {x : String}

/-- What is in a drawer of a cabinet. -/
theorem shelf (h : t.Cabinet d k base D content) (hn : Path.Fits k x) (hk : (FileName.ofText x).length + 1 + k' ≤ k)
    (hd : t.entry? (D ++ [FileName.ofText x]) ≠ none) :
    t.Shelf d k' (Path.join base x) (D ++ [FileName.ofText x]) fun n => content (FileName.ofText x, n) where
  toRoom := h.toRoom.join hn hk (h.drawer _ hd)
  entry?_eq := h.entry?_eq _

theorem not_link (h : t.Cabinet d k base D content) (n : FileName) (target : RawPath) :
    t.entry? (D ++ [n]) ≠ some (.link target) := by
  intro ht
  obtain ⟨mode, hmode, -⟩ := h.drawer n (by simp [ht])
  rw [hmode] at ht
  cases ht

theorem pathExists_join (h : t.Cabinet d k base D content) (hx : Path.Fits k x)
    (hk : (FileName.ofText x).length + 1 + k' ≤ k) (hn : Path.Fits k' name) :
    t.pathExists d (Path.join (Path.join base x) name) =
      (content (FileName.ofText x, FileName.ofText name)).isSome := by
  by_cases hd : t.entry? (D ++ [FileName.ofText x]) = none
  · have hresolve : t.resolve true d (Path.join base x) = _ := h.toRoom.resolve_join hx fun _ => h.not_link _
    rw [pathExists_join_of_missing hn.proper hresolve hd]
    have hnone : content (FileName.ofText x, FileName.ofText name) = none :=
      by_contra fun hc => h.drawer_of_content _ _ hc hd
    rw [hnone]
    rfl
  · exact (h.shelf hx hk hd).pathExists_join hn

/-- A drawer is a directory and no link to one. -/
theorem linkStatus_join (h : t.Cabinet d k base D content) (hx : Path.Fits k x)
    (hd : t.entry? (D ++ [FileName.ofText x]) ≠ none) :
    ∃ mode, t.linkStatus d (Path.join base x) = .ok (.directory mode) := by
  obtain ⟨mode, hmode, -⟩ := h.drawer _ hd
  refine ⟨mode, ?_⟩
  unfold linkStatus
  simp only [h.toRoom.resolve_join hx fun _ => h.not_link _, bind, Except.bind, hmode]
  rfl

/-- A drawer that is missing is made. -/
theorem makePath_join (h : t.Cabinet d k base D content) (hx : Path.Fits k x) :
    ∃ t', t.makePath d (Path.join base x) = .ok t' ∧ t'.Cabinet d k base D content ∧
      t'.entry? (D ++ [FileName.ofText x]) ≠ none ∧
      ∀ n, t'.entry? (D ++ [n]) ≠ none → n = FileName.ofText x ∨ t.entry? (D ++ [n]) ≠ none := by
  have hresolve (last : Bool) : t.resolve last d (Path.join base x) = _ := h.toRoom.resolve_join hx fun _ => h.not_link _
  cases hd : t.entry? (D ++ [FileName.ofText x]) with
  | some e =>
    obtain ⟨mode, hmode, -⟩ := h.drawer (FileName.ofText x) (by simp [hd])
    have hdirectory := isDirectory_iff.2 ⟨_, mode, hresolve true, hmode⟩
    exact ⟨t, makePath_of_isDirectory hdirectory, h, by simp [hd], fun _ => .inr⟩
  | none =>
    have hrequire : t.require .write (D ++ [FileName.ofText x]).dropLast = .ok () := by
      rw [List.dropLast_concat]
      exact h.require .write
    have hmake := makeDirectory_eq_ok.2 ⟨_, hresolve false, hd, hrequire, rfl⟩
    have hnew : ∀ n, n ≠ FileName.ofText x → entry? (t.put (D ++ [FileName.ofText x])
        (t.newDirectory (D ++ [FileName.ofText x]))) (D ++ [n]) = t.entry? (D ++ [n]) :=
      fun n hn => t.entry?_put_of_ne (by simpa using hn) _
    refine ⟨_, makePath_of_makeDirectory hmake, ?_, by simp [t.entry?_put_self], fun n hn => ?_⟩
    · refine ⟨h.toRoom.carries (gainsDirectories_makeDirectory hmake).carries, fun n hn => ?_, fun n m => ?_,
        fun n m hc => ?_⟩
      · by_cases heq : n = FileName.ofText x
        · subst heq
          exact ⟨_, t.entry?_put_self (by simp) _, fun r => t.newDirectory_grants _ r⟩
        · rw [hnew n heq] at hn ⊢
          exact h.drawer n hn
      · rw [t.entry?_put_of_ne (fun heq => by simpa using congrArg List.length heq), h.entry?_eq]
      · by_cases heq : n = FileName.ofText x
        · subst heq
          simp [t.entry?_put_self]
        · rw [hnew n heq]
          exact h.drawer_of_content n m hc
    · by_cases heq : n = FileName.ofText x
      · exact .inl heq
      · exact .inr (hnew n heq ▸ hn)

theorem noDirectory (h : t.Cabinet d k base D content) (n m : FileName) :
    Entry.NoDirectory (t.entry? (D ++ [n] ++ [m])) := by
  intro mode
  rw [h.entry?_eq]
  cases content (n, m) <;> simp

theorem not_link_file (h : t.Cabinet d k base D content) (n m : FileName) (target : RawPath) :
    t.entry? (D ++ [n] ++ [m]) ≠ some (.link target) := by
  rw [h.entry?_eq]
  cases content (n, m) <;> simp

/-- One file in a drawer changes, comes or goes. -/
private theorem change (h : t.Cabinet d k base D content) (hc : Carries t t') {n m : FileName} {value : Option ByteArray}
    (hd : value ≠ none → t.entry? (D ++ [n]) ≠ none) (hkept : ∀ l, l ≠ D ++ [n] ++ [m] → t'.entry? l = t.entry? l)
    (hself : t'.entry? (D ++ [n] ++ [m]) = value.map (Entry.file writtenMode)) :
    t'.Cabinet d k base D (Function.update content (n, m) value) := by
  have hdrawer : ∀ x, t'.entry? (D ++ [x]) = t.entry? (D ++ [x]) :=
    fun x => hkept _ fun heq => by simpa using congrArg List.length heq
  refine ⟨h.toRoom.carries hc, fun x hx => ?_, fun x y => ?_, fun x y hfile => ?_⟩
  · rw [hdrawer] at hx ⊢
    exact h.drawer x hx
  · by_cases heq : (x, y) = (n, m)
    · cases heq
      rw [hself, Function.update_self]
    · rw [hkept _ (by simpa using heq), Function.update_of_ne heq, h.entry?_eq]
  · rw [hdrawer]
    by_cases heq : (x, y) = (n, m)
    · cases heq
      rw [Function.update_self] at hfile
      exact hd hfile
    · rw [Function.update_of_ne heq] at hfile
      exact h.drawer_of_content x y hfile

theorem put (h : t.Cabinet d k base D content) {n : FileName} (hd : t.entry? (D ++ [n]) ≠ none) (m : FileName)
    (data : ByteArray) :
    (t.put (D ++ [n] ++ [m]) (.file writtenMode data)).Cabinet d k base D (Function.update content (n, m) (some data)) :=
  h.change (.of_put_file (h.noDirectory n m) (h.not_link_file n m) _ _) (fun _ => hd)
    (fun _ hl => t.entry?_put_of_ne hl _) (t.entry?_put_self (by simp) _)

theorem erase (h : t.Cabinet d k base D content) (n m : FileName) :
    (t.erase (D ++ [n] ++ [m])).Cabinet d k base D (Function.update content (n, m) none) :=
  h.change (.of_erase (h.noDirectory n m) (h.not_link_file n m)) (fun hne => absurd rfl hne)
    (fun _ hl => t.entry?_erase_of_ne hl) (t.entry?_erase_self (by simp))

end Cabinet

end FileTree

/-! Tables in shelves. -/

/-- The contents of files are those of a table: each key with a value has a file, whose name is the key's. -/
def Tabulates {κ ν N : Type} (table : κ → Option ν) (name : κ → N) (data : κ → ν → ByteArray)
    (content : N → Option ByteArray) : Prop :=
  ∀ n b, content n = some b ↔ ∃ key v, table key = some v ∧ n = name key ∧ b = data key v

namespace Tabulates

variable {κ ν N : Type} {table : κ → Option ν} {name : κ → N} {data : κ → ν → ByteArray} {content : N → Option ByteArray}
  {key : κ}

/-- Among the keys with a value no other one has the same name as a key. -/
def Apart (table : κ → Option ν) (name : κ → N) (key : κ) : Prop :=
  ∀ other v, table other = some v → name other = name key → other = key

theorem content_eq (h : Tabulates table name data content) (ha : Apart table name key) :
    content (name key) = (table key).map (data key) := by
  apply Option.ext
  intro b
  rw [h, Option.map_eq_some_iff]
  constructor
  · rintro ⟨other, v, hv, hname, rfl⟩
    obtain rfl := ha other v hv hname.symm
    exact ⟨v, hv, rfl⟩
  · rintro ⟨v, hv, rfl⟩
    exact ⟨key, v, hv, rfl, rfl⟩

theorem content_ne_none {n : N} (h : Tabulates table name data content) :
    content n ≠ none ↔ ∃ key v, table key = some v ∧ n = name key := by
  rw [Option.ne_none_iff_exists']
  constructor
  · rintro ⟨b, hb⟩
    obtain ⟨key, v, hv, hn, -⟩ := (h n b).1 hb
    exact ⟨key, v, hv, hn⟩
  · rintro ⟨key, v, hv, hn⟩
    exact ⟨data key v, (h n _).2 ⟨key, v, hv, hn, rfl⟩⟩

variable [DecidableEq κ] [DecidableEq N]

theorem update (h : Tabulates table name data content) (ha : Apart table name key) (value : Option ν) :
    Tabulates (Function.update table key value) name data
      (Function.update content (name key) (value.map (data key))) := by
  intro n b
  by_cases hn : n = name key
  · subst hn
    rw [Function.update_self, Option.map_eq_some_iff]
    constructor
    · rintro ⟨v, hv, rfl⟩
      exact ⟨key, v, by rw [Function.update_self, hv], rfl, rfl⟩
    · rintro ⟨other, v, hv, hname, rfl⟩
      by_cases hother : other = key
      · subst hother
        rw [Function.update_self] at hv
        exact ⟨v, hv, rfl⟩
      · rw [Function.update_of_ne hother] at hv
        exact absurd (ha other v hv hname.symm) hother
  · rw [Function.update_of_ne hn, h]
    refine exists_congr fun other => exists_congr fun v => and_congr_left fun hname => ?_
    have hother : other ≠ key := by
      rintro rfl
      exact hn hname.1
    rw [Function.update_of_ne hother]

end Tabulates

/-! Names that come from digests. -/

theorem Path.fits_of_ascii {k : Nat} {s : String} (hs : (FileName.ofText s).Proper)
    (h : ∀ c ∈ s.toList, c.utf8Size = 1 ∧ c ≠ '\x00') (hlen : s.toList.length < k) (hk : k ≤ 256) : Fits k s := by
  have hlength : (FileName.ofText s).length = s.toList.length := by
    rw [FileName.ofText_eq_flatMap, List.length_flatMap]
    have hone : s.toList.map (fun c => (String.utf8EncodeChar c).length) = s.toList.map fun _ => 1 :=
      List.map_congr_left fun c hc => by rw [String.length_utf8EncodeChar, (h c hc).1]
    rw [hone]
    simp
  have hnul : 0 ∉ FileName.ofText s := by
    rw [FileName.ofText_eq_flatMap, List.mem_flatMap]
    rintro ⟨c, hc, hm⟩
    exact (h c hc).2 (mem_utf8EncodeChar (d := '\x00') (by decide) hm)
  refine ⟨hs, hnul, by omega, ?_⟩
  have : FileTree.nameLimit = 255 := rfl
  omega

theorem ascii_of_mem_hexDigits {c : Char} (h : c ∈ hexDigits) : c.utf8Size = 1 ∧ c ≠ '\x00' := by
  have hall : hexDigits.all (fun c => decide (c.utf8Size = 1 ∧ c ≠ '\x00')) = true := by decide
  exact of_decide_eq_true (List.all_eq_true.1 hall c h)

namespace IsDigest

variable {s : String}

theorem fits (h : IsDigest s) : Path.Fits 65 s :=
  Path.fits_of_ascii h.proper (fun c hc => ascii_of_mem_hexDigits (h.mem_hexDigits c hc)) (by rw [h.length_eq]; omega)
    (by omega)

theorem fits_json (h : IsDigest s) : Path.Fits 70 (s ++ ".json") := by
  apply Path.fits_of_ascii h.proper_json _ _ (by omega)
  · intro c hc
    rw [String.toList_append, List.mem_append] at hc
    rcases hc with hc | hc
    · exact ascii_of_mem_hexDigits (h.mem_hexDigits c hc)
    · have hall : ".json".toList.all (fun c => decide (c.utf8Size = 1 ∧ c ≠ '\x00')) = true := by decide
      exact of_decide_eq_true (List.all_eq_true.1 hall c hc)
  · rw [String.toList_append, List.length_append, h.length_eq]
    decide

end IsDigest

theorem mem_filterMap_text? {l : List FileName} {s : String} :
    s ∈ l.filterMap FileName.text? ↔ FileName.ofText s ∈ l := by
  rw [List.mem_filterMap]
  constructor
  · rintro ⟨n, hn, hs⟩
    rwa [← FileName.text?_eq_some.1 hs]
  · exact fun hs => ⟨_, hs, FileName.text?_eq_some.2 rfl⟩

theorem nodup_filterMap_text? {l : List FileName} (h : l.Nodup) : (l.filterMap FileName.text?).Nodup :=
  h.filterMap fun _ _ _ hn hn' => (FileName.text?_eq_some.1 hn).trans (FileName.text?_eq_some.1 hn').symm

/-- A digest is no name of a file that is not yet complete. -/
theorem IsDigest.isHidden_eq {s : String} (h : IsDigest s) : Store.isHidden s = false := by
  unfold Store.isHidden
  have hdot : '.' ∉ s.toList := h.notMem (by simp [hexDigits])
  cases hl : s.toList with
  | nil => rfl
  | cons c r =>
    rw [hl, List.mem_cons, not_or] at hdot
    simpa using Ne.symm hdot.1

/-- Texts that are told apart by a key of theirs strictly ascend by it once they are sorted. -/
theorem pairwise_lt_mergeSort {α : Type} (key : α → String) {l : List α} (h : (l.map key).Nodup) :
    (l.mergeSort fun a b => decide (key a ≤ key b)).Pairwise fun a b => key a < key b := by
  have hsorted : (l.mergeSort fun a b => decide (key a ≤ key b)).Pairwise fun a b => key a ≤ key b := by
    refine (List.pairwise_mergeSort ?_ ?_ l).imp fun hab => by simpa using hab
    · intro a b c hab hbc
      simp only [decide_eq_true_eq] at hab hbc ⊢
      exact String.le_trans hab hbc
    · intro a b
      simpa using String.le_total _ _
  have hne : (l.mergeSort fun a b => decide (key a ≤ key b)).Pairwise fun a b => key a ≠ key b :=
    List.pairwise_map.1 ((List.mergeSort_perm l _).map key |>.nodup_iff.2 h)
  exact hsorted.imp₂ (fun _ _ hle hne => by_contra fun hlt => hne (StrictOrder.connected hlt (String.not_lt.2 hle))) hne

section Host

variable {h : Host} {d D : Location} {k : Nat} {base name : String} {content : FileName → Option ByteArray}

theorem FileTree.Room.yields_list (hr : h.files.Room h.directory k base D) :
    Yields (Host.list base) h ((h.files.children D).filterMap FileName.text?) h := by
  unfold Host.list
  exact (yields_bind ..).2 ⟨_, h, (yields_inspect ..).2 ⟨hr.list_eq, rfl⟩, (yields_pure ..).2 ⟨rfl, rfl⟩⟩

theorem FileTree.Room.yields_writeBytes (hr : h.files.Room h.directory k base D) (hn : Path.Fits k name)
    (hd : Entry.NoDirectory (h.files.entry? (D ++ [FileName.ofText name])))
    (hl : ∀ target, h.files.entry? (D ++ [FileName.ofText name]) ≠ some (.link target)) (data : ByteArray) :
    Yields (Host.writeBytes (Path.join base name) data) h ()
      { h with files := h.files.put (D ++ [FileName.ofText name]) (.file writtenMode data) } := by
  unfold Host.writeBytes Host.replaceFile
  refine (yields_bind ..).2 ⟨(), _, (yields_change ..).2 ⟨_, hr.write_join hn hd hl data, rfl⟩, ?_⟩
  rw [hr.endsInName.directory_join hn.proper]
  exact (yields_inspect ..).2 ⟨(hr.carries (.of_put_file hd hl writtenMode data)).openReadable, rfl⟩

theorem FileTree.Shelf.yields_writeBytes (hs : h.files.Shelf h.directory k base D content) (hn : Path.Fits k name)
    (data : ByteArray) : Yields (Host.writeBytes (Path.join base name) data) h ()
      { h with files := h.files.put (D ++ [FileName.ofText name]) (.file writtenMode data) } :=
  hs.toRoom.yields_writeBytes hn (hs.noDirectory _) (hs.not_link _) data

theorem FileTree.Shelf.yields_remove (hs : h.files.Shelf h.directory k base D content) (hn : Path.Fits k name)
    {data : ByteArray} (hd : content (FileName.ofText name) = some data) :
    Yields (Host.remove (Path.join base name)) h ()
      { h with files := h.files.erase (D ++ [FileName.ofText name]) } :=
  (yields_change ..).2 ⟨_, hs.remove_join hn hd, rfl⟩

end Host

end ImageRecipe
