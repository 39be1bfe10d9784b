import Mathlib.Data.Fintype.EquivFin
import ImageRecipe.Proofs.FailedBuilds
import ImageRecipe.Proofs.ImageTables
import ImageRecipe.Proofs.SettledPaths

/-! What a store is asked for by a text: objects by hashes, images by ids, and tags. Which texts lead below the
directory that they belong to, and that nothing but the file of a text is looked at or removed. -/

namespace ImageRecipe

namespace Store

/-- The names of a directory of a store, counted from the root of the store. -/
def areaNames (name : String) : Location := Location.ofTexts ["store", name]

/-- A text by which a file in a directory of a store is found: where it leads from the directory if it is relative. -/
structure Trail where
  relative : Bool
  names : List FileName

/-- A trail that leads below a directory of a store without ever leading above the root of the store. -/
def Trail.Keeps (name : String) (r : Trail) : Prop := r.relative = true ∧ Location.KeepsBelow (areaNames name) r.names

instance (name : String) (r : Trail) : Decidable (r.Keeps name) := by
  unfold Trail.Keeps
  infer_instance

/-- Where a trail ends, counted from the root of the store; nowhere if it is not relative or leads above the root. -/
def Trail.end? (name : String) (r : Trail) : Option Location :=
  if r.relative then Location.followWithin (areaNames name) r.names else none

/-- The place that a trail leads to from a directory of a store. -/
def Trail.place (name : String) (r : Trail) (root : Location) : Location :=
  Location.follow (if r.relative then root ++ areaNames name else []) r.names

/-- The trail of a hash. -/
def objectTrail (hash : String) : Trail where
  relative := !Path.isAbsolute hash
  names := if Path.isAbsolute hash then Path.rawNames hash else Path.rawNames (fan hash) ++ Path.rawNames hash

/-- The name of the file of an id. -/
def recordFile (id : String) : String :=
  ((Text.dropStart? ImageRecord.idAlgorithm.toList id.toList).map String.ofList).getD id ++ ".json"

/-- The trail of an id. -/
def recordTrail (id : String) : Trail := ⟨!Path.isAbsolute (recordFile id), Path.rawNames (recordFile id)⟩

variable {s : Store} {d : Location}

theorem settled_path {name : String} (hn : name ∈ knownNames) :
    Path.settled d (s.path name) = Path.settled d s.root ++ areaNames name := by
  rw [path, Path.settled_join_name _ _ (FileName.proper_of_known hn),
    Path.settled_join_name _ _ (FileName.proper_of_known (by simp [knownNames])), List.append_assoc]
  rfl

/-- A trail keeps below a directory just if it leads below that directory of every store. -/
theorem Trail.keeps_iff {name : String} {r : Trail} :
    r.Keeps name ↔ ∀ root : Location, Location.Below (root ++ areaNames name) (r.place name root) := by
  constructor
  · rintro ⟨hrelative, hkeeps⟩ root
    rw [place, if_pos hrelative]
    exact hkeeps.below root
  · intro h
    -- in a store that lies in a directory with a name of its own, the trail does not come back by that name
    obtain ⟨fresh, hfresh⟩ := Infinite.exists_notMem_finset (areaNames name ++ r.names).toFinset
    rw [List.mem_toFinset, List.mem_append, not_or] at hfresh
    have hroot := h [fresh]
    rw [place] at hroot
    split at hroot
    · next hrelative => exact ⟨hrelative, Location.keepsBelow_of_below hfresh.2 hfresh.1 hroot⟩
    · refine absurd (Location.mem_follow (hroot.1.subset List.mem_cons_self)) ?_
      simpa using hfresh.2

theorem Trail.place_of_end? {name : String} {r : Trail} {l : Location} (h : r.end? name = some l) (root : Location) :
    r.place name root = root ++ l := by
  unfold end? at h
  split at h
  · next hrelative => rw [place, if_pos hrelative, Location.follow_of_followWithin root h]
  · cases h

theorem Trail.Keeps.exists_end? {name : String} {r : Trail} (h : r.Keeps name) : ∃ l, r.end? name = some l := by
  obtain ⟨hrelative, l, hl, -⟩ := h
  exact ⟨l, by rw [end?, if_pos hrelative, hl]⟩

theorem fan_isPrefix (hash : String) : (fan hash).toList <+: hash.toList := by
  unfold fan
  split
  · next a b rest htext =>
    split
    · rw [htext, String.toList_ofList]
      exact ⟨rest, rfl⟩
    · split
      · rw [htext, String.toList_ofList]
        exact ⟨b :: rest, rfl⟩
      · exact List.prefix_rfl
  · exact List.prefix_rfl

theorem isAbsolute_fan {hash : String} (h : Path.isAbsolute hash = false) : Path.isAbsolute (fan hash) = false := by
  obtain ⟨rest, hrest⟩ := fan_isPrefix hash
  unfold Path.isAbsolute at h ⊢
  rw [← hrest] at h
  cases hfan : (fan hash).toList with
  | nil => rfl
  | cons c cs => simpa [hfan] using h

theorem settled_objectPath (s : Store) (d : Location) (hash : String) :
    Path.settled d (s.objectPath hash) = (objectTrail hash).place "objects" (Path.settled d s.root) := by
  unfold objectPath objectTrail Trail.place
  cases h : Path.isAbsolute hash with
  | true =>
    have hjoin : Path.join (Path.join s.objects (fan hash)) hash = hash := by rw [Path.join, if_pos h]
    rw [hjoin, Path.settled_of_isAbsolute h]
    rfl
  | false =>
    rw [Path.settled_join _ _ h, Path.settled_join _ _ (isAbsolute_fan h), objects,
      settled_path (by simp [knownNames]), ← Location.follow_append]
    rfl

theorem settled_recordPath (s : Store) (d : Location) (id : String) :
    Path.settled d (s.recordPath id) = (recordTrail id).place "images" (Path.settled d s.root) := by
  change Path.settled d (Path.join s.images (recordFile id)) = _
  unfold recordTrail Trail.place
  cases h : Path.isAbsolute (recordFile id) with
  | true =>
    have hjoin : Path.join s.images (recordFile id) = recordFile id := by rw [Path.join, if_pos h]
    rw [hjoin, Path.settled_of_isAbsolute h]
    rfl
  | false =>
    rw [Path.settled_join _ _ h, images, settled_path (by simp [knownNames])]
    rfl

/-- Paths that lead by a trail lie below a directory of every store just if the trail keeps below it. -/
theorem liesBelow_iff {name : String} {r : Trail} {path : Store → String} (hn : name ∈ knownNames)
    (hpath : ∀ (s : Store) (d : Location), Path.settled d (path s) = r.place name (Path.settled d s.root)) :
    (∀ (s : Store) (d : Location), Path.LiesBelow d (s.path name) (path s)) ↔ r.Keeps name := by
  rw [Trail.keeps_iff]
  unfold Path.LiesBelow
  simp only [settled_path hn, hpath]
  refine ⟨fun h root => ?_, fun h s d => h _⟩
  have hroot : Path.settled root "" = root := by
    have hnames : Path.rawNames "" = [[]] := by decide +kernel
    rw [Path.settled, Path.origin, hnames]
    simp [RawPath.ofText, RawPath.isAbsolute]
  simpa [hroot] using h ⟨""⟩ root

/-- A tag lies below the directory of tags, whatever its text is. -/
theorem liesBelow_tagPath (s : Store) (d : Location) (tag : String) : Path.LiesBelow d s.tags (s.tagPath tag) := by
  unfold Path.LiesBelow tagPath Location.Below
  rw [Path.settled_join_name _ _ (isDigest_hexOfText tag).proper]
  exact ⟨List.prefix_append .., by simp⟩

theorem eq_of_fan {hash : String} (h : fan hash = "" ∨ fan hash = ".") : fan hash = hash := by
  unfold fan at h ⊢
  split at h
  · next a b rest htext =>
    split at h
    · have := h.imp (congrArg String.toList) (congrArg String.toList)
      simp at this
    · next hsizes =>
      split at h
      · next htwo =>
        have := h.imp (congrArg String.toList) (congrArg String.toList)
        rw [String.toList_ofList] at this
        obtain rfl : a = '.' := by simpa using this
        exact absurd htwo (by decide)
      · next htwo => rw [if_neg hsizes, if_neg htwo]
  · rfl

/-- A hash without slashes is looked for by two names. -/
theorem objectTrail_of_slash_notMem {hash : String} (hs : '/' ∉ hash.toList) :
    objectTrail hash = ⟨true, [FileName.ofText (fan hash), FileName.ofText hash]⟩ := by
  have hnames : ∀ {t : String}, '/' ∉ t.toList → Path.rawNames t = [FileName.ofText t] := fun ht =>
    RawPath.names_of_slash_notMem (FileName.slash_notMem_ofText ht)
  have hrelative : Path.isAbsolute hash = false := Path.isAbsolute_eq_false (FileName.slash_notMem_ofText hs)
  unfold objectTrail
  rw [hrelative, if_neg Bool.false_ne_true, hnames hs, hnames fun h => hs ((fan_isPrefix hash).subset h)]
  rfl

/-- A text that names a file in a directory of objects as well as that directory. -/
structure Nameable (hash : String) : Prop where
  slash_notMem : '/' ∉ hash.toList
  ne_empty : hash ≠ ""
  ne_dot : hash ≠ "."
  not_dots : ¬ ['.', '.'] <+: hash.toList

theorem Nameable.proper {hash : String} (h : Nameable hash) :
    ∀ n ∈ [FileName.ofText (fan hash), FileName.ofText hash], n.Proper := by
  have hhash : (FileName.ofText hash).Proper :=
    FileName.proper_of_ne h.slash_notMem h.ne_empty h.ne_dot fun heq => h.not_dots (heq ▸ by decide)
  have hfan : (FileName.ofText (fan hash)).Proper := by
    refine FileName.proper_of_ne (fun hm => h.slash_notMem ((fan_isPrefix hash).subset hm)) (fun heq => ?_)
      (fun heq => ?_) fun heq => h.not_dots (by simpa [heq] using fan_isPrefix hash)
    · exact h.ne_empty ((eq_of_fan (.inl heq)).symm.trans heq)
    · exact h.ne_dot ((eq_of_fan (.inr heq)).symm.trans heq)
  simp [hhash, hfan]

theorem Nameable.end?_objectTrail {hash : String} (h : Nameable hash) : (objectTrail hash).end? "objects" =
    some (areaNames "objects" ++ [FileName.ofText (fan hash), FileName.ofText hash]) := by
  rw [objectTrail_of_slash_notMem h.slash_notMem, Trail.end?, if_pos rfl, Location.followWithin_proper h.proper]

/-- A hash without slashes keeps below the directory of objects unless it is empty, a dot, or begins with two dots. -/
theorem keeps_objectTrail_iff {hash : String} (hs : '/' ∉ hash.toList) :
    (objectTrail hash).Keeps "objects" ↔ Nameable hash := by
  constructor
  · intro h
    refine ⟨hs, ?_, ?_, fun hdots => ?_⟩
    · rintro rfl
      exact absurd h (by decide +kernel)
    · rintro rfl
      exact absurd h (by decide +kernel)
    · obtain ⟨rest, hrest⟩ := hdots
      have hfan : fan hash = ".." := by
        unfold fan
        rw [← hrest]
        rfl
      obtain ⟨-, l, hl, hbelow⟩ := h
      rw [objectTrail_of_slash_notMem hs, hfan, Location.followWithin_cons, Location.followWithin_cons] at hl
      have hup : FileName.ofText ".." = FileName.up := by decide +kernel
      rw [if_neg (by decide +kernel), hup, Location.enter_up] at hl
      split at hl
      · cases hl
      · cases hl
        exact absurd (Location.Below.length_lt hbelow) (Nat.not_lt.2 (Location.length_enter_le _ _))
  · intro h
    obtain ⟨hrelative, hend⟩ : (objectTrail hash).relative = true ∧ _ := ⟨by rw [objectTrail_of_slash_notMem hs],
      h.end?_objectTrail⟩
    rw [Trail.end?, if_pos hrelative] at hend
    exact ⟨hrelative, _, hend, List.prefix_append .., by simp⟩

/-- Two hashes that keep below the directory of objects lead to one place just if their trails end alike. -/
theorem settled_objectPath_eq_iff {hash hash' : String} (hk : (objectTrail hash).Keeps "objects")
    (hk' : (objectTrail hash').Keeps "objects") (s : Store) (d : Location) :
    Path.settled d (s.objectPath hash) = Path.settled d (s.objectPath hash') ↔
      (objectTrail hash).end? "objects" = (objectTrail hash').end? "objects" := by
  obtain ⟨l, hl⟩ := hk.exists_end?
  obtain ⟨l', hl'⟩ := hk'.exists_end?
  rw [settled_objectPath, settled_objectPath, Trail.place_of_end? hl, Trail.place_of_end? hl', hl, hl',
    List.append_cancel_left_eq, Option.some.injEq]

/-- Hashes without slashes that keep below the directory of objects lead to places of their own. -/
theorem Nameable.objectTrail_injective {hash hash' : String} (h : Nameable hash) (h' : Nameable hash')
    (heq : (objectTrail hash).end? "objects" = (objectTrail hash').end? "objects") : hash = hash' := by
  rw [h.end?_objectTrail, h'.end?_objectTrail, Option.some.injEq, List.append_cancel_left_eq] at heq
  exact FileName.ofText_injective (by simpa using congrArg List.getLast? heq)

/-- An id without slashes keeps below the directory of images. -/
theorem keeps_recordTrail {id : String} (hs : '/' ∉ id.toList) : (recordTrail id).Keeps "images" := by
  have hfile : '/' ∉ (recordFile id).toList := by
    unfold recordFile
    rw [String.toList_append, List.mem_append, not_or]
    refine ⟨?_, by decide⟩
    cases hdrop : Text.dropStart? ImageRecord.idAlgorithm.toList id.toList with
    | none => simpa using hs
    | some rest =>
      rw [Text.eq_append_of_dropStart? hdrop, List.mem_append, not_or] at hs
      simpa using hs.2
  have hproper : (FileName.ofText (recordFile id)).Proper :=
    FileName.proper_ofText (c := 'j') hfile (by simp [recordFile]) (by decide)
  have hrelative : Path.isAbsolute (recordFile id) = false := Path.isAbsolute_eq_false hproper.slash_notMem
  have hnames : Path.rawNames (recordFile id) = [FileName.ofText (recordFile id)] :=
    RawPath.names_of_slash_notMem hproper.slash_notMem
  unfold recordTrail
  rw [hrelative, hnames]
  exact ⟨rfl, _, Location.followWithin_proper (by simp [hproper]) _, List.prefix_append .., by simp⟩

end Store

/-- Whether something can be removed is told by what it is and by what it lies in. -/
theorem FileTree.remove_congr {t t' : FileTree} {d : Location} {path : String}
    (hr : t.resolve false d path = t'.resolve false d path)
    (he : ∀ l, t.resolve false d path = .ok l → t.entry? l = t'.entry? l ∧ t.entry? l.dropLast = t'.entry? l.dropLast) :
    (t'.remove d path).map (fun _ => ()) = (t.remove d path).map fun _ => () := by
  unfold remove require
  rw [← hr]
  cases hl : t.resolve false d path with
  | error e => rfl
  | ok l =>
    obtain ⟨hentry, hparent⟩ := he l hl
    simp only [bind, Except.bind, hentry, hparent]
    split
    · rfl
    · split <;> rfl
    · rfl

/-- Two hosts agree at a path: it leads to the same places, with the same there and in what the places lie in. -/
structure Host.AgreesAt (h h' : Host) (path : String) : Prop where
  directory : h'.directory = h.directory
  resolve_eq : ∀ last, h.files.resolve last h.directory path = h'.files.resolve last h.directory path
  entry_eq : ∀ last l, h.files.resolve last h.directory path = .ok l →
    h.files.entry? l = h'.files.entry? l ∧ h.files.entry? l.dropLast = h'.files.entry? l.dropLast

/-- The outcome of an action depends on nothing but what is at a path. -/
structure Watches {ε α : Type} (path : String) (x : HostM ε α) : Prop where
  run : ∀ h h' : Host, h.AgreesAt h' path → (ran x h').1 = (ran x h).1

namespace Watches

variable {ε α β : Type} {path : String}

theorem pure (a : α) : Watches path (pure a : HostM ε α) := ⟨fun _ _ _ => rfl⟩

theorem throw (e : ε) : Watches path (throw e : HostM ε α) := ⟨fun _ _ _ => rfl⟩

/-- An action that changes nothing, and what follows it. -/
theorem bind {x : HostM ε α} {f : α → HostM ε β} (hk : Keeps Eq x) (hx : Watches path x)
    (hf : ∀ a, Watches path (f a)) : Watches path (x >>= f) := by
  constructor
  intro h h' hagree
  have hrun : ∀ g : Host, ran x g = ((ran x g).1, g) := fun g => Prod.ext rfl (hk.run g).symm
  rw [ran_bind, ran_bind, hrun h, hrun h', hx.run h h' hagree]
  cases (ran x h).1 with
  | error e => rfl
  | ok a => exact (hf a).run h h' hagree

theorem map {x : HostM ε α} (hx : Watches path x) (f : α → β) : Watches path (x >>= fun a => Pure.pure (f a)) := by
  constructor
  intro h h' hagree
  have houtcome := hx.run h h' hagree
  rw [ran_bind, ran_bind]
  rcases hrun : ran x h with ⟨_ | a, t⟩ <;> rcases hrun' : ran x h' with ⟨_ | a', t'⟩ <;> simp_all

theorem onFiles {x : HostM Fault α} (hx : Watches path x) : Watches path (Store.onFiles x) := by
  constructor
  intro h h' hagree
  rw [Store.onFiles, ran_failingAs, ran_failingAs, hx.run h h' hagree]

theorem pathExists : Watches path (Host.pathExists path : HostM ε Bool) := by
  constructor
  intro h h' hagree
  unfold Host.pathExists
  rw [ran_look, ran_look, hagree.directory]
  unfold FileTree.pathExists
  rw [FileTree.status_congr (hagree.resolve_eq true) fun l hl => (hagree.entry_eq true l hl).1]

theorem readBytes : Watches path (Host.readBytes path) := by
  constructor
  intro h h' hagree
  unfold Host.readBytes
  rw [ran_inspect, ran_inspect, hagree.directory]
  exact (FileTree.read_congr (hagree.resolve_eq true) fun l hl => (hagree.entry_eq true l hl).1).symm

theorem readText : Watches path (Host.readText path) := by
  refine readBytes.bind (Keeps.inspect ..) fun data => ?_
  split
  · exact pure _
  · exact throw _

theorem readDocument (form : Option Json.Form) (ofDocument? : Document → Option α) :
    Watches path (Store.readDocument form ofDocument? path) := by
  refine bind (Keeps.readText path).onFiles readText.onFiles fun text => ?_
  split
  · exact pure _
  · exact throw _

theorem remove : Watches path (Host.remove path) := by
  constructor
  intro h h' hagree
  have hrun : ∀ g : Host, (ran (Host.remove path) g).1 = (g.files.remove g.directory path).map fun _ => () := by
    intro g
    unfold Host.remove
    rw [ran_change]
    cases g.files.remove g.directory path <;> rfl
  rw [hrun, hrun, hagree.directory, FileTree.remove_congr (hagree.resolve_eq false) (hagree.entry_eq false)]

end Watches

/-- A call that is told by a text which object, which image or which tag it is about. -/
inductive IdentifierCall where
  | getObject (hash : String)
  | hasObject (hash : String)
  | removeObject (hash : String)
  | getImage (id : String)
  | hasImage (id : String)
  | resolveTag (tag : String)
  | untag (tag : String)

namespace IdentifierCall

/-- What a call gives if it does not fail. -/
abbrev Answer : IdentifierCall → Type
  | getObject _ => ByteArray
  | hasObject _ => Bool
  | removeObject _ => Unit
  | getImage _ => ImageRecord
  | hasImage _ => Bool
  | resolveTag _ => Option String
  | untag _ => Bool

def perform (s : Store) : (c : IdentifierCall) → StoreM c.Answer
  | getObject hash => s.getObject hash
  | hasObject hash => s.objectExists hash
  | removeObject hash => s.removeObject hash
  | getImage id => s.getImage id
  | hasImage id => s.imageExists id
  | resolveTag tag => s.resolveTag tag
  | untag tag => s.untag tag

/-- The path of the file that a call is about. -/
def path (s : Store) : IdentifierCall → String
  | getObject hash | hasObject hash | removeObject hash => s.objectPath hash
  | getImage id | hasImage id => s.recordPath id
  | resolveTag tag | untag tag => s.tagPath tag

/-- The calls that remove a file. -/
inductive Removes : IdentifierCall → Prop
  | object (hash : String) : Removes (removeObject hash)
  | tag (tag : String) : Removes (untag tag)

variable (s : Store)

/-- The outcome of a call depends on nothing but what is at its path. -/
theorem watches : ∀ c : IdentifierCall, Watches (c.path s) (c.perform s)
  | getObject hash => by
    have hchecked : ∀ data, Watches (s.objectPath hash) (if Blake3.hex data ≠ hash then
        throw (.integrity hash (Blake3.hex data)) else pure data : StoreM ByteArray) := by
      intro data
      split
      · exact Watches.throw _
      · exact Watches.pure _
    change Watches _ (s.getObject hash)
    unfold Store.getObject
    refine Watches.pathExists.bind (Keeps.look ..) fun b => ?_
    split
    · exact Watches.throw _
    · exact Watches.readBytes.onFiles.bind (Keeps.inspect ..).onFiles fun data => hchecked data
  | hasObject hash => Watches.pathExists
  | removeObject hash => by
    change Watches _ (s.removeObject hash)
    unfold Store.removeObject
    refine Watches.pathExists.bind (Keeps.look ..) fun b => ?_
    split
    · exact Watches.remove.onFiles
    · exact Watches.pure _
  | getImage id => by
    have hchecked : ∀ r : ImageRecord, Watches (s.recordPath id) (if r.id ≠ id then throw (.integrity id r.id)
        else pure r : StoreM ImageRecord) := by
      intro r
      split
      · exact Watches.throw _
      · exact Watches.pure _
    change Watches _ (s.getImage id)
    unfold Store.getImage
    refine Watches.pathExists.bind (Keeps.look ..) fun b => ?_
    split
    · exact Watches.throw _
    · exact (Watches.readDocument ..).bind (Keeps.readDocument ..) fun r => hchecked r
  | hasImage id => Watches.pathExists
  | resolveTag tag => by
    change Watches _ (s.resolveTag tag)
    unfold Store.resolveTag
    refine Watches.pathExists.bind (Keeps.look ..) fun b => ?_
    split
    · exact Watches.pure _
    · exact (Watches.readDocument ..).bind (Keeps.readDocument ..) fun e => Watches.pure _
  | untag tag => by
    change Watches _ (s.untag tag)
    unfold Store.untag
    refine Watches.pathExists.bind (Keeps.look ..) fun b => ?_
    split
    · exact Watches.remove.onFiles.map fun _ => true
    · exact Watches.pure _

/-- A call that removes nothing changes nothing. -/
theorem keeps_perform {c : IdentifierCall} (hc : ¬ c.Removes) : Keeps Eq (c.perform s) := by
  cases c with
  | getObject hash =>
    have hchecked : ∀ data, Keeps Eq (if Blake3.hex data ≠ hash then throw (.integrity hash (Blake3.hex data))
        else pure data : StoreM ByteArray) := by
      intro data
      split
      · exact Keeps.throw _
      · exact Keeps.pure _
    change Keeps Eq (s.getObject hash)
    unfold Store.getObject
    refine (Keeps.look ..).bind fun b => ?_
    split
    · exact Keeps.throw _
    · exact (Keeps.inspect ..).onFiles.bind fun data => hchecked data
  | hasObject hash => exact Keeps.look ..
  | removeObject hash => exact absurd (.object hash) hc
  | getImage id => exact Store.keeps_getImage s id
  | hasImage id => exact Keeps.look ..
  | resolveTag tag =>
    change Keeps Eq (s.resolveTag tag)
    unfold Store.resolveTag
    refine (Keeps.look ..).bind fun b => ?_
    split
    · exact Keeps.pure _
    · exact (Keeps.readDocument ..).bind fun e => Keeps.pure _
  | untag tag => exact absurd (.tag tag) hc

/-- A file is removed where the path leads, or nothing happens. -/
def Empties (path : String) (h h' : Host) : Prop :=
  h' = h ∨ ∃ l, h.files.resolve false h.directory path = .ok l ∧ h' = { h with files := h.files.erase l }

instance (path : String) : Std.Refl (Empties path) := ⟨fun _ => .inl rfl⟩

theorem keeps_remove (path : String) : Keeps (Empties path) (Host.remove path) := by
  apply Keeps.change
  intro h files hremove
  obtain ⟨l, -, hl, -, -, rfl⟩ := FileTree.remove_ok hremove
  exact .inr ⟨l, hl, rfl⟩

/-- A call that removes something empties the place that its path leads to. -/
theorem keeps_perform_of_removes {c : IdentifierCall} (hc : c.Removes) : Keeps (Empties (c.path s)) (c.perform s) := by
  have hlook : ∀ {α : Type} {path : String} {f : Bool → StoreM α}, (∀ b, Keeps (Empties path) (f b)) →
      Keeps (Empties path) (Host.pathExists path >>= f) := fun hf => ⟨fun h => (hf _).run h⟩
  cases hc with
  | object hash =>
    change Keeps _ (s.removeObject hash)
    unfold Store.removeObject
    refine hlook fun b => ?_
    split
    · exact (keeps_remove _).onFiles
    · exact Keeps.pure _
  | tag tag =>
    change Keeps _ (s.untag tag)
    unfold Store.untag
    refine hlook fun b => ?_
    split
    · constructor
      intro h
      have hremoved := (keeps_remove (s.tagPath tag)).onFiles.run h
      rw [ran_bind]
      rcases hrun : ran (Store.onFiles (Host.remove (s.tagPath tag))) h with ⟨_ | u, h'⟩ <;> rwa [hrun] at hremoved
    · exact Keeps.pure _

/-- A call on a host has to do with nothing but the file at its path. -/
structure TouchesOnly (c : IdentifierCall) (h : Host) : Prop where
  /-- The outcome is the same on every host with the same at the path. -/
  outcome : ∀ h', h.AgreesAt h' (c.path s) → (ran (c.perform s) h').1 = (ran (c.perform s) h).1
  /-- Nothing is changed, except that some calls remove what is at the path. -/
  change : (ran (c.perform s) h).2 = h ∨ c.Removes ∧ Empties (c.path s) h (ran (c.perform s) h).2
  /-- Where no link is met, that is where the path leads by its names. -/
  place : ∀ last l, h.files.LinkFree last h.directory (c.path s) →
    h.files.resolve last h.directory (c.path s) = .ok l → l = Path.settled h.directory (c.path s)

theorem touchesOnly (c : IdentifierCall) (h : Host) : c.TouchesOnly s h where
  outcome h' hagree := (c.watches s).run h h' hagree
  change := by
    by_cases hc : c.Removes
    · exact .inr ⟨hc, (keeps_perform_of_removes s hc).run h⟩
    · exact .inl ((keeps_perform s hc).run h).symm
  place _ _ hfree hl := hfree.resolve_eq hl

end IdentifierCall

namespace Store

/-- Tags lie below their directory, whatever their texts are. Ids and hashes do so in every store just if their names
lead from the directory of images or objects to a place below it, and never above the root of the store on the way:
without slashes this is true of every id, and of every hash that is not empty, is no dot, and does not begin with two
dots. Two hashes of this kind have one place just if their names lead to the same end, and without slashes they have
places of their own. No call has to do with anything but the file of what it is told. -/
theorem identifiers_confined (hash id tag : String) :
    (∀ (s : Store) (d : Location), Path.LiesBelow d s.tags (s.tagPath tag)) ∧
      (((∀ (s : Store) (d : Location), Path.LiesBelow d s.images (s.recordPath id)) ↔
          (recordTrail id).Keeps "images") ∧
        ('/' ∉ id.toList → (recordTrail id).Keeps "images")) ∧
      (((∀ (s : Store) (d : Location), Path.LiesBelow d s.objects (s.objectPath hash)) ↔
          (objectTrail hash).Keeps "objects") ∧
        ('/' ∉ hash.toList → ((objectTrail hash).Keeps "objects" ↔ Nameable hash))) ∧
      (∀ hash', (objectTrail hash).Keeps "objects" → (objectTrail hash').Keeps "objects" →
        (∀ (s : Store) (d : Location), Path.settled d (s.objectPath hash) = Path.settled d (s.objectPath hash') ↔
          (objectTrail hash).end? "objects" = (objectTrail hash').end? "objects") ∧
        (Nameable hash → Nameable hash' →
          (objectTrail hash).end? "objects" = (objectTrail hash').end? "objects" → hash = hash')) ∧
      ∀ (s : Store) (c : IdentifierCall) (h : Host), c.TouchesOnly s h := by
  refine ⟨fun s d => liesBelow_tagPath s d tag, ⟨?_, keeps_recordTrail⟩, ⟨?_, keeps_objectTrail_iff⟩,
    fun hash' hk hk' => ⟨settled_objectPath_eq_iff hk hk', Nameable.objectTrail_injective⟩,
    fun s c h => IdentifierCall.touchesOnly s c h⟩
  · exact liesBelow_iff (by simp [knownNames]) fun s d => settled_recordPath s d id
  · exact liesBelow_iff (by simp [knownNames]) fun s d => settled_objectPath s d hash

end Store

namespace Sample

/-- A store with one object, under a name that is no digest, and a file beside the store. -/
def shelved : Host :=
  (furnished "s" [["s"], ["s", "store"], ["s", "store", "objects"], ["s", "store", "objects", "ab"]]
    [(["s", "store", "objects", "ab", "abc"], .file writtenMode ByteArray.empty),
      (["victim"], .file writtenMode ByteArray.empty)]).host

end Sample

open Sample in
/-- Names without slashes keep to themselves. Others lead to the file of another hash, or to one beside the store, and
remove it. -/
theorem Store.identifiers_confined_sample :
    ('/' ∉ "abc".toList ∧ (objectTrail "abc").Keeps "objects") ∧
      ((objectTrail "./ab/abc").Keeps "objects" ∧
        Path.settled [] (Store.objectPath ⟨"s"⟩ "./ab/abc") = Path.settled [] (Store.objectPath ⟨"s"⟩ "abc") ∧
        (ran (Store.removeObject ⟨"s"⟩ "./ab/abc") shelved).2.files.pathExists [] (Store.objectPath ⟨"s"⟩ "abc") =
          false) ∧
      ¬ (objectTrail "../../victim").Keeps "objects" ∧
        shelved.files.LinkFree false [] (Store.objectPath ⟨"s"⟩ "../../victim") ∧
        (ran (Store.removeObject ⟨"s"⟩ "../../victim") shelved).2 =
          { shelved with files := shelved.files.erase (Location.ofTexts ["victim"]) } := by
  obtain ⟨-, -, ⟨-, hobjects⟩, hplaces, hcalls⟩ := Store.identifiers_confined "abc" "" ""
  have hslash : '/' ∉ "abc".toList := by decide
  have hkeeps : (objectTrail "abc").Keeps "objects" :=
    (hobjects hslash).2 ⟨hslash, by decide, by decide, by decide⟩
  have hother : (objectTrail "./ab/abc").Keeps "objects" := by decide +kernel
  have hfree : shelved.files.LinkFree false shelved.directory (Store.objectPath ⟨"s"⟩ "../../victim") := by
    decide +kernel
  refine ⟨⟨hslash, hkeeps⟩, ⟨hother, ?_, by decide +kernel⟩, by decide +kernel, hfree, ?_⟩
  · exact (((hplaces _ hkeeps hother).1 ⟨"s"⟩ []).2 (by decide +kernel)).symm
  · have htouches := hcalls ⟨"s"⟩ (.removeObject "../../victim") shelved
    have hgone : (ran (Store.removeObject ⟨"s"⟩ "../../victim") shelved).2.files.pathExists [] "victim" ≠
        shelved.files.pathExists [] "victim" := by decide +kernel
    rcases htouches.change with hsame | ⟨-, hsame | ⟨l, hl, hrun⟩⟩
    · exact absurd (congrArg (fun h : Host => h.files.pathExists [] "victim") hsame) hgone
    · exact absurd (congrArg (fun h : Host => h.files.pathExists [] "victim") hsame) hgone
    · obtain rfl := htouches.place false l hfree hl
      have hplace : Path.settled shelved.directory (IdentifierCall.path ⟨"s"⟩ (.removeObject "../../victim")) =
          Location.ofTexts ["victim"] := by decide +kernel
      rw [hplace] at hrun
      exact hrun

end ImageRecipe
