import Mathlib.Data.List.Nodup
import ImageRecipe.Archive.Header
import ImageRecipe.Proofs.Actions
import ImageRecipe.Proofs.FileTree
import ImageRecipe.Proofs.LocationTexts

/-! Directory trees as a host lists them, and their archives. A host lists the entries of a directory in an order
of its own, and with owners and times that a file tree does not have. -/

namespace ImageRecipe

/-- What a host knows of an entry beside what the entry is. -/
structure HostMarks where
  owner : Nat
  group : Nat
  modified : Nat

/-- The types of entries that no layer takes. -/
inductive SpecialKind where
  | pipe
  | socket
  | characterDevice
  | blockDevice

/-- What an entry of a directory is. -/
inductive Node where
  | file (mode : Nat) (data : ByteArray)
  | directory (mode : Nat)
  | link (target : RawPath)
  | special (kind : SpecialKind) (mode : Nat)

/-- Whether a layer takes an entry. -/
def Entry.isTaken : Entry → Bool
  | .pipe _ => false
  | _ => true

namespace Node

/-- The entry that a file tree has for it. A file tree has all special entries for pipes. -/
def entry : Node → Entry
  | file mode data => .file mode data
  | directory mode => .directory mode
  | link target => .link target
  | special _ mode => .pipe mode

def isSpecial : Node → Bool
  | special .. => true
  | _ => false

end Node

/-- What is listed in a directory, one entry after another, and inside an entry what is listed there if it is a
directory. -/
inductive Listing where
  | done
  | entry (name : FileName) (marks : HostMarks) (node : Node) (inside rest : Listing)

namespace Listing

def isDone : Listing → Bool
  | done => true
  | entry .. => false

/-- Whether nothing is listed but entries that no layer takes. -/
def onlySpecial : Listing → Bool
  | done => true
  | entry _ _ node _ rest => node.isSpecial && rest.onlySpecial

/-- Whether a directory of a mode can be listed and what is in it looked at. -/
def opens (mode : Nat) (l : Listing) : Bool :=
  (Entry.directory mode).grants .read && ((Entry.directory mode).grants .execute || l.isDone)

/-- Whether everything listed can be read. -/
def readable : Listing → Bool
  | done => true
  | entry _ _ node inside rest =>
    (match node with
      | .file mode data => (Entry.file mode data).grants .read
      | .directory mode => inside.opens mode && inside.readable
      | .link _ | .special .. => true) && rest.readable

/-- The entries that a walk through the listed directories comes upon. -/
def walk (here : Location) : Listing → List (Location × Entry)
  | done => []
  | entry name _ node inside rest =>
    (here ++ [name], node.entry) ::
      ((if node.entry.isDirectory then inside.walk (here ++ [name]) else []) ++ rest.walk here)

/-- The archive of a directory of a mode in which that is listed. -/
def pack (mode : Nat) (l : Listing) (o : LayerOptions) : Except Fault (List UInt8) :=
  if l.opens mode && l.readable then Archive.pack o (l.walk []) else .error .permissionDenied

/-- Listings that differ in nothing but order, owners, times and entries that no layer takes. -/
inductive Alike : Listing → Listing → Prop where
  | done : Alike done done
  | entry (name : FileName) (marks marks' : HostMarks) (node : Node) {inside inside' rest rest' : Listing}
      (below : Alike inside inside') (after : Alike rest rest') :
      Alike (entry name marks node inside rest) (entry name marks' node inside' rest')
  | swap (name name' : FileName) (marks marks' : HostMarks) (node node' : Node) (inside inside' rest : Listing) :
      Alike (entry name marks node inside (entry name' marks' node' inside' rest))
        (entry name' marks' node' inside' (entry name marks node inside rest))
  | special (name : FileName) (marks : HostMarks) (kind : SpecialKind) (mode : Nat) (inside rest : Listing) :
      Alike (entry name marks (.special kind mode) inside rest) rest
  | symm {a b : Listing} (h : Alike a b) : Alike b a
  | trans {a b c : Listing} (h : Alike a b) (h' : Alike b c) : Alike a c

/-- The names listed in a directory, those of some nodes only. -/
def names (p : Node → Bool) : Listing → List FileName
  | done => []
  | entry name _ node _ rest => if p node then name :: rest.names p else rest.names p

/-- What holds of all listed directories, each with its mode and what is listed in it. -/
def Below (Q : Nat → Listing → Prop) : Listing → Prop
  | done => True
  | entry _ _ node inside rest =>
    (∀ mode, node = .directory mode → Q mode inside ∧ inside.Below Q) ∧ rest.Below Q

/-- What holds of a directory and all directories listed below it. -/
def Throughout (Q : Nat → Listing → Prop) (mode : Nat) (l : Listing) : Prop := Q mode l ∧ l.Below Q

/-- A directory that cannot be searched does not have entries that no layer takes and no others. -/
def Shown (mode : Nat) (l : Listing) : Prop :=
  (Entry.directory mode).grants .execute = true ∨ (l.onlySpecial = true → l = done)

/-- The names of what a layer takes of a directory have different texts. -/
def Told (_ : Nat) (l : Listing) : Prop := ((l.names fun n => !n.isSpecial).map FileName.text).Nodup

/-- No name has a slash in it. -/
def Named (l : Listing) : Prop := ∀ e ∈ l.walk [], ∀ n ∈ e.1, RawPath.slash ∉ n

/-! ### Readable or not -/

theorem Alike.onlySpecial_eq {a b : Listing} (h : Alike a b) : a.onlySpecial = b.onlySpecial := by
  induction h with
  | done => rfl
  | entry name marks marks' node _ _ _ ih => simp only [onlySpecial, ih]
  | swap => simp only [onlySpecial, Bool.and_left_comm]
  | special => simp [onlySpecial, Node.isSpecial]
  | symm _ ih => exact ih.symm
  | trans _ _ ih ih' => exact ih.trans ih'

/-- Whether a directory can be listed and all in it looked at that a layer takes. -/
private def looks (mode : Nat) (l : Listing) : Bool :=
  (Entry.directory mode).grants .read && ((Entry.directory mode).grants .execute || l.onlySpecial)

/-- Whether everything listed that a layer takes can be read. -/
private def takeable : Listing → Bool
  | done => true
  | entry _ _ node inside rest =>
    (match node with
      | .file mode data => (Entry.file mode data).grants .read
      | .directory mode => inside.looks mode && inside.takeable
      | .link _ | .special .. => true) && rest.takeable

private theorem Shown.opens_eq {mode : Nat} {l : Listing} (h : l.Shown mode) : l.opens mode = l.looks mode := by
  unfold opens looks
  rcases h with h | h
  · rw [h, Bool.true_or, Bool.true_or]
  · congr 2
    rw [Bool.eq_iff_iff]
    refine ⟨fun hdone => ?_, fun hspecial => by rw [h hspecial]; rfl⟩
    cases l with
    | done => rfl
    | entry => cases hdone

private theorem readable_eq {l : Listing} (h : l.Below Shown) :
    l.readable = l.takeable := by
  induction l with
  | done => rfl
  | entry name marks node inside rest hinside hrest =>
    unfold readable takeable
    rw [hrest h.2]
    cases node with
    | directory mode =>
      obtain ⟨hshown, hbelow⟩ := h.1 mode rfl
      dsimp only
      rw [hshown.opens_eq, hinside hbelow]
    | file | link | special => rfl

private theorem Alike.takeable_eq {a b : Listing} (h : Alike a b) : a.takeable = b.takeable := by
  induction h with
  | done => rfl
  | entry name marks marks' node hbelow _ ih ih' =>
    unfold takeable looks
    rw [ih, ih', hbelow.onlySpecial_eq]
  | swap => simp only [takeable, Bool.and_left_comm]
  | special => simp [takeable]
  | symm _ ih => exact ih.symm
  | trans _ _ ih ih' => exact ih.trans ih'

/-- Of two alike listings both can be read or none. -/
theorem Alike.readable_eq {a b : Listing} {mode : Nat} (h : Alike a b)
    (ha : a.Throughout Shown mode) (hb : b.Throughout Shown mode) :
    (a.opens mode && a.readable) = (b.opens mode && b.readable) := by
  rw [ha.1.opens_eq, hb.1.opens_eq, Listing.readable_eq ha.2, Listing.readable_eq hb.2, h.takeable_eq]
  unfold looks
  rw [h.onlySpecial_eq]

/-! ### What is taken -/

/-- What a walk comes upon that a layer takes. -/
def taken (here : Location) (l : Listing) : List (Location × Entry) := (l.walk here).filter fun e => e.2.isTaken

private theorem taken_entry (here : Location) (name : FileName) (marks : HostMarks) (node : Node) (inside rest : Listing) :
    (entry name marks node inside rest).taken here =
      ((if node.isSpecial then [] else [(here ++ [name], node.entry)]) ++
        (if node.entry.isDirectory then inside.taken (here ++ [name]) else [])) ++ rest.taken here := by
  cases node <;> simp [taken, walk, Node.entry, Node.isSpecial, Entry.isTaken, Entry.isDirectory]

/-- From alike listings the same is taken. -/
theorem Alike.taken_perm {a b : Listing} (h : Alike a b) (here : Location) : (a.taken here).Perm (b.taken here) := by
  induction h generalizing here with
  | done => exact .refl _
  | entry name marks marks' node _ _ ih ih' =>
    rw [taken_entry, taken_entry]
    refine .append (.append_left _ ?_) (ih' here)
    split
    · exact ih (here ++ [name])
    · exact .refl _
  | swap =>
    rw [taken_entry, taken_entry, taken_entry, taken_entry]
    exact List.perm_append_comm_assoc ..
  | special =>
    rw [taken_entry]
    exact .refl _
  | symm _ ih => exact (ih here).symm
  | trans _ _ ih ih' => exact (ih here).trans (ih' here)

/-! ### No path twice -/

section Keys

variable {p : Node → Bool} {q : Entry → Bool} (hp : ∀ mode, p (.directory mode) = true)
  (hq : ∀ node : Node, q node.entry = p node)

include hp hq

/-- The first name on the way to what a walk comes upon is listed. -/
private theorem exists_name_of_mem_walk {l : Listing} {here x : Location} {e : Entry}
    (h : (x, e) ∈ (l.walk here).filter fun e => q e.2) : ∃ n ∈ l.names p, ∃ r, x = here ++ n :: r := by
  rw [List.mem_filter] at h
  obtain ⟨h, he⟩ := h
  induction l generalizing here with
  | done => simp [walk] at h
  | entry name marks node inside rest ih ih' =>
    rw [walk, List.mem_cons, List.mem_append, Prod.mk.injEq] at h
    rw [names]
    rcases h with ⟨hx, rfl⟩ | h | h
    · rw [if_pos ((hq node).symm.trans he)]
      exact ⟨name, List.mem_cons_self, [], hx⟩
    · split at h
      · next hd =>
        obtain ⟨n, -, r, hx⟩ := ih h
        have hnode : p node = true := by
          cases node with
          | directory mode => exact hp mode
          | file | link | special => cases hd
        rw [if_pos hnode]
        exact ⟨name, List.mem_cons_self, n :: r, by rw [hx]; simp⟩
      · cases h
    · obtain ⟨n, hn, r, hx⟩ := ih' h
      refine ⟨n, ?_, r, hx⟩
      split
      · exact List.mem_cons_of_mem _ hn
      · exact hn

/-- If names tell entries of one directory apart, then paths tell all entries apart. -/
theorem nodup_walk {α : Type} (f : FileName → α) {l : Listing} (hl : ((l.names p).map f).Nodup)
    (hbelow : l.Below fun _ inside => ((inside.names p).map f).Nodup) (here : Location) :
    (((l.walk here).filter fun e => q e.2).map fun e => e.1.map f).Nodup := by
  induction l generalizing here with
  | done => simp [walk]
  | entry name marks node inside rest ih ih' =>
    have hrest : ((rest.names p).map f).Nodup := by
      rw [names] at hl
      split at hl
      · exact (List.nodup_cons.1 hl).2
      · exact hl
    have hname : ∀ {x : Location} {e : Entry} {s : Location}, p node = true →
        (x, e) ∈ (rest.walk here).filter (fun e => q e.2) → x.map f ≠ (here ++ name :: s).map f := by
      intro x e s hnode hx heq
      obtain ⟨n, hn, r, rfl⟩ := exists_name_of_mem_walk hp hq hx
      rw [names, if_pos hnode, List.map_cons, List.nodup_cons] at hl
      rw [List.map_append, List.map_append, List.append_cancel_left_eq, List.map_cons, List.map_cons,
        List.cons.injEq] at heq
      exact hl.1 (heq.1 ▸ List.mem_map_of_mem hn)
    have hinside : ∀ {x : Location} {e : Entry}, (x, e) ∈ (inside.walk (here ++ [name])).filter (fun e => q e.2) →
        ∃ n r, x = here ++ name :: n :: r := by
      intro x e hx
      obtain ⟨n, -, r, rfl⟩ := exists_name_of_mem_walk hp hq hx
      exact ⟨n, r, by simp⟩
    have hdirectory : node.entry.isDirectory = true → ∃ mode, node = .directory mode := by
      intro hd
      cases node with
      | directory mode => exact ⟨mode, rfl⟩
      | file | link | special => cases hd
    have htail : ((((if node.entry.isDirectory then inside.walk (here ++ [name]) else []) ++
        rest.walk here).filter fun e => q e.2).map fun e => e.1.map f).Nodup := by
      split
      · next hd =>
        obtain ⟨mode, rfl⟩ := hdirectory hd
        obtain ⟨hnames, hbelow'⟩ := hbelow.1 mode rfl
        rw [List.filter_append, List.map_append, List.nodup_append]
        refine ⟨ih hnames hbelow' _, ih' hrest hbelow.2 here, ?_⟩
        rintro _ hy _ hz rfl
        obtain ⟨⟨y, e⟩, hy, hkey⟩ := List.mem_map.1 hy
        obtain ⟨⟨z, e'⟩, hz, hkey'⟩ := List.mem_map.1 hz
        obtain ⟨n, r, rfl⟩ := hinside hy
        exact hname (hp mode) hz (hkey'.trans hkey.symm)
      · rw [List.nil_append]
        exact ih' hrest hbelow.2 here
    rw [walk, List.filter_cons]
    split
    · next hnode =>
      rw [List.map_cons, List.nodup_cons]
      refine ⟨fun hmem => ?_, htail⟩
      obtain ⟨⟨x, e⟩, hx, hkey⟩ := List.mem_map.1 hmem
      rw [List.filter_append, List.mem_append] at hx
      rcases hx with hx | hx
      · split at hx
        · obtain ⟨n, r, rfl⟩ := hinside hx
          simp at hkey
        · simp at hx
      · exact hname (s := []) ((hq node).symm.trans hnode) hx hkey
    · exact htail

end Keys

/-- What a layer takes has a path of its own each. -/
theorem nodup_texts {mode : Nat} {l : Listing} (h : l.Throughout Told mode) (hnamed : l.Named) :
    ((l.taken []).map fun e => e.1.text).Nodup := by
  have hkeys : ((l.taken []).map fun e => e.1.map FileName.text).Nodup :=
    nodup_walk (fun _ => rfl) (by intro node; cases node <;> rfl) FileName.text h.1 h.2 []
  have hplace : ∀ e ∈ l.taken [], e.1 ≠ [] := by
    rintro ⟨x, e⟩ he
    obtain ⟨n, -, r, rfl⟩ := exists_name_of_mem_walk (p := fun _ => true) (q := fun _ => true)
      (fun _ => rfl) (fun _ => rfl) (by simpa using List.mem_of_mem_filter he)
    simp
  refine List.Nodup.map_on ?_ (List.Nodup.of_map _ hkeys)
  intro a ha b hb heq
  have hname : ∀ {e}, e ∈ l.taken [] → ∀ n ∈ e.1, RawPath.slash ∉ n :=
    fun he => hnamed _ (List.mem_of_mem_filter he)
  exact List.inj_on_of_nodup_map hkeys ha hb
    (Location.texts_eq_of_text_eq (hplace a ha) (hplace b hb) (hname ha) (hname hb) heq)

end Listing

namespace LayerOptions

/-- The entries of a layer in the order of their paths. -/
theorem sortedEntries_eq (es : List (Location × Entry)) : sortedEntries es =
    (es.mergeSort fun a b => decide (a.1.text ≤ b.1.text)).map fun e => (e.1.text, e.2) := by
  unfold sortedEntries
  rw [List.map_mergeSort]
  intro a _ b _
  rfl

theorem pairwise_sortedEntries (es : List (Location × Entry)) :
    (sortedEntries es).Pairwise fun a b => a.1 ≤ b.1 := by
  have hpairs : (sortedEntries es).Pairwise fun a b => decide (a.1 ≤ b.1) = true :=
    List.pairwise_mergeSort
      (fun a b c hab hbc => by simpa using String.le_trans (by simpa using hab) (by simpa using hbc))
      (fun a b => by simpa using String.le_total a.1 b.1) _
  exact hpairs.imp fun hab => by simpa using hab

/-- What is in the order of paths that are all different is told by what is there. -/
theorem eq_of_perm_of_pairwise {l l' : List (String × Entry)} (hp : l.Perm l') (hn : (l.map Prod.fst).Nodup)
    (hl : l.Pairwise fun a b => a.1 ≤ b.1) (hl' : l'.Pairwise fun a b => a.1 ≤ b.1) : l = l' :=
  hp.eq_of_pairwise (fun _ _ ha hb hab hba =>
    List.inj_on_of_nodup_map hn ha (hp.mem_iff.2 hb) (String.le_antisymm hab hba)) hl hl'

/-- The members of a layer do not depend on the order of its entries, nor on those that it does not take. -/
theorem members_congr (o : LayerOptions) {es es' : List (Location × Entry)}
    (h : (es.filter fun e => e.2.isTaken).Perm (es'.filter fun e => e.2.isTaken))
    (hn : ((es.filter fun e => e.2.isTaken).map fun e => e.1.text).Nodup) : o.members es = o.members es' := by
  have htaken : ∀ es : List (Location × Entry), ((sortedEntries es).filter fun e => e.2.isTaken).Perm
      ((es.filter fun e => e.2.isTaken).map fun e => (e.1.text, e.2)) := by
    intro es
    refine ((List.mergeSort_perm ..).filter _).trans (.of_eq ?_)
    rw [List.filter_map]
    rfl
  have hsame : ((sortedEntries es).filter fun e => e.2.isTaken) =
      (sortedEntries es').filter fun e => e.2.isTaken := by
    refine eq_of_perm_of_pairwise ((htaken es).trans ((h.map _).trans (htaken es').symm)) ?_
      ((pairwise_sortedEntries es).filter _) ((pairwise_sortedEntries es').filter _)
    rw [((htaken es).map _).nodup_iff, List.map_map]
    exact hn
  have hskip : ∀ l : List (String × Entry), (l.filterMap fun e => o.memberOf? e.1 e.2) =
      (l.filter fun e => e.2.isTaken).filterMap fun e => o.memberOf? e.1 e.2 := by
    intro l
    rw [List.filterMap_filter]
    refine List.filterMap_congr fun e _ => ?_
    cases he : e.2 <;> rfl
  unfold members
  rw [hskip, hsame, ← hskip]

end LayerOptions

namespace Listing

/-- Of alike listings one archive is made, or of none. -/
theorem Alike.pack_eq {a b : Listing} {mode : Nat} (h : Alike a b) (ha : a.Throughout Shown mode)
    (hb : b.Throughout Shown mode) (htold : a.Throughout Told mode) (hnamed : a.Named) (o : LayerOptions) :
    a.pack mode o = b.pack mode o := by
  unfold pack
  rw [h.readable_eq ha hb, Archive.pack, Archive.pack,
    o.members_congr (h.taken_perm []) (nodup_texts htold hnamed)]

/-! ### Listings of a file tree -/

/-- What is listed is what the file tree has there. -/
def Tells (t : FileTree) (here : Location) : Listing → Prop
  | done => True
  | entry name _ node inside rest =>
    t.entry? (here ++ [name]) = some node.entry ∧
      (node.entry.isDirectory = true → (inside.names fun _ => true).Perm (t.children (here ++ [name])) ∧
        inside.Tells t (here ++ [name])) ∧ rest.Tells t here

/-- Everything in a directory is listed, in some order. -/
def Lists (t : FileTree) (here : Location) (l : Listing) : Prop :=
  (l.names fun _ => true).Perm (t.children here) ∧ l.Tells t here

variable {t : FileTree} {here : Location} {l : Listing}

/-- A walk comes upon what lies under the listed names. -/
theorem Tells.mem_walk (h : l.Tells t here) (ht : t.Rooted) {x : Location} {e : Entry} :
    (x, e) ∈ l.walk here ↔ t.entry? x = some e ∧ ∃ n ∈ l.names fun _ => true, ∃ r, x = here ++ n :: r := by
  induction l generalizing here with
  | done => simp [walk, names]
  | entry name marks node inside rest ih ih' =>
    obtain ⟨hnode, hinside, hrest⟩ := h
    rw [walk, List.mem_cons, List.mem_append, Prod.mk.injEq, ih' hrest, names, if_pos rfl]
    constructor
    · rintro (⟨rfl, rfl⟩ | hx | ⟨hx, n, hn, r, rfl⟩)
      · exact ⟨hnode, name, List.mem_cons_self, [], rfl⟩
      · split at hx
        · next hd =>
          obtain ⟨hx, n, -, r, rfl⟩ := (ih (hinside hd).2).1 hx
          exact ⟨hx, name, List.mem_cons_self, n :: r, by simp⟩
        · cases hx
      · exact ⟨hx, n, List.mem_cons_of_mem _ hn, r, rfl⟩
    · rintro ⟨hx, n, hn, r, rfl⟩
      rcases List.mem_cons.1 hn with rfl | hn
      · cases r with
        | nil => exact .inl ⟨rfl, Option.some.inj (hx.symm.trans hnode)⟩
        | cons m r =>
          have hsplit : here ++ n :: m :: r = (here ++ [n]) ++ m :: r := by simp
          have hsplit' : here ++ n :: m :: r = ((here ++ [n]) ++ [m]) ++ r := by simp
          obtain ⟨mode, hmode⟩ := ht.of_prefix (p := here ++ [n]) (List.cons_ne_nil m r)
            (by rw [← hsplit, hx]; simp)
          have hd : node.entry.isDirectory = true := by
            rw [Option.some.inj (hnode.symm.trans hmode)]
            rfl
          obtain ⟨hnames, htells⟩ := hinside hd
          have hm : t.entry? ((here ++ [n]) ++ [m]) ≠ none :=
            ht.ne_none_of_append (r := r) (by rw [← hsplit', hx]; simp)
          refine .inr (.inl ?_)
          rw [if_pos hd]
          exact (ih htells).2 ⟨hx, m, hnames.mem_iff.2 (t.mem_children.2 hm), r, hsplit⟩
      · exact .inr (.inr ⟨hx, n, hn, r, rfl⟩)

/-- A walk from another place comes upon the same there. -/
theorem walk_append (l : Listing) (outer here : Location) :
    l.walk (outer ++ here) = (l.walk here).map fun e => (outer ++ e.1, e.2) := by
  induction l generalizing here with
  | done => rfl
  | entry name marks node inside rest ih ih' =>
    rw [walk, walk, List.map_cons, List.map_append, ih', List.append_assoc, ih]
    split <;> rfl

theorem Tells.below_nodup (h : l.Tells t here) :
    l.Below fun _ inside => ((inside.names fun _ => true).map id).Nodup := by
  induction l generalizing here with
  | done => trivial
  | entry name marks node inside rest ih ih' =>
    refine ⟨?_, ih' h.2.2⟩
    rintro mode rfl
    obtain ⟨hnames, htells⟩ := h.2.1 rfl
    refine ⟨?_, ih htells⟩
    dsimp only
    rw [List.map_id]
    exact hnames.nodup_iff.2 (t.nodup_children _)

/-- A walk through everything that is listed comes upon what the file tree has below the place. -/
theorem Lists.walk_perm (h : l.Lists t here) (ht : t.Rooted) : (l.walk []).Perm (t.below here) := by
  have hnodup : (l.walk []).Nodup := by
    have := nodup_walk (p := fun _ => true) (q := fun _ => true) (fun _ => rfl) (fun _ => rfl) id
      (by rw [List.map_id]; exact h.1.nodup_iff.2 (t.nodup_children _)) h.2.below_nodup []
    rw [List.filter_true] at this
    exact this.of_map
  refine (List.perm_ext_iff_of_nodup hnodup (t.nodup_below here)).2 ?_
  rintro ⟨x, e⟩
  have hshift : (x, e) ∈ l.walk [] ↔ (here ++ x, e) ∈ l.walk here := by
    have := l.walk_append here []
    rw [List.append_nil] at this
    rw [this, List.mem_map]
    constructor
    · exact fun hx => ⟨_, hx, rfl⟩
    · rintro ⟨⟨y, e'⟩, hy, heq⟩
      rw [Prod.mk.injEq, List.append_cancel_left_eq] at heq
      obtain ⟨rfl, rfl⟩ := heq
      exact hy
  rw [hshift, h.2.mem_walk ht, FileTree.mem_below]
  constructor
  · rintro ⟨he, n, -, r, hx⟩
    rw [List.append_cancel_left_eq] at hx
    exact ⟨he, by simp [hx]⟩
  · rintro ⟨he, hx⟩
    obtain ⟨n, r, rfl⟩ := List.exists_cons_of_ne_nil hx
    refine ⟨he, n, h.1.mem_iff.2 (t.mem_children.2 ?_), r, rfl⟩
    exact ht.ne_none_of_append (r := r) (by rw [List.append_assoc, List.singleton_append, he]; simp)

theorem Lists.isDone_eq (h : l.Lists t here) : l.isDone = (t.children here).isEmpty := by
  rw [← h.1.isEmpty_eq]
  cases l <;> rfl

/-- Whether an entry of a file tree can be read, and if it is a directory what is in it looked at. -/
private def readableAt (t : FileTree) (here : Location) (e : Entry) : Bool :=
  match e with
  | .file .. => e.grants .read
  | .directory _ => e.grants .read && (e.grants .execute || (t.children here).isEmpty)
  | _ => true

private theorem Lists.opens_eq {mode : Nat} (h : l.Lists t here) :
    l.opens mode = readableAt t here (.directory mode) := by
  unfold opens readableAt
  rw [h.isDone_eq]

private theorem Tells.readable_eq (h : l.Tells t here) :
    l.readable = (l.walk here).all fun e => readableAt t e.1 e.2 := by
  induction l generalizing here with
  | done => rfl
  | entry name marks node inside rest ih ih' =>
    obtain ⟨-, hinside, hrest⟩ := h
    cases node with
    | directory mode =>
      have hlists : inside.Lists t (here ++ [name]) := hinside rfl
      simp only [readable, walk, List.all_cons, List.all_append, ih' hrest, hlists.opens_eq, ih hlists.2,
        Bool.and_assoc]
      rfl
    | file | link | special => simp only [readable, walk, List.all_cons, ih' hrest]; rfl

/-- The archive of a directory is that of every listing of it. -/
theorem Lists.packDirectory_eq {mode : Nat} {directory : Location} {path : String} (h : l.Lists t here)
    (ht : t.Rooted) (hpath : t.resolve true directory path = .ok here)
    (hmode : t.entry? here = some (.directory mode)) (htold : l.Throughout Told mode) (hnamed : l.Named)
    (o : LayerOptions) : Archive.packDirectory t directory path o = l.pack mode o := by
  have hreadable : t.requireReadable here =
      if l.opens mode && l.readable then .ok () else .error .permissionDenied := by
    unfold FileTree.requireReadable
    have hshift := l.walk_append here []
    rw [List.append_nil] at hshift
    rw [hmode, h.opens_eq, h.2.readable_eq, hshift, List.all_map, (h.walk_perm ht).all_eq]
    rfl
  unfold Archive.packDirectory pack
  simp only [hpath, hmode]
  rw [hreadable]
  split
  · have hmembers := o.members_congr ((h.walk_perm ht).filter fun e => e.2.isTaken) (nodup_texts htold hnamed)
    simp only [bind, Except.bind]
    rw [Archive.pack, Archive.pack, hmembers]
  · rfl

end Listing

namespace Sample

def marks (n : Nat) : HostMarks := ⟨n, n, n⟩

def text : Node := .file 0o644 (Text.bytes "x")

/-- A file and a directory with a pipe in it, and the same listed in another order, owned by someone else, and
without the pipe. -/
def listing : Listing :=
  .entry [0x78] (marks 0) text .done (.entry [0x64] (marks 0) (.directory 0o755)
    (.entry [0x70] (marks 0) (.special .pipe 0o644) .done .done) .done)

def turned : Listing :=
  .entry [0x64] (marks 1) (.directory 0o755) .done (.entry [0x78] (marks 1) text .done .done)

theorem alike_turned : listing.Alike turned :=
  .trans (.swap ..) (.entry _ _ _ _ (.special ..) (.entry _ _ _ _ .done .done))

/-- A file tree with what is listed. -/
def listed : FileTree :=
  (((FileTree.empty.put [[0x69]] (.directory 0o755)).put [[0x69], [0x78]] text.entry).put
    [[0x69], [0x64]] (.directory 0o755)).put [[0x69], [0x64], [0x70]] (.pipe 0o644)

theorem rooted_listed : listed.Rooted := by
  have hfile : FileTree.entry? (FileTree.empty.put [[0x69]] (.directory 0o755)) [[0x69], [0x78]] = none := by
    decide +kernel
  have hpipe : FileTree.entry? (((FileTree.empty.put [[0x69]] (.directory 0o755)).put [[0x69], [0x78]]
      text.entry).put [[0x69], [0x64]] (.directory 0o755)) [[0x69], [0x64], [0x70]] = none := by decide +kernel
  refine .put (.put (.put (.put .empty ⟨_, rfl⟩ (.inr ⟨_, rfl⟩)) ⟨0o755, by decide +kernel⟩ (.inl ?_))
    ⟨0o755, by decide +kernel⟩ (.inr ⟨_, rfl⟩)) ⟨0o755, by decide +kernel⟩ (.inl ?_)
  · rw [hfile]
    exact Entry.noDirectory_none
  · rw [hpipe]
    exact Entry.noDirectory_none

theorem listed_lists : listing.Lists listed [[0x69]] := by
  refine ⟨by decide +kernel, by decide +kernel, nofun, by decide +kernel, fun _ => ⟨by decide +kernel, ?_⟩, trivial⟩
  exact ⟨by decide +kernel, nofun, trivial⟩

theorem shown_listing : listing.Throughout Listing.Shown 0o755 := by
  refine ⟨.inl (by decide), nofun, ?_, trivial⟩
  rintro _ ⟨⟩
  exact ⟨.inl (by decide), nofun, trivial⟩

theorem shown_turned : turned.Throughout Listing.Shown 0o755 := by
  refine ⟨.inl (by decide), ?_, nofun, trivial⟩
  rintro _ ⟨⟩
  exact ⟨.inl (by decide), trivial⟩

theorem told_listing : listing.Throughout Listing.Told 0o755 := by
  refine ⟨by unfold Listing.Told; decide +kernel, nofun, ?_, trivial⟩
  rintro _ ⟨⟩
  exact ⟨by unfold Listing.Told; decide +kernel, nofun, trivial⟩

/-- A directory that can be listed but not searched. -/
def closed (inside : Listing) : Listing := .entry [0x64] (marks 0) (.directory 0o600) inside .done

end Sample

end ImageRecipe
