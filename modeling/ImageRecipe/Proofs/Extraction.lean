import ImageRecipe.Archive.Extraction
import ImageRecipe.Proofs.ArchivePaths
import ImageRecipe.Proofs.Walk

/-! Members put below a directory: where the places of the members are those of a tree and no member comes after
the directories that it lies in, all of the tree is there in the end. -/

namespace ImageRecipe

/-- There is a directory in which names may be used and made. -/
def Entry.Usable (e : Option Entry) : Prop :=
  ∃ mode, e = some (.directory mode) ∧ (Entry.directory mode).grants .execute = true ∧
    (Entry.directory mode).grants .write = true

namespace FileTree

variable {t : FileTree} {last : Bool}

private theorem walkNames_usable {follow : Location → List FileName → Except Fault Location}
    (names : List FileName) : ∀ here : Location, (∀ n ∈ names, n.Written) →
      (∀ p n r, names = p ++ n :: r → Entry.Usable (t.entry? (here ++ p))) →
      (last = true → ∀ target, t.entry? (here ++ names) ≠ some (.link target)) →
      t.walkNames last follow here names = .ok (here ++ names) := by
  induction names with
  | nil =>
    intro here _ _ _
    rw [List.append_nil]
    rfl
  | cons n names ih =>
    intro here hnames hdirectories hend
    obtain ⟨mode, hmode, hx, -⟩ := hdirectories [] n names rfl
    have hn := hnames n (by simp)
    rw [List.append_nil] at hmode
    refine walkNames_cons_ok.2
      ⟨mode, hmode, .inr ⟨hn.ne_nil, hx, .inr (.inr ⟨hn.ne_here, hn.ne_up, hn.length_le, ?_⟩)⟩⟩
    by_cases hlink : ∃ target, t.entry? (here ++ [n]) = some (.link target)
    · obtain ⟨target, ht⟩ := hlink
      cases names with
      | nil =>
        refine .inl ⟨target, ht, .inl ⟨rfl, ?_, rfl⟩⟩
        rw [← Bool.not_eq_true]
        exact fun hl => hend hl target ht
      | cons m names =>
        obtain ⟨mode', hmode', -⟩ := hdirectories [n] m names rfl
        rw [ht] at hmode'
        cases hmode'
    · refine .inr ⟨fun target ht => hlink ⟨target, ht⟩, ?_⟩
      have hrest := ih (here ++ [n]) (fun m hm => hnames m (by simp [hm])) (fun p m r heq => by
        rw [List.append_assoc]
        exact hdirectories (n :: p) m r (by rw [heq]; rfl)) (by simpa using hend)
      simpa using hrest

/-- A walk through directories that may be used ends where its names say. -/
theorem walk_usable {here : Location} {names : List FileName} (hnames : ∀ n ∈ names, n.Written)
    (hdirectories : ∀ p n r, names = p ++ n :: r → Entry.Usable (t.entry? (here ++ p)))
    (hend : last = true → ∀ target, t.entry? (here ++ names) ≠ some (.link target)) :
    ∀ links, t.walk last links here names = .ok (here ++ names)
  | 0 => walkNames_usable names here hnames hdirectories hend
  | _ + 1 => walkNames_usable names here hnames hdirectories hend

section Usable

variable {l : Location} (hl : Entry.Usable (t.entry? l.dropLast)) (hn : t.entry? l = none)

include hl

private theorem require_write : t.require .write l.dropLast = .ok () := by
  obtain ⟨mode, hmode, -, hw⟩ := hl
  unfold require
  rw [hmode]
  exact if_pos hw

include hn

/-- What is made in a directory that may be used may be used as well. -/
theorem makeDirectoryAt_usable : ∃ mode, t.makeDirectoryAt l = .ok (t.put l (.directory mode)) ∧
    Entry.Usable (some (.directory mode)) := by
  unfold makeDirectoryAt
  rw [hn, require_write hl]
  refine ⟨_, rfl, _, rfl, ?_⟩
  split <;> decide

theorem replace_usable (e : Entry) : t.replace l e = .ok (t.put l e) := by
  unfold replace
  rw [hn, require_write hl]
  rfl

end Usable

end FileTree

namespace Archive

open FileTree (checkPath linkLimit)

/-- The member brings an entry to the place that it has. -/
inductive StoredMember.Brings (x : StoredMember) : Entry → Prop
  | directory (mode : Nat) (hc : x.code = directoryCode) (hm : x.mode = some mode) :
    Brings x (.directory (mode % 4096))
  | link (hc : x.code = linkCode) (ht : checkPath x.target = .ok ()) : Brings x (.link x.target)
  | file (mode : Nat) (hc : x.code = 0x30) (hm : x.mode = some mode) (ht : x.isTacitDirectory = false) :
    Brings x (.file (mode % 4096) ⟨x.data.toArray⟩)

theorem StoredMember.Brings.isDirectory {x : StoredMember} {mode : Nat} (h : x.Brings (.directory mode)) :
    x.isDirectory = true := by
  cases h with
  | directory _ hc => exact decide_eq_true hc

/-- Everything in a tree lies in directories of it. -/
def Whole (want : Location → Option Entry) : Prop :=
  ∀ p r, p ≠ [] → r ≠ [] → want (p ++ r) ≠ none → ∃ mode, want p = some (.directory mode)

/-- Below a directory of a tree that nothing lay in, a tree is being put: some of it is there, and of the rest at most
directories. Elsewhere nothing has changed. -/
structure Placing (root : Location) (want : Location → Option Entry) (t : FileTree) (done : Location → Prop)
    (u : FileTree) : Prop where
  outside : ∀ l, ¬ root <+: l ∨ l = root → u.entry? l = t.entry? l
  there : ∀ r, r ≠ [] → done r → u.entry? (root ++ r) = want r
  left : ∀ r, r ≠ [] → ¬ done r → u.entry? (root ++ r) = none ∨
    (∃ mode, want r = some (.directory mode)) ∧ Entry.Usable (u.entry? (root ++ r))

/-- The names of a tree are such as files can have, and no path to its places is too long. -/
def HasRoom (root : Location) (want : Location → Option Entry) : Prop :=
  ∀ r, r ≠ [] → want r ≠ none →
    (∀ n ∈ r, n.Written) ∧ checkPath (RawPath.slash :: RawPath.ofNames (root ++ r)) = .ok ()

namespace Placing

variable {root : Location} {want : Location → Option Entry} {t u : FileTree} {done : Location → Prop}

/-- At first nothing is there. -/
theorem start (h : ∀ r, r ≠ [] → t.entry? (root ++ r) = none) : Placing root want t (fun _ => False) t where
  outside _ _ := rfl
  there _ _ := False.elim
  left r hr _ := .inl (h r hr)

variable (hp : Placing root want t done u)

include hp

/-- A directory on the way, which does not count as done. -/
theorem put_way {r : Location} {mode : Nat} (hr : r ≠ []) (hdone : ¬ done r)
    (hwant : ∃ mode, want r = some (.directory mode)) (hmode : Entry.Usable (some (.directory mode))) :
    Placing root want t done (u.put (root ++ r) (.directory mode)) := by
  have hne : root ++ r ≠ [] := by simp [hr]
  refine ⟨fun l hl => ?_, fun r' hr' hd => ?_, fun r' hr' hd => ?_⟩
  · rw [u.entry?_put_of_ne ?_, hp.outside l hl]
    rintro rfl
    rcases hl with hl | hl
    · exact hl (List.prefix_append ..)
    · exact hr (by simpa using hl)
  · rw [u.entry?_put_of_ne ?_, hp.there r' hr' hd]
    intro heq
    exact hdone (List.append_cancel_left heq ▸ hd)
  · by_cases heq : r' = r
    · subst heq
      rw [u.entry?_put_self hne]
      exact .inr ⟨hwant, hmode⟩
    · rw [u.entry?_put_of_ne fun h => heq (List.append_cancel_left h)]
      exact hp.left r' hr' hd

/-- What a tree wants at a place, put there. -/
theorem put_done {r : Location} {e : Entry} (hr : r ≠ []) (hwant : want r = some e) :
    Placing root want t (fun r' => r' = r ∨ done r') (u.put (root ++ r) e) := by
  have hne : root ++ r ≠ [] := by simp [hr]
  refine ⟨fun l hl => ?_, fun r' hr' hd => ?_, fun r' hr' hd => ?_⟩
  · rw [u.entry?_put_of_ne ?_, hp.outside l hl]
    rintro rfl
    rcases hl with hl | hl
    · exact hl (List.prefix_append ..)
    · exact hr (by simpa using hl)
  · by_cases heq : r' = r
    · subst heq
      rw [u.entry?_put_self hne, hwant]
    · rw [u.entry?_put_of_ne fun h => heq (List.append_cancel_left h)]
      exact hp.there r' hr' (hd.resolve_left heq)
  · rw [not_or] at hd
    rw [u.entry?_put_of_ne fun h => hd.1 (List.append_cancel_left h)]
    exact hp.left r' hr' hd.2

end Placing

/-! Where members are put. -/

private theorem ofNames_prefix {p q : List FileName} (h : p <+: q) : RawPath.ofNames p <+: RawPath.ofNames q := by
  obtain ⟨r, rfl⟩ := h
  by_cases hp : p = []
  · rw [hp]
    exact List.nil_prefix
  · by_cases hr : r = []
    · simp [hr]
    · rw [RawPath.ofNames_append hp hr]
      exact List.prefix_append ..

/-- A path that lies on the way of one that may be used may be used. -/
theorem checkPath_mono {p q : List FileName} (h : p <+: q)
    (hq : checkPath (RawPath.slash :: RawPath.ofNames q) = .ok ()) :
    checkPath (RawPath.slash :: RawPath.ofNames p) = .ok () := by
  have hpq := ofNames_prefix h
  have hlength := hpq.length_le
  unfold checkPath at hq ⊢
  split_ifs at hq with _ hzero hlong
  rw [if_neg (by simp), if_neg ?_, if_neg ?_]
  · rw [List.length_cons] at hlong ⊢
    omega
  · intro hz
    apply hzero
    rw [List.contains_iff_mem, List.mem_cons] at hz ⊢
    exact hz.imp_right fun hz => hpq.subset hz

section Members

variable {root : Location} {want : Location → Option Entry} {t u : FileTree} {done : Location → Prop}

theorem locate_usable {last : Bool} {r : Location} (hnames : ∀ n ∈ r, n.Written)
    (hc : checkPath (RawPath.slash :: RawPath.ofNames (root ++ r)) = .ok ())
    (hway : ∀ p n q, r = p ++ n :: q → Entry.Usable (u.entry? (root ++ p)))
    (hend : last = true → ∀ target, u.entry? (root ++ r) ≠ some (.link target)) :
    locate root u last r = .ok (root ++ r) := by
  unfold locate
  rw [hc]
  exact FileTree.walk_usable hnames hway hend linkLimit

/-- Names lead below the directory as far as there are directories that may be used. -/
theorem requireInside_usable {r : Location} (hnames : ∀ n ∈ r, n.Written)
    (hc : checkPath (RawPath.slash :: RawPath.ofNames (root ++ r)) = .ok ())
    (hway : ∀ p, p <+: r → Entry.Usable (u.entry? (root ++ p))) : requireInside root u r = .ok () := by
  obtain ⟨mode, hmode, -⟩ := hway r List.prefix_rfl
  have hl : locate root u true r = .ok (root ++ r) := by
    refine locate_usable hnames hc (fun p n q heq => hway p ?_) fun _ target ht => ?_
    · rw [heq]
      exact List.prefix_append ..
    · rw [hmode] at ht
      cases ht
  have hinside : root.isPrefixOf (root ++ r) = true := by simp
  unfold requireInside
  rw [hl]
  simp only [bind, Except.bind, hinside, hmode]
  rfl

theorem ensureParents_append (xs ys : List (List FileName)) (u : FileTree) :
    ensureParents root u (xs ++ ys) = (ensureParents root u xs).bind fun v => ensureParents root v ys := by
  induction xs generalizing u with
  | nil => rfl
  | cons names xs ih =>
    rw [List.cons_append, ensureParents, ensureParents]
    cases locate root u false names with
    | error => rfl
    | ok l =>
      simp only [bind, Except.bind]
      split
      · exact ih u
      · cases requireInside root u names.dropLast with
        | error => rfl
        | ok =>
          cases u.makeDirectoryAt l with
          | error => rfl
          | ok v => exact ih v

theorem placeAll_append (xs ys : List StoredMember) (u : FileTree) :
    placeAll root u (xs ++ ys) = (placeAll root u xs).bind fun v => placeAll root v ys := by
  induction xs generalizing u with
  | nil => rfl
  | cons x xs ih =>
    rw [List.cons_append, placeAll, placeAll]
    cases placeMember root u x with
    | error => rfl
    | ok v => exact ih v

variable (hw : Whole want) (hroom : HasRoom root want) (hroot : Entry.Usable (t.entry? root))

include hw hroom hroot

/-- The directories above a place of a tree that is being put are made, as far as they are not there. -/
theorem ensureParents_usable {r : Location} (hr : want r ≠ none) (hdone : ∀ p, p <+: r → p ≠ r → ¬ done p)
    (hp : Placing root want t done u) (k : Nat) (hk : k < r.length) :
    ∃ v, ensureParents root u ((List.range k).map fun n => r.take (n + 1)) = .ok v ∧ Placing root want t done v ∧
      ∀ p, p <+: r → p.length ≤ k → Entry.Usable (v.entry? (root ++ p)) := by
  induction k with
  | zero =>
    refine ⟨u, rfl, hp, fun p _ hl => ?_⟩
    obtain rfl : p = [] := List.length_eq_zero_iff.1 (Nat.le_zero.1 hl)
    rw [List.append_nil, hp.outside root (.inr rfl)]
    exact hroot
  | succ k ih =>
    obtain ⟨v, hv, hpv, hway⟩ := ih (Nat.lt_of_succ_lt hk)
    obtain ⟨hnames, hcheck⟩ := hroom r (List.length_pos_iff.1 (Nat.zero_lt_of_lt hk)) hr
    -- the next directory
    have hpq : r.take (k + 1) <+: r := List.take_prefix ..
    have hlength : (r.take (k + 1)).length = k + 1 := List.length_take_of_le hk.le
    have hne : r.take (k + 1) ≠ [] := List.length_pos_iff.1 (by omega)
    have hstrict : r.take (k + 1) ≠ r := by
      intro heq
      rw [heq] at hlength
      omega
    have hrest : r.drop (k + 1) ≠ [] := List.length_pos_iff.1 (by rw [List.length_drop]; omega)
    have hwant := hw (r.take (k + 1)) (r.drop (k + 1)) hne hrest (by rwa [List.take_append_drop])
    have houter : (r.take (k + 1)).dropLast <+: r := (List.dropLast_prefix _).trans hpq
    generalize hq : r.take (k + 1) = q at hpq hlength hne hstrict hwant houter
    have hqnames : ∀ n ∈ q, n.Written := fun n hn => hnames n (hpq.subset hn)
    have hlocate : locate root v false q = .ok (root ++ q) :=
      locate_usable hqnames (checkPath_mono ((List.prefix_append_right_inj root).2 hpq) hcheck)
        (fun p n s heq => hway p ((heq ▸ List.prefix_append ..).trans hpq) (by
          have := congrArg List.length heq
          simp only [List.length_append, List.length_cons] at this
          omega)) (by simp)
    have hinside : requireInside root v q.dropLast = .ok () := by
      refine requireInside_usable (fun n hn => hqnames n (List.dropLast_subset q hn))
        (checkPath_mono ((List.prefix_append_right_inj root).2 houter) hcheck) fun p hpre => ?_
      refine hway p (hpre.trans houter) ?_
      have := hpre.length_le
      rw [List.length_dropLast] at this
      omega
    have hshort : ∀ p, p <+: r → p.length ≤ k + 1 → p = q ∨ p.length ≤ k := by
      intro p hpre hl
      by_cases hk : p.length ≤ k
      · exact .inr hk
      · exact .inl ((List.prefix_of_prefix_length_le hpre hpq (by omega)).eq_of_length (by omega))
    rw [List.range_succ, List.map_append, ensureParents_append, hv, List.map_singleton, hq]
    change ∃ w, ensureParents root v [q] = .ok w ∧ _
    rw [ensureParents, hlocate]
    simp only [bind, Except.bind]
    have hleft := hpv.left q hne (hdone q hpq hstrict)
    by_cases hthere : v.entry? (root ++ q) = none
    · have hparent := hway _ houter (by rw [List.length_dropLast]; omega)
      rw [← List.dropLast_append_of_ne_nil hne] at hparent
      obtain ⟨mode, hmake, husable⟩ := FileTree.makeDirectoryAt_usable hparent hthere
      rw [hthere, hinside, hmake]
      refine ⟨_, rfl, hpv.put_way hne (hdone q hpq hstrict) hwant husable, fun p hpre hl => ?_⟩
      by_cases heq : p = q
      · subst heq
        rw [v.entry?_put_self (by simp [hne])]
        exact husable
      · rw [v.entry?_put_of_ne fun h => heq (List.append_cancel_left h)]
        exact hway p hpre ((hshort p hpre hl).resolve_left heq)
    · rw [if_pos (Option.isSome_iff_ne_none.2 hthere)]
      refine ⟨v, rfl, hpv, fun p hpre hl => ?_⟩
      rcases hshort p hpre hl with rfl | hl
      · exact (hleft.resolve_left hthere).2
      · exact hway p hpre hl

/-- A member is put where it belongs, unless a directory that it lies in is there already. -/
theorem placeMember_brings {x : StoredMember} {r : Location} {e : Entry} (hx : x.names? = some r) (hr : r ≠ [])
    (hwant : want r = some e) (hbrings : x.Brings e) (hdone : ∀ p, p <+: r → ¬ done p)
    (hp : Placing root want t done u) :
    ∃ v, placeMember root u x = .ok v ∧ Placing root want t (fun r' => r' = r ∨ done r') v := by
  have hsome : want r ≠ none := by simp [hwant]
  obtain ⟨hnames, hcheck⟩ := hroom r hr hsome
  have hlength : 0 < r.length := List.length_pos_iff.2 hr
  obtain ⟨v, hv, hpv, hway⟩ := ensureParents_usable hw hroom hroot hsome (fun p hpre _ => hdone p hpre) hp
    (r.length - 1) (by omega)
  have houter : r.dropLast <+: r := List.dropLast_prefix r
  have hinside : requireInside root v r.dropLast = .ok () := by
    refine requireInside_usable (fun n hn => hnames n (List.dropLast_subset r hn))
      (checkPath_mono ((List.prefix_append_right_inj root).2 houter) hcheck) fun p hpre => ?_
    have := hpre.length_le
    rw [List.length_dropLast] at this
    exact hway p (hpre.trans houter) this
  have hlocate : locate root v false r = .ok (root ++ r) :=
    locate_usable hnames hcheck (fun p n s heq => hway p (heq ▸ List.prefix_append ..) (by
      have := congrArg List.length heq
      simp only [List.length_append, List.length_cons] at this
      omega)) (by simp)
  have hparent := hway r.dropLast houter (by rw [List.length_dropLast])
  rw [← List.dropLast_append_of_ne_nil hr] at hparent
  have hleft := hpv.left r hr (hdone r List.prefix_rfl)
  have hplace : placeMember root u x = (
      if x.isDirectory then placeDirectory v (root ++ r) (x.mode.map fun n => n % 4096)
      else if x.code = linkCode then do
        checkPath x.target
        v.replace (root ++ r) (.link x.target)
      else if x.code = sameFileCode then placeAgain root v (root ++ r) x.target
      else if x.isRemark then pure v
      else if x.isTacitDirectory then placeDirectory v (root ++ r) (x.mode.map fun n => n % 4096)
      else v.replace (root ++ r) (.file ((x.mode.map fun n => n % 4096).getD openedMode) ⟨x.data.toArray⟩)) := by
    unfold placeMember
    rw [hx]
    cases r with
    | nil => exact absurd rfl hr
    | cons => simp only [bind, Except.bind, hv, hinside, hlocate]
  rw [hplace]
  -- where no directory belongs there is nothing yet
  have hnone : e.isDirectory = false → v.entry? (root ++ r) = none := by
    intro he
    refine hleft.resolve_right fun ⟨⟨mode, hd⟩, _⟩ => ?_
    rw [hwant] at hd
    cases hd
    cases he
  cases hbrings with
  | directory mode hc hm =>
    have hdirectory : x.isDirectory = true := decide_eq_true hc
    rw [if_pos hdirectory, hm]
    unfold placeDirectory
    rcases hleft with hnone | ⟨-, made, hmade, -⟩
    · obtain ⟨made, hmake, husable⟩ := FileTree.makeDirectoryAt_usable hparent hnone
      have hput := v.entry?_put_self (l := root ++ r) (by simp [hr]) (.directory made)
      simp only [hnone, hmake, bind, Except.bind, hput, Option.map_some]
      exact ⟨_, rfl, (hpv.put_way hr (hdone r List.prefix_rfl) ⟨_, hwant⟩ husable).put_done hr hwant⟩
    · simp only [hmade, bind, Except.bind, pure, Except.pure, Option.map_some]
      exact ⟨_, rfl, hpv.put_done hr hwant⟩
  | link hc ht =>
    have hdirectory : ¬ x.isDirectory = true := by
      unfold StoredMember.isDirectory
      rw [hc]
      decide
    rw [if_neg hdirectory, if_pos hc, ht]
    exact ⟨_, FileTree.replace_usable hparent (hnone rfl) _, hpv.put_done hr hwant⟩
  | file mode hc hm ht =>
    have hcodes : ¬ x.isDirectory = true ∧ x.code ≠ linkCode ∧ x.code ≠ sameFileCode ∧ ¬ x.isRemark = true := by
      unfold StoredMember.isDirectory StoredMember.isRemark
      rw [hc]
      decide
    rw [if_neg hcodes.1, if_neg hcodes.2.1, if_neg hcodes.2.2.1, if_neg hcodes.2.2.2, ht, hm]
    exact ⟨_, FileTree.replace_usable hparent (hnone rfl) _, hpv.put_done hr hwant⟩

/-- Members of which none comes after a directory that it lies in are put one after the other. -/
theorem placeAll_brings (place : StoredMember → Location) :
    ∀ {xs : List StoredMember} {u : FileTree} {done : Location → Prop},
    (∀ x ∈ xs, place x ≠ [] ∧ x.names? = some (place x) ∧ ∃ e, want (place x) = some e ∧ x.Brings e) →
    (xs.Pairwise fun a b => ¬ place a <+: place b) → (∀ x ∈ xs, ∀ p, p <+: place x → ¬ done p) →
    Placing root want t done u →
    ∃ v, placeAll root u xs = .ok v ∧ Placing root want t (fun r => (∃ x ∈ xs, place x = r) ∨ done r) v
  | [], u, done, _, _, _, hp => ⟨u, rfl, by simpa using hp⟩
  | x :: xs, u, done, hxs, horder, hdone, hp => by
    obtain ⟨hr, hnames, e, hwant, hbrings⟩ := hxs x (by simp)
    rw [List.pairwise_cons] at horder
    obtain ⟨v, hv, hpv⟩ := placeMember_brings hw hroom hroot hnames hr hwant hbrings (hdone x (by simp)) hp
    obtain ⟨w, hw', hpw⟩ := placeAll_brings place (fun y hy => hxs y (by simp [hy])) horder.2 (fun y hy p hpre => by
      rw [not_or]
      exact ⟨fun heq => horder.1 y hy (heq ▸ hpre), hdone y (by simp [hy]) p hpre⟩) hpv
    refine ⟨w, ?_, ?_⟩
    · rw [placeAll, hv]
      exact hw'
    · convert hpw using 2 with r
      simp [eq_comm, or_assoc, or_left_comm]

/-- Members of a tree are all put, for directories come last and the innermost of them first. -/
theorem extract_brings (place : StoredMember → Location) {xs : List StoredMember}
    (hxs : ∀ x ∈ xs, place x ≠ [] ∧ x.names? = some (place x) ∧ ∃ e, want (place x) = some e ∧ x.Brings e)
    (hnodup : (xs.map place).Nodup)
    (horder : ∀ x ∈ xs, ∀ y ∈ xs, x.isDirectory = true → y.isDirectory = true → place x <+: place y →
      place x ≠ place y → x.path < y.path)
    (hempty : ∀ r, r ≠ [] → t.entry? (root ++ r) = none) :
    ∃ v, extract root t xs = .ok v ∧ Placing root want t (fun r => ∃ x ∈ xs, place x = r) v := by
  let others := xs.filter fun x => !x.isDirectory
  let directories := (xs.filter StoredMember.isDirectory).mergeSort fun a b => decide (b.path ≤ a.path)
  have hdirectories : directories.Perm (xs.filter StoredMember.isDirectory) := List.mergeSort_perm ..
  have hperm : (others ++ directories).Perm xs :=
    (List.perm_append_comm.trans (hdirectories.append_right _)).trans (List.filter_append_perm ..)
  have hne : (others ++ directories).Pairwise fun a b => place a ≠ place b :=
    (hperm.pairwise_iff Ne.symm).2 (List.pairwise_map.1 hnodup)
  obtain ⟨hothers, hinner, hcross⟩ := List.pairwise_append.1 hne
  -- nothing lies below what is no directory
  have hplain : ∀ x ∈ xs, ∀ y ∈ xs, x.isDirectory = false → place x ≠ place y → ¬ place x <+: place y := by
    rintro x hx y hy hd hxy ⟨r, hr⟩
    obtain ⟨hxr, -, e, he, hbrings⟩ := hxs x hx
    obtain ⟨-, -, e', he', -⟩ := hxs y hy
    obtain ⟨mode, hmode⟩ := hw (place x) r hxr (fun h => hxy (by simpa [h] using hr)) (by rw [hr, he']; simp)
    rw [he, Option.some.injEq] at hmode
    subst hmode
    rw [hbrings.isDirectory] at hd
    cases hd
  have hother : ∀ x ∈ others, x ∈ xs ∧ x.isDirectory = false := by simp [others]
  have hdirectory : ∀ x ∈ directories, x ∈ xs ∧ x.isDirectory = true := fun x hx =>
    List.mem_filter.1 (hdirectories.subset hx)
  have hsorted : directories.Pairwise fun a b => decide (b.path ≤ a.path) = true :=
    List.pairwise_mergeSort (fun a b c hab hbc => by
      rw [decide_eq_true_eq] at hab hbc ⊢
      exact List.le_trans hbc hab) (fun a b => by simpa using List.le_total b.path a.path) _
  have hfirst : (others ++ directories).Pairwise fun a b => ¬ place a <+: place b := by
    refine List.pairwise_append.2 ⟨hothers.imp_of_mem fun hx hy hxy => ?_,
      (hinner.and hsorted).imp_of_mem fun hx hy hxy hpre => ?_, fun x hx y hy => ?_⟩
    · exact hplain _ (hother _ hx).1 _ (hother _ hy).1 (hother _ hx).2 hxy
    · have hlt := horder _ (hdirectory _ hx).1 _ (hdirectory _ hy).1 (hdirectory _ hx).2 (hdirectory _ hy).2 hpre hxy.1
      exact of_decide_eq_true hxy.2 hlt
    · exact hplain _ (hother _ hx).1 _ (hdirectory _ hy).1 (hother _ hx).2 (hcross x hx y hy)
  obtain ⟨v, hv, hpv⟩ := placeAll_brings hw hroom hroot place (fun x hx => hxs x (hperm.subset hx)) hfirst
    (fun _ _ _ _ => id) (Placing.start hempty)
  refine ⟨v, ?_, ?_⟩
  · rw [placeAll_append] at hv
    exact hv
  · convert hpv using 2 with r
    simp [hperm.mem_iff]

end Members

end Archive

end ImageRecipe
