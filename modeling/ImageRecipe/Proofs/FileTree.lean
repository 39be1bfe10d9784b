import ImageRecipe.Files.Tree
import ImageRecipe.Proofs.SortedMap

/-! What lies in a file tree after a write, and how trees change while only some places may be written and
only some may be emptied. -/

namespace ImageRecipe

namespace FileTree

variable (t : FileTree)

@[simp] theorem entry?_root : t.entry? [] = some (.directory directoryMode) := rfl

private theorem entry?_eq_get? {l : Location} (h : l ≠ []) : t.entry? l = t.entries.get? l := by
  cases l with
  | nil => exact absurd rfl h
  | cons => rfl

theorem entry?_put_self {l : Location} (h : l ≠ []) (e : Entry) : entry? (t.put l e) l = some e := by
  rw [entry?_eq_get? _ h]
  simp [put]

theorem entry?_put_of_ne {l l' : Location} (h : l' ≠ l) (e : Entry) :
    entry? (t.put l e) l' = t.entry? l' := by
  by_cases h' : l' = []
  · subst h'
    rfl
  · rw [entry?_eq_get? _ h', entry?_eq_get? _ h']
    simp [put, h]

theorem entry?_erase_self {l : Location} (h : l ≠ []) : entry? (t.erase l) l = none := by
  rw [entry?_eq_get? _ h]
  simp [erase]

theorem entry?_erase_of_ne {l l' : Location} (h : l' ≠ l) : entry? (t.erase l) l' = t.entry? l' := by
  by_cases h' : l' = []
  · subst h'
    rfl
  · rw [entry?_eq_get? _ h', entry?_eq_get? _ h']
    simp [erase, h]

theorem entry?_eraseBelow_of_prefix {l l' : Location} (h : l <+: l') (h' : l' ≠ []) :
    entry? (t.eraseBelow l) l' = none := by
  rw [entry?_eq_get? _ h']
  have hp : l.isPrefixOf l' = true := by simpa using h
  simp [eraseBelow, SortedMap.get?_filter t.entries fun k => !l.isPrefixOf k, hp]

theorem entry?_eraseBelow_of_not_prefix {l l' : Location} (h : ¬ l <+: l') :
    entry? (t.eraseBelow l) l' = t.entry? l' := by
  by_cases h' : l' = []
  · subst h'
    rfl
  · have hp : l.isPrefixOf l' = false := by simpa [← Bool.not_eq_true] using h
    rw [entry?_eq_get? _ h', entry?_eq_get? _ h']
    simp [eraseBelow, SortedMap.get?_filter t.entries fun k => !l.isPrefixOf k, hp]

/-- Where nothing lies below a place it makes no difference whether all that is there is removed. -/
theorem eraseBelow_eq_erase {l : Location} (h : ∀ l', l <+: l' → l' ≠ l → t.entry? l' = none) :
    t.eraseBelow l = t.erase l := by
  refine congrArg FileTree.mk (SortedMap.ext_get? fun k => ?_)
  rw [SortedMap.get?_filter t.entries fun k => !l.isPrefixOf k, SortedMap.get?_erase]
  by_cases hk : k = l
  · have hself : l.isPrefixOf l = true := by simp
    simp [hk, hself]
  · by_cases hp : l <+: k
    · have hne : k ≠ [] := by
        rintro rfl
        exact hk (List.prefix_nil.1 hp).symm
      simp [hk, ← entry?_eq_get? t hne, h k hp hk]
    · simp [hk, hp]

theorem erase_of_none {l : Location} (h : t.entry? l = none) : t.erase l = t := by
  refine congrArg FileTree.mk (SortedMap.ext_get? fun k => ?_)
  have hne : l ≠ [] := by
    rintro rfl
    simp at h
  rw [SortedMap.get?_erase]
  split
  · next hk => rw [hk, ← entry?_eq_get? t hne, h]
  · rfl

/-- What lies below a place lies somewhere. -/
theorem entry?_of_mem_below {l r : Location} {e : Entry} (h : (r, e) ∈ t.below l) :
    t.entry? (l ++ r) = some e ∧ r ≠ [] := by
  obtain ⟨⟨k, e'⟩, hmem, hbelow⟩ := List.mem_filterMap.1 h
  split at hbelow
  · next hp =>
    simp only [Bool.and_eq_true, List.isPrefixOf_iff_prefix, decide_eq_true_eq] at hp
    obtain ⟨⟨rest, rfl⟩, hlength⟩ := hp
    simp only [List.drop_left, Option.some.injEq, Prod.mk.injEq] at hbelow
    obtain ⟨rfl, rfl⟩ := hbelow
    have hne : rest ≠ [] := by
      rintro rfl
      simp at hlength
    exact ⟨by rw [entry?_eq_get? t (by simp [hne]), SortedMap.mem_entries_iff.1 hmem], hne⟩
  · cases hbelow

/-- What lies somewhere lies below every place on the way. -/
theorem mem_below {l r : Location} {e : Entry} : (r, e) ∈ t.below l ↔ t.entry? (l ++ r) = some e ∧ r ≠ [] := by
  refine ⟨entry?_of_mem_below t, fun ⟨he, hr⟩ => ?_⟩
  rw [entry?_eq_get? t (by simp [hr])] at he
  refine List.mem_filterMap.2 ⟨(l ++ r, e), SortedMap.mem_entries_iff.2 he, ?_⟩
  simp [List.length_pos_iff.2 hr]

theorem nodup_below (l : Location) : (t.below l).Nodup := by
  apply t.entries.ascending.filterMap
  intro e e' hlt x hx x' hx' heq
  simp only [Option.ite_none_right_eq_some, Bool.and_eq_true, List.isPrefixOf_iff_prefix, decide_eq_true_eq,
    Option.some.injEq] at hx hx'
  obtain ⟨⟨⟨r, hr⟩, -⟩, hx⟩ := hx
  obtain ⟨⟨⟨r', hr'⟩, -⟩, hx'⟩ := hx'
  rw [← hx, ← hx', ← hr, ← hr', List.drop_left, List.drop_left, Prod.mk.injEq] at heq
  rw [← hr, ← hr', heq.1] at hlt
  exact StrictOrder.irrefl _ hlt

/-- No two entries below a place lie at one place. -/
theorem pairwise_below (l : Location) : (t.below l).Pairwise fun a b => a.1 ≠ b.1 :=
  (t.nodup_below l).imp_of_mem fun {a b} ha hb hab heq => hab (Prod.ext heq (by
    have ha := (t.entry?_of_mem_below ha).1
    have hb := (t.entry?_of_mem_below hb).1
    rw [heq, hb] at ha
    exact (Option.some.inj ha).symm))

/-- What lies below a place is decided by the entries there. -/
theorem below_congr {t t' : FileTree} {l : Location}
    (h : ∀ l', l <+: l' → t.entry? l' = t'.entry? l') : t.below l = t'.below l := by
  let p : Location → Bool := fun k => l.isPrefixOf k && decide (l.length < k.length)
  have hp : ∀ k, p k = true → l <+: k ∧ k ≠ [] := by
    intro k hk
    simp only [p, Bool.and_eq_true, List.isPrefixOf_iff_prefix, decide_eq_true_eq] at hk
    refine ⟨hk.1, ?_⟩
    rintro rfl
    simp at hk
  have hbelow : ∀ t : FileTree, t.below l =
      (t.entries.entries.filter fun e => p e.1).map fun e => (e.1.drop l.length, e.2) := by
    intro t
    rw [← List.filterMap_eq_map, List.filterMap_filter]
    rfl
  have hfilter : (t.entries.entries.filter fun e => p e.1) = t'.entries.entries.filter fun e => p e.1 := by
    have := SortedMap.ext_get? (m := ⟨_, t.entries.ascending.filter fun e => p e.1⟩)
      (n := ⟨_, t'.entries.ascending.filter fun e => p e.1⟩) fun k => by
        rw [SortedMap.get?_filter, SortedMap.get?_filter]
        split
        · next hk => rw [← entry?_eq_get? _ (hp k hk).2, ← entry?_eq_get? _ (hp k hk).2, h k (hp k hk).1]
        · rfl
    exact congrArg SortedMap.entries this
  rw [hbelow, hbelow, hfilter]

/-- The name that a key adds to a place, if it adds one. -/
private def added? (l : Location) (e : Location × Entry) : Option FileName :=
  if l.isPrefixOf e.1 && l.length < e.1.length then
    match e.1.drop l.length with
    | [n] => some n
    | _ => none
  else none

private theorem added?_eq_some {l : Location} {e : Location × Entry} {n : FileName} :
    added? l e = some n ↔ e.1 = l ++ [n] := by
  unfold added?
  constructor
  · intro h
    split at h
    · next hp =>
      simp only [Bool.and_eq_true, List.isPrefixOf_iff_prefix, decide_eq_true_eq] at hp
      obtain ⟨rest, hrest⟩ := hp.1
      rw [← hrest, List.drop_left] at h
      split at h
      · cases h
        exact hrest.symm
      · cases h
    · cases h
  · intro h
    rw [h]
    simp

private theorem children_eq (l : Location) : t.children l = t.entries.entries.filterMap (added? l) := by
  unfold children below
  rw [List.filterMap_filterMap]
  congr 1
  funext e
  unfold added?
  split <;> rfl

/-- The names in a directory are those with which something lies there. -/
theorem mem_children {l : Location} {n : FileName} : n ∈ t.children l ↔ t.entry? (l ++ [n]) ≠ none := by
  rw [children_eq, List.mem_filterMap, entry?_eq_get? _ (by simp), Option.ne_none_iff_exists']
  constructor
  · rintro ⟨⟨k, e⟩, hmem, hadded⟩
    obtain rfl : k = l ++ [n] := added?_eq_some.1 hadded
    exact ⟨e, SortedMap.mem_entries_iff.1 hmem⟩
  · rintro ⟨e, he⟩
    exact ⟨(l ++ [n], e), SortedMap.mem_entries_iff.2 he, added?_eq_some.2 rfl⟩

theorem nodup_children (l : Location) : (t.children l).Nodup := by
  rw [children_eq]
  apply t.entries.ascending.filterMap
  intro e e' hlt n hn n' hn' heq
  rw [added?_eq_some.1 hn, added?_eq_some.1 hn', heq] at hlt
  exact StrictOrder.irrefl _ hlt

end FileTree

/-- There is no directory. -/
def Entry.NoDirectory (e : Option Entry) : Prop := ∀ mode, e ≠ some (.directory mode)

/-- Nothing, or something that no path goes on from. -/
def Entry.DeadEnd (e : Option Entry) : Prop := NoDirectory e ∧ ∀ target, e ≠ some (.link target)

/-- What may happen at a place. -/
structure Entry.Leave where
  /-- A directory may be made there, if there is nothing. -/
  makes : Prop
  /-- The place may be emptied, whatever was there. -/
  empties : Prop
  /-- The place may be emptied unless there was a directory. -/
  drops : Prop
  /-- A file may be written there, unless there was a directory. -/
  writes : ByteArray → Prop

/-- The same leave, but the place may not be emptied. -/
def Entry.Leave.kept (a : Entry.Leave) : Entry.Leave := { a with empties := False }

/-- Whether an entry may be lost. -/
def Entry.Leave.Loses (a : Entry.Leave) (e : Option Entry) : Prop := a.empties ∨ a.drops ∧ Entry.NoDirectory e

/-- How an entry may change at a place under a leave. -/
inductive Entry.Changes (a : Entry.Leave) (e : Option Entry) : Option Entry → Prop
  | same : Changes a e e
  | lost (h : a.Loses e) : Changes a e none
  | made (mode : Nat) (hm : a.makes) (h : e = none ∨ a.Loses e) : Changes a e (some (.directory mode))
  | written (mode : Nat) (data : ByteArray) (h : a.writes data) (hd : NoDirectory e ∨ a.Loses e) :
    Changes a e (some (.file mode data))

namespace Entry

variable {a b : Leave} {e f g : Option Entry}

theorem noDirectory_none : NoDirectory none := fun _ h => by cases h

theorem not_noDirectory (mode : Nat) : ¬ NoDirectory (some (.directory mode)) := fun h => h mode rfl

namespace Changes

theorem trans (h : Changes a e f) (h' : Changes a f g) : Changes a e g := by
  cases h with
  | same => exact h'
  | lost he =>
    cases h' with
    | same => exact .lost he
    | lost => exact .lost he
    | made mode hm => exact .made mode hm (.inr he)
    | written mode data hw => exact .written mode data hw (.inr he)
  | made m hm he =>
    have hno : NoDirectory e ∨ a.Loses e := he.imp_left fun h => by rw [h]; exact noDirectory_none
    cases h' with
    | same => exact .made m hm he
    | lost =>
      rcases he with rfl | he
      · exact .same
      · exact .lost he
    | made mode => exact .made mode hm he
    | written mode data hw => exact .written mode data hw hno
  | written m d hw hd =>
    have hloses : a.Loses (some (.file m d)) → a.Loses e := by
      rintro (h | h)
      · exact .inl h
      · exact hd.elim (fun hd => .inr ⟨h.1, hd⟩) id
    cases h' with
    | same => exact .written m d hw hd
    | lost h => exact .lost (hloses h)
    | made mode hm h => exact .made mode hm (.inr (hloses (h.resolve_left (by simp))))
    | written mode data hw => exact .written mode data hw hd

/-- One leave allows all that another one does. -/
theorem mono (h : Changes a e f) (hm : a.makes → b.makes) (he : a.empties → b.empties)
    (hd : a.drops → b.drops) (hw : ∀ data, a.writes data → b.writes data) : Changes b e f := by
  have hl : ∀ e, a.Loses e → b.Loses e := fun e h => h.imp he (And.imp_left hd)
  cases h with
  | same => exact .same
  | lost h => exact .lost (hl _ h)
  | made mode h h' => exact .made mode (hm h) (h'.imp_right (hl _))
  | written mode data h hno => exact .written mode data (hw data h) (hno.imp_right (hl _))

/-- No link comes up. -/
theorem link {target : RawPath} (h : Changes a e (some (.link target))) : e = some (.link target) := by
  cases h with
  | same => rfl

/-- A directory stays, unless its place is emptied. -/
theorem directory {mode : Nat} (h : Changes a (some (.directory mode)) f) (he : ¬ a.empties) :
    f = some (.directory mode) := by
  have hl : ¬ a.Loses (some (.directory mode)) := by
    rintro (h | h)
    · exact he h
    · exact not_noDirectory mode h.2
  cases h with
  | same => rfl
  | lost h => exact absurd h hl
  | made m _ h => exact absurd (h.resolve_left (by simp)) hl
  | written m d _ h => exact absurd (h.resolve_left (not_noDirectory mode)) hl

/-- Where nothing may happen nothing does. -/
theorem eq_of_forbidden (h : Changes a e f) (hm : ¬ a.makes) (hl : ∀ e, ¬ a.Loses e) (hw : ∀ data, ¬ a.writes data) :
    f = e := by
  cases h with
  | same => rfl
  | lost h => exact absurd h (hl e)
  | made _ h => exact absurd h hm
  | written _ data h => exact absurd h (hw data)

/-- What is no directory is neither lost nor made where nothing may be lost or written. -/
theorem eq_of_entry {x : Entry} (hx : x.isDirectory = false) (h : Changes a e f) (hl : ∀ e, ¬ a.Loses e)
    (hw : ∀ data, ¬ a.writes data) (hf : e = some x ∨ f = some x) : f = e := by
  cases h with
  | same => rfl
  | lost h => exact absurd h (hl _)
  | made m _ h =>
    have he := h.resolve_right (hl _)
    simp only [he, reduceCtorEq, Option.some.injEq, false_or] at hf
    rw [← hf] at hx
    simp [Entry.isDirectory] at hx
  | written m d h => exact absurd h (hw d)

end Changes

end Entry

namespace FileTree

/-- Whatever is in the tree lies in a directory. -/
def Rooted (t : FileTree) : Prop :=
  ∀ l n, t.entry? (l ++ [n]) ≠ none → ∃ mode, t.entry? l = some (.directory mode)

namespace Rooted

variable {t : FileTree} {l : Location}

theorem empty : FileTree.empty.Rooted := by
  intro l n h
  rw [entry?_eq_get? _ (by simp)] at h
  exact absurd (SortedMap.get?_empty _) h

theorem dropLast (h : t.Rooted) (hl : t.entry? l ≠ none) :
    ∃ mode, t.entry? l.dropLast = some (.directory mode) := by
  rcases List.eq_nil_or_concat l with rfl | ⟨outer, n, rfl⟩
  · exact ⟨_, t.entry?_root⟩
  · rw [List.concat_eq_append] at hl ⊢
    rw [List.dropLast_concat]
    exact h outer n hl

/-- Above anything there are directories. -/
theorem of_prefix (h : t.Rooted) : ∀ {p r : Location}, r ≠ [] → t.entry? (p ++ r) ≠ none →
    ∃ mode, t.entry? p = some (.directory mode)
  | _, [], hr, _ => absurd rfl hr
  | p, [n], _, hl => h p n hl
  | p, n :: m :: r, _, hl => by
    obtain ⟨mode, hd⟩ := h.of_prefix (p := p ++ [n]) (r := m :: r) (by simp) (by simpa using hl)
    exact h p n (by rw [hd]; simp)

theorem ne_none_of_append (h : t.Rooted) {p r : Location} (hl : t.entry? (p ++ r) ≠ none) : t.entry? p ≠ none := by
  cases r with
  | nil => simpa using hl
  | cons n r =>
    obtain ⟨mode, hd⟩ := h.of_prefix (List.cons_ne_nil n r) hl
    simp [hd]

/-- A tree stays rooted when an entry is put in a directory, if it takes no directory's place. -/
theorem put (h : t.Rooted) (hl : ∃ mode, t.entry? l.dropLast = some (.directory mode)) {e : Entry}
    (he : Entry.NoDirectory (t.entry? l) ∨ ∃ mode, e = .directory mode) : (t.put l e).Rooted := by
  intro outer n hn
  have hdirectory : ∃ mode, t.entry? outer = some (.directory mode) := by
    by_cases heq : outer ++ [n] = l
    · rw [← heq, List.dropLast_concat] at hl
      exact hl
    · rw [t.entry?_put_of_ne heq] at hn
      exact h outer n hn
  obtain ⟨mode, hd⟩ := hdirectory
  by_cases heq : outer = l
  · subst heq
    by_cases hnil : outer = []
    · subst hnil
      exact ⟨_, (FileTree.put t [] e).entry?_root⟩
    · rw [t.entry?_put_self hnil]
      rcases he with he | ⟨mode', rfl⟩
      · exact absurd hd (he mode)
      · exact ⟨mode', rfl⟩
  · rw [t.entry?_put_of_ne heq]
    exact ⟨mode, hd⟩

theorem erase (h : t.Rooted) (hl : Entry.NoDirectory (t.entry? l)) : (t.erase l).Rooted := by
  intro outer n hn
  have hne : outer ++ [n] ≠ l := by
    rintro rfl
    exact hn (t.entry?_erase_self (by simp))
  rw [t.entry?_erase_of_ne hne] at hn
  obtain ⟨mode, hd⟩ := h outer n hn
  have houter : outer ≠ l := by
    rintro rfl
    exact hl mode hd
  exact ⟨mode, by rw [t.entry?_erase_of_ne houter, hd]⟩

theorem eraseBelow (h : t.Rooted) : (t.eraseBelow l).Rooted := by
  intro outer n hn
  have hne : ¬ l <+: outer ++ [n] := fun hp => hn (t.entry?_eraseBelow_of_prefix hp (by simp))
  rw [t.entry?_eraseBelow_of_not_prefix hne] at hn
  obtain ⟨mode, hd⟩ := h outer n hn
  have houter : ¬ l <+: outer := fun hp => hne (hp.trans (List.prefix_append ..))
  exact ⟨mode, by rw [t.entry?_eraseBelow_of_not_prefix houter, hd]⟩

end Rooted

end FileTree

/-- A tree comes out of another one by steps that keep to a leave for each place. -/
def FileTree.Evolves (a : Location → Entry.Leave) (t t' : FileTree) : Prop :=
  ∀ l, Entry.Changes (a l) (t.entry? l) (t'.entry? l)

namespace FileTree.Evolves

variable {a : Location → Entry.Leave} {t t' t'' : FileTree}

theorem refl (t : FileTree) : Evolves a t t := fun _ => .same

theorem trans (h : Evolves a t t') (h' : Evolves a t' t'') : Evolves a t t'' :=
  fun l => (h l).trans (h' l)

/-- A directory made where nothing was. -/
theorem put_directory {l : Location} (hm : (a l).makes) (h : t.entry? l = none) (mode : Nat) :
    Evolves a t (t.put l (.directory mode)) := by
  intro l'
  by_cases hl : l' = l
  · subst hl
    have hne : l' ≠ [] := by
      rintro rfl
      simp at h
    rw [t.entry?_put_self hne, h]
    exact .made _ hm (.inl rfl)
  · rw [t.entry?_put_of_ne hl]
    exact .same

/-- A file written where no directory is. -/
theorem put_file {l : Location} {data : ByteArray} (hw : (a l).writes data) (mode : Nat)
    (h : Entry.NoDirectory (t.entry? l)) : Evolves a t (t.put l (.file mode data)) := by
  intro l'
  by_cases hl : l' = l
  · subst hl
    have hne : l' ≠ [] := by
      rintro rfl
      exact h _ t.entry?_root
    rw [t.entry?_put_self hne]
    exact .written _ _ hw (.inl h)
  · rw [t.entry?_put_of_ne hl]
    exact .same

theorem erase {l : Location} (hl : (a l).Loses (t.entry? l)) : Evolves a t (t.erase l) := by
  intro l'
  by_cases h : l' = l
  · subst h
    by_cases hne : l' = []
    · subst hne
      exact .same
    · rw [t.entry?_erase_self hne]
      exact .lost hl
  · rw [t.entry?_erase_of_ne h]
    exact .same

theorem eraseBelow {l : Location} (he : ∀ l', l <+: l' → (a l').empties) :
    Evolves a t (t.eraseBelow l) := by
  intro l'
  by_cases hl : l <+: l'
  · by_cases h : l' = []
    · subst h
      exact .same
    · rw [t.entry?_eraseBelow_of_prefix hl h]
      exact .lost (.inl (he l' hl))
  · rw [t.entry?_eraseBelow_of_not_prefix hl]
    exact .same

end FileTree.Evolves

end ImageRecipe
