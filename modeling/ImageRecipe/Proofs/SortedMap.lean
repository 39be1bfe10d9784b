import ImageRecipe.Sorted.Map
import ImageRecipe.Sorted.Set

/-! Sorted sets are told by their elements. Reading a sorted map after a write, and after entries were taken out of it
by their keys. -/

namespace ImageRecipe

/-- Lists that ascend and have the same elements are equal. -/
theorem eq_of_pairwise_of_mem_iff {α : Type} {r : α → α → Prop} (hr : ∀ {a b}, r a b → ¬ r b a)
    {l l' : List α} (hl : l.Pairwise r) (hl' : l'.Pairwise r) (h : ∀ a, a ∈ l ↔ a ∈ l') : l = l' := by
  have hne : ∀ {a b}, r a b → a ≠ b := by
    rintro a _ hab rfl
    exact hr hab hab
  have hperm : l.Perm l' := (List.perm_ext_iff_of_nodup (hl.imp hne) (hl'.imp hne)).2 h
  exact hperm.eq_of_pairwise (fun _ _ _ _ hab hba => absurd hba (hr hab)) hl hl'

/-- Sets with the same elements are equal. -/
theorem SortedSet.eq_of_mem_iff {α : Type} [LT α] [StrictOrder α] {s t : SortedSet α} (h : ∀ a, a ∈ s ↔ a ∈ t) :
    s = t :=
  ext (eq_of_pairwise_of_mem_iff (fun hab hba => StrictOrder.irrefl _ (StrictOrder.trans hab hba)) s.ascending
    t.ascending h)

theorem SortedSet.ofList_toList {α : Type} [LT α] [DecidableLT α] [DecidableEq α] [StrictOrder α] (s : SortedSet α) :
    ofList s.toList = s :=
  eq_of_mem_iff fun _ => by rw [mem_ofList, mem_def]

namespace SortedMap

variable {κ ν : Type} [LT κ] [BEq κ]

@[simp] theorem get?_empty (k : κ) : (empty : SortedMap κ ν).get? k = none := rfl

variable [LawfulBEq κ]

omit [LT κ] in
private theorem lookup_filter_key (p : κ → Bool) (k : κ) (l : List (κ × ν)) :
    (l.filter fun e => p e.1).lookup k = if p k then l.lookup k else none := by
  induction l with
  | nil => simp
  | cons e r ih =>
    obtain ⟨x, v⟩ := e
    by_cases hk : k = x
    · subst hk
      cases hp : p k <;> simp [hp, ih]
    · have hb : (k == x) = false := by simpa using hk
      cases hp : p x <;> simp [hp, ih, List.lookup_cons, hb]

/-- A map from which entries were taken out by their keys. -/
theorem get?_filter (m : SortedMap κ ν) (p : κ → Bool) (k : κ)
    (h : (m.entries.filter fun e => p e.1).Pairwise fun a b => a.1 < b.1) :
    (⟨m.entries.filter fun e => p e.1, h⟩ : SortedMap κ ν).get? k = if p k then m.get? k else none :=
  lookup_filter_key p k m.entries

/-- A map holds an entry just when the entry's value is found at its key. -/
theorem mem_entries_iff [StrictOrder κ] {m : SortedMap κ ν} {k : κ} {v : ν} :
    (k, v) ∈ m.entries ↔ m.get? k = some v := by
  unfold get?
  rw [List.lookup_eq_some_iff]
  constructor
  · intro h
    obtain ⟨l, r, hm⟩ := List.append_of_mem h
    refine ⟨l, r, hm, fun e he => ?_⟩
    have hlt : e.1 < k := by
      have := m.ascending
      rw [hm, List.pairwise_append] at this
      exact this.2.2 e he (k, v) List.mem_cons_self
    have hne : k ≠ e.1 := fun heq => StrictOrder.irrefl k (heq ▸ hlt)
    simpa using hne
  · rintro ⟨l, r, hm, -⟩
    simp [hm]

theorem mem_values_iff [StrictOrder κ] {m : SortedMap κ ν} {v : ν} : v ∈ m.values ↔ ∃ k, m.get? k = some v := by
  simp only [values, List.mem_map, Prod.exists, mem_entries_iff, exists_eq_right]

/-- Maps with the same value at every key are equal. -/
theorem ext_get? [StrictOrder κ] {m n : SortedMap κ ν} (h : ∀ k, m.get? k = n.get? k) : m = n := by
  have hasymm : ∀ {e f : κ × ν}, e.1 < f.1 → ¬ f.1 < e.1 := fun hef hfe =>
    StrictOrder.irrefl _ (StrictOrder.trans hef hfe)
  refine ext (eq_of_pairwise_of_mem_iff hasymm m.ascending n.ascending ?_)
  rintro ⟨k, v⟩
  rw [mem_entries_iff, mem_entries_iff, h]

@[simp] theorem get?_erase [DecidableEq κ] (m : SortedMap κ ν) (k k' : κ) :
    (m.erase k).get? k' = if k' = k then none else m.get? k' := by
  unfold erase
  rw [get?_filter m (fun x => decide (x ≠ k))]
  by_cases h : k' = k <;> simp [h]

variable [DecidableLT κ] [StrictOrder κ]

private theorem lookup_place [DecidableEq κ] (k k' : κ) (v : ν) (l : List (κ × ν)) :
    (place k v l).lookup k' = if k' = k then some v else l.lookup k' := by
  induction l with
  | nil =>
    by_cases h : k' = k
    · simp [place, h]
    · have hb : (k' == k) = false := by simpa using h
      simp [place, h, List.lookup_cons, hb]
  | cons e r ih =>
    obtain ⟨x, y⟩ := e
    unfold place
    split
    · by_cases h : k' = k
      · simp [h]
      · have hb : (k' == k) = false := by simpa using h
        simp [h, List.lookup_cons, hb]
    · next hkx =>
      split
      · next hxk =>
        have hne : k ≠ x := by
          intro h
          subst h
          exact StrictOrder.irrefl k hxk
        rw [List.lookup_cons, List.lookup_cons, ih]
        by_cases h : k' = k
        · have hb : (k' == x) = false := by simpa [h] using hne
          rw [hb, if_pos h]
        · rw [if_neg h, if_neg h]
      · next hxk =>
        have heq : k = x := StrictOrder.connected hkx hxk
        subst heq
        by_cases h : k' = k
        · simp [h]
        · have hb : (k' == k) = false := by simpa using h
          simp [h, List.lookup_cons, hb]

@[simp] theorem get?_insert [DecidableEq κ] (m : SortedMap κ ν) (k k' : κ) (v : ν) :
    (m.insert k v).get? k' = if k' = k then some v else m.get? k' :=
  lookup_place k k' v m.entries

omit [BEq κ] [LawfulBEq κ] in
private theorem mem_entries_foldl_insert {e : κ × ν} {l : List (κ × ν)} {m : SortedMap κ ν}
    (h : e ∈ (l.foldl (fun m e => m.insert e.1 e.2) m).entries) : e ∈ l ∨ e ∈ m.entries := by
  induction l generalizing m with
  | nil => exact .inr h
  | cons x l ih =>
    rcases ih h with h | h
    · exact .inl (.tail _ h)
    · rcases fst_mem_place h with rfl | h
      · exact .inl List.mem_cons_self
      · exact .inr h

omit [BEq κ] [LawfulBEq κ] in
/-- A map of a list of entries has no entries but those of the list. -/
theorem mem_of_mem_entries_ofList {e : κ × ν} {l : List (κ × ν)} (h : e ∈ (ofList l).entries) : e ∈ l :=
  (mem_entries_foldl_insert h).resolve_right List.not_mem_nil

omit [BEq κ] [LawfulBEq κ] in
private theorem place_of_forall_lt {k : κ} {v : ν} : ∀ {l : List (κ × ν)}, (∀ e ∈ l, e.1 < k) →
    place k v l = l ++ [(k, v)]
  | [], _ => rfl
  | e :: l, h => by
    have he := h e List.mem_cons_self
    have hnot : ¬ k < e.1 := fun hk => StrictOrder.irrefl _ (StrictOrder.trans he hk)
    rw [place, if_neg hnot, if_pos he, place_of_forall_lt fun e he => h e (.tail _ he), List.cons_append]

omit [BEq κ] [LawfulBEq κ] in
private theorem entries_foldl_insert : ∀ {l : List (κ × ν)} {m : SortedMap κ ν},
    (m.entries ++ l).Pairwise (fun a b => a.1 < b.1) →
    (l.foldl (fun m e => m.insert e.1 e.2) m).entries = m.entries ++ l
  | [], m, _ => by rw [List.append_nil, List.foldl_nil]
  | e :: l, m, h => by
    have hlast : ∀ x ∈ m.entries, x.1 < e.1 := fun x hx =>
      (List.pairwise_append.1 h).2.2 x hx e List.mem_cons_self
    have hplace : (m.insert e.1 e.2).entries = m.entries ++ [e] := place_of_forall_lt hlast
    rw [List.foldl_cons, entries_foldl_insert (by rwa [hplace, List.append_assoc, List.singleton_append]), hplace,
      List.append_assoc, List.singleton_append]

omit [BEq κ] [LawfulBEq κ] in
/-- A map comes back from its entries. -/
theorem ofList_entries (m : SortedMap κ ν) : ofList m.entries = m :=
  ext (entries_foldl_insert m.ascending)

end SortedMap

end ImageRecipe
