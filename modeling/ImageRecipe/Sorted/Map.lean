import ImageRecipe.Sorted.Order

/-! Finite maps kept as lists of entries with strictly ascending keys. Reading after a write gives the
written value at its key and the old value at every other key. -/

namespace ImageRecipe

/-- A finite map: its entries in strictly ascending order of their keys. -/
structure SortedMap (κ ν : Type) [LT κ] where
  entries : List (κ × ν)
  ascending : entries.Pairwise fun a b => a.1 < b.1

namespace SortedMap

variable {κ ν : Type} [LT κ]

@[ext] theorem ext {m n : SortedMap κ ν} (h : m.entries = n.entries) : m = n := by
  cases m; cases n; simpa using h

instance [DecidableEq κ] [DecidableEq ν] : DecidableEq (SortedMap κ ν) := fun m n =>
  if h : m.entries = n.entries then isTrue (ext h) else isFalse fun e => h (congrArg entries e)

/-- The map without entries. -/
def empty : SortedMap κ ν := ⟨[], List.Pairwise.nil⟩

instance : EmptyCollection (SortedMap κ ν) := ⟨empty⟩

def size (m : SortedMap κ ν) : Nat := m.entries.length

def keys (m : SortedMap κ ν) : List κ := m.entries.map Prod.fst

def values (m : SortedMap κ ν) : List ν := m.entries.map Prod.snd

/-- The value at a key. -/
def get? [BEq κ] (m : SortedMap κ ν) (k : κ) : Option ν := m.entries.lookup k

/-- The map without a key. -/
def erase [DecidableEq κ] (m : SortedMap κ ν) (k : κ) : SortedMap κ ν :=
  ⟨m.entries.filter fun e => decide (e.1 ≠ k), m.ascending.filter _⟩

variable [DecidableLT κ]

/-- Put an entry in its place; an entry with the same key gives way. -/
def place (k : κ) (v : ν) : List (κ × ν) → List (κ × ν)
  | [] => [(k, v)]
  | e :: r => if k < e.1 then (k, v) :: e :: r else if e.1 < k then e :: place k v r else (k, v) :: r

theorem fst_mem_place {k : κ} {v : ν} {e : κ × ν} :
    ∀ {l : List (κ × ν)}, e ∈ place k v l → e = (k, v) ∨ e ∈ l
  | [], h => by simpa [place] using h
  | f :: r, h => by
    unfold place at h
    split at h
    · simpa using h
    · split at h
      · rcases List.mem_cons.1 h with rfl | h
        · simp
        · rcases fst_mem_place h with h | h <;> simp [h]
      · rcases List.mem_cons.1 h with h | h <;> simp [h]

variable [StrictOrder κ]

theorem pairwise_place {k : κ} {v : ν} : ∀ {l : List (κ × ν)},
    l.Pairwise (fun a b => a.1 < b.1) → (place k v l).Pairwise fun a b => a.1 < b.1
  | [], _ => by simp [place]
  | e :: r, h => by
    have he := fun {x : κ × ν} (hx : x ∈ r) => List.rel_of_pairwise_cons h hx
    unfold place
    split
    · next hk =>
      refine List.Pairwise.cons ?_ h
      intro x hx
      rcases List.mem_cons.1 hx with rfl | hx
      · exact hk
      · exact StrictOrder.trans hk (he hx)
    · next hk =>
      split
      · next hek =>
        refine List.Pairwise.cons ?_ (pairwise_place h.of_cons)
        intro x hx
        rcases fst_mem_place hx with rfl | hx
        · exact hek
        · exact he hx
      · next hek =>
        have : k = e.1 := StrictOrder.connected hk hek
        subst this
        exact List.Pairwise.cons (fun x hx => he hx) h.of_cons

/-- The map with a value written at a key. -/
def insert (m : SortedMap κ ν) (k : κ) (v : ν) : SortedMap κ ν :=
  ⟨place k v m.entries, pairwise_place m.ascending⟩

/-- The map of a list of entries; of two entries with one key the later counts. -/
def ofList (l : List (κ × ν)) : SortedMap κ ν := l.foldl (fun m e => m.insert e.1 e.2) empty

end SortedMap

end ImageRecipe
