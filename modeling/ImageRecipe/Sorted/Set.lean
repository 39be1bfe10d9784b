import ImageRecipe.Sorted.Order

/-! Finite sets kept as strictly ascending lists. Membership after an insertion is the old
membership or the new element, and two sets with the same members are equal. -/

namespace ImageRecipe

/-- A finite set: its elements in strictly ascending order. -/
structure SortedSet (α : Type) [LT α] where
  toList : List α
  ascending : toList.Pairwise (· < ·)

namespace SortedSet

variable {α : Type} [LT α]

@[ext] theorem ext {s t : SortedSet α} (h : s.toList = t.toList) : s = t := by
  cases s; cases t; simpa using h

instance [DecidableEq α] : DecidableEq (SortedSet α) := fun s t =>
  if h : s.toList = t.toList then isTrue (ext h) else isFalse fun e => h (congrArg toList e)

instance : Membership α (SortedSet α) := ⟨fun s a => a ∈ s.toList⟩

theorem mem_def {s : SortedSet α} {a : α} : a ∈ s ↔ a ∈ s.toList := Iff.rfl

instance [DecidableEq α] (a : α) (s : SortedSet α) : Decidable (a ∈ s) :=
  inferInstanceAs (Decidable (a ∈ s.toList))

/-- The set without elements. -/
def empty : SortedSet α := ⟨[], List.Pairwise.nil⟩

instance : EmptyCollection (SortedSet α) := ⟨empty⟩

/-- The number of elements. -/
def size (s : SortedSet α) : Nat := s.toList.length

def isEmpty (s : SortedSet α) : Bool := s.toList.isEmpty

/-- The elements that pass a test. -/
def filter (p : α → Bool) (s : SortedSet α) : SortedSet α :=
  ⟨s.toList.filter p, s.ascending.filter p⟩

@[simp] theorem mem_filter {p : α → Bool} {x : α} {s : SortedSet α} :
    x ∈ s.filter p ↔ x ∈ s ∧ p x = true := by
  simp [mem_def, filter]

@[simp] theorem not_mem_empty {x : α} : ¬ x ∈ (empty : SortedSet α) := by
  simp [mem_def, empty]

variable [DecidableLT α]

/-- Put an element in its place; an element already there stays as it is. -/
def place (a : α) : List α → List α
  | [] => [a]
  | b :: r => if a < b then a :: b :: r else if b < a then b :: place a r else b :: r

variable [StrictOrder α]

theorem mem_place {a x : α} : ∀ {l : List α}, x ∈ place a l ↔ x = a ∨ x ∈ l
  | [] => by simp [place]
  | b :: r => by
    unfold place
    split
    · simp
    · next hab =>
      split
      · simp only [List.mem_cons, mem_place (l := r)]
        constructor
        · rintro (h | h | h) <;> simp [h]
        · rintro (h | h | h) <;> simp [h]
      · next hba =>
        have : a = b := StrictOrder.connected hab hba
        subst this
        simp

theorem pairwise_place {a : α} : ∀ {l : List α}, l.Pairwise (· < ·) → (place a l).Pairwise (· < ·)
  | [], _ => by simp [place]
  | b :: r, h => by
    have hb := fun {x : α} (hx : x ∈ r) => List.rel_of_pairwise_cons h hx
    unfold place
    split
    · next hab =>
      refine List.Pairwise.cons ?_ h
      intro x hx
      rcases List.mem_cons.1 hx with rfl | hx
      · exact hab
      · exact StrictOrder.trans hab (hb hx)
    · split
      · next hba =>
        refine List.Pairwise.cons ?_ (pairwise_place h.of_cons)
        intro x hx
        rcases mem_place.1 hx with rfl | hx
        · exact hba
        · exact hb hx
      · exact h

/-- The set with one more element. -/
def insert (a : α) (s : SortedSet α) : SortedSet α := ⟨place a s.toList, pairwise_place s.ascending⟩

@[simp] theorem mem_insert {a x : α} {s : SortedSet α} : x ∈ s.insert a ↔ x = a ∨ x ∈ s := mem_place

/-- The set of the elements of a list, whatever their order and however often they occur. -/
def ofList (l : List α) : SortedSet α := l.foldl (fun s a => s.insert a) empty

/-- Inserting the elements of a list adds them and keeps the rest. -/
theorem mem_foldl_insert {x : α} :
    ∀ {l : List α} {s : SortedSet α}, x ∈ l.foldl (fun s a => s.insert a) s ↔ x ∈ l ∨ x ∈ s
  | [], s => by simp
  | a :: r, s => by
    rw [List.foldl_cons, mem_foldl_insert, mem_insert, List.mem_cons]
    constructor
    · rintro (h | h | h) <;> simp [h]
    · rintro ((h | h) | h) <;> simp [h]

@[simp] theorem mem_ofList {x : α} {l : List α} : x ∈ ofList l ↔ x ∈ l := by
  simp [ofList, mem_foldl_insert]

end SortedSet

end ImageRecipe
