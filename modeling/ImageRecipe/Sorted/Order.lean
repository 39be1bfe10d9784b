/-! Strict orders in which any two different elements compare, the ground of sorted sets and maps. -/

namespace ImageRecipe

/-- A strict order in which two elements that do not compare are equal. -/
class StrictOrder (α : Type) [LT α] : Prop where
  irrefl : ∀ a : α, ¬ a < a
  trans : ∀ {a b c : α}, a < b → b < c → a < c
  connected : ∀ {a b : α}, ¬ a < b → ¬ b < a → a = b

instance : StrictOrder Nat where
  irrefl := Nat.lt_irrefl
  trans := Nat.lt_trans
  connected := fun hab hba => Nat.le_antisymm (Nat.not_lt.1 hba) (Nat.not_lt.1 hab)

/-- Texts are ordered character by character, which is also the order of their UTF-8 bytes. -/
instance : StrictOrder String where
  irrefl := String.lt_irrefl
  trans := String.lt_trans
  connected := fun hab hba => String.le_antisymm (String.not_lt.1 hba) (String.not_lt.1 hab)

/-- An order pulled back along an injective key. -/
theorem StrictOrder.ofKey {α β : Type} [LT α] [LT β] [StrictOrder β] (key : α → β)
    (injective : ∀ {a b : α}, key a = key b → a = b)
    (lt_iff : ∀ a b : α, a < b ↔ key a < key b) : StrictOrder α where
  irrefl a h := StrictOrder.irrefl (key a) ((lt_iff a a).1 h)
  trans hab hbc := (lt_iff _ _).2 (StrictOrder.trans ((lt_iff _ _).1 hab) ((lt_iff _ _).1 hbc))
  connected hab hba :=
    injective (StrictOrder.connected (fun h => hab ((lt_iff _ _).2 h)) fun h => hba ((lt_iff _ _).2 h))

/-- Lists of texts are ordered by their first difference, a shorter list first. -/
instance : StrictOrder (List String) where
  irrefl := fun a => List.lt_irrefl a
  trans := fun hab hbc => List.lt_trans hab hbc
  connected := fun hab hba => List.le_antisymm (List.not_lt.1 hba) (List.not_lt.1 hab)

/-- Lists of byte strings are ordered in the same way. -/
instance : StrictOrder (List (List UInt8)) where
  irrefl := fun a => List.lt_irrefl a
  trans := fun hab hbc => List.lt_trans hab hbc
  connected := fun hab hba => List.le_antisymm (List.not_lt.1 hba) (List.not_lt.1 hab)

end ImageRecipe
