import Mathlib.Data.List.Basic
import ImageRecipe.Files.Name
import ImageRecipe.Text.Hex

/-! The bytes of texts. -/

namespace ImageRecipe

private theorem toList_loop (b : ByteArray) (i : Nat) (r : List UInt8) :
    ByteArray.toList.loop b i r = r.reverse ++ b.data.toList.drop i := by
  induction h : b.size - i generalizing i r with
  | zero =>
    have hi : b.data.toList.length ≤ i := by
      have : b.data.toList.length = b.size := rfl
      omega
    rw [ByteArray.toList.loop, if_neg (by omega), List.drop_eq_nil_of_le hi, List.append_nil]
  | succ n ih =>
    have hi : i < b.size := by omega
    have hget : b.get! i = b.data.toList.get ⟨i, hi⟩ := by
      simp only [ByteArray.get!, List.get_eq_getElem, Array.getElem_toList]
      exact getElem!_pos b.data i hi
    rw [ByteArray.toList.loop, if_pos hi, ih _ _ (by omega), List.reverse_cons, List.append_assoc,
      List.singleton_append, hget, List.get_eq_getElem, List.getElem_cons_drop]

theorem toList_eq_data (b : ByteArray) : b.toList = b.data.toList := by
  rw [ByteArray.toList, toList_loop, List.reverse_nil, List.nil_append, List.drop_zero]

@[simp] theorem toList_mk (l : List UInt8) : (⟨l.toArray⟩ : ByteArray).toList = l :=
  toList_eq_data _

theorem toList_append (a b : ByteArray) : (a ++ b).toList = a.toList ++ b.toList := by
  rw [toList_eq_data, toList_eq_data, toList_eq_data, ByteArray.data_append, Array.toList_append]

theorem toList_injective {a b : ByteArray} (h : a.toList = b.toList) : a = b := by
  rw [toList_eq_data, toList_eq_data] at h
  exact ByteArray.ext (Array.toList_inj.1 h)

@[simp] theorem length_toList (b : ByteArray) : b.toList.length = b.size := by
  rw [toList_eq_data]
  rfl

theorem Text.ofBytes?_bytes (s : String) : Text.ofBytes? (Text.bytes s) = some s := by
  unfold ofBytes? bytes String.fromUTF8?
  rw [String.toUTF8_eq_toByteArray]
  rw [dif_pos s.isValidUTF8]
  rfl

namespace FileName

@[simp] theorem ofText_empty : ofText "" = [] := by decide +kernel

@[simp] theorem ofText_append (s t : String) : ofText (s ++ t) = ofText s ++ ofText t := by
  unfold ofText Text.bytes
  simp [toList_append]

theorem ofText_injective {s t : String} (h : ofText s = ofText t) : s = t := by
  have hb := toList_injective h
  unfold Text.bytes at hb
  simpa [String.toByteArray_inj] using hb

/-- The bytes of a text are those of its characters in a row. -/
theorem ofText_ofList (cs : List Char) : ofText (String.ofList cs) = cs.flatMap String.utf8EncodeChar := by
  unfold ofText Text.bytes
  rw [String.toUTF8_eq_toByteArray, String.toByteArray_ofList, toList_eq_data]
  simp [List.utf8Encode]

theorem ofText_eq_flatMap (s : String) : ofText s = s.toList.flatMap String.utf8EncodeChar := by
  rw [← ofText_ofList, String.ofList_toList]

/-- A name that spells a text has its bytes. -/
theorem text?_eq_some {n : FileName} {s : String} : text? n = some s ↔ n = ofText s := by
  constructor
  · intro h
    unfold text? Text.ofBytes? String.fromUTF8? at h
    split at h
    · cases h
      unfold ofText Text.bytes
      simp [String.fromUTF8, toList_eq_data]
    · cases h
  · rintro rfl
    unfold text? ofText
    rw [← Text.ofBytes?_bytes s]
    congr 1
    exact toList_injective (by simp)

theorem text_ofText (s : String) : (ofText s).text = s := by
  have h : Text.ofBytes? ⟨(ofText s).toArray⟩ = some s := text?_eq_some.2 rfl
  unfold text Text.ofBytesLossy
  rw [h]

end FileName

/-- A character of one byte is in the bytes of another character only if the two are the same. -/
theorem mem_utf8EncodeChar {c d : Char} (hd : d.toNat < 128)
    (h : UInt8.ofNat d.toNat ∈ String.utf8EncodeChar c) : c = d := by
  suffices hc : c.val.toNat = d.toNat from Char.ext (UInt32.toNat_inj.1 hc)
  have hbyte : ∀ n, UInt8.ofNat d.toNat = UInt8.ofNat n → d.toNat = n % 256 := by
    intro n hn
    have := congrArg UInt8.toNat hn
    rw [UInt8.toNat_ofNat', UInt8.toNat_ofNat'] at this
    omega
  have hhigh : ∀ n, 128 ≤ n % 256 → UInt8.ofNat d.toNat ≠ UInt8.ofNat n := by
    intro n hn heq
    have := hbyte n heq
    omega
  revert h
  fun_cases String.utf8EncodeChar with
  | case1 v hv =>
    intro h
    have := hbyte _ (List.mem_singleton.1 h)
    omega
  | case2 v =>
    intro h
    simp only [List.mem_cons, List.not_mem_nil, or_false] at h
    rcases h with h | h
    · exact absurd h (hhigh _ (by omega))
    · exact absurd h (hhigh _ (by omega))
  | case3 v =>
    intro h
    simp only [List.mem_cons, List.not_mem_nil, or_false] at h
    rcases h with h | h | h
    · exact absurd h (hhigh _ (by omega))
    · exact absurd h (hhigh _ (by omega))
    · exact absurd h (hhigh _ (by omega))
  | case4 v =>
    intro h
    simp only [List.mem_cons, List.not_mem_nil, or_false] at h
    rcases h with h | h | h | h
    · exact absurd h (hhigh _ (by omega))
    · exact absurd h (hhigh _ (by omega))
    · exact absurd h (hhigh _ (by omega))
    · exact absurd h (hhigh _ (by omega))

end ImageRecipe
