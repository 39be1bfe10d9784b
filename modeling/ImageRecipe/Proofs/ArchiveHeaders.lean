import Mathlib.Algebra.Group.Nat.Defs
import ImageRecipe.Archive.Header
import ImageRecipe.Proofs.Bytes

/-! Headers of archives: every header is a block of one size, which tells all that is in it but owners that are
too large. -/

namespace ImageRecipe.Archive

/-! Fields. -/

private theorem bytesOfChars_eq (cs : List Char) : bytesOfChars cs = cs.flatMap String.utf8EncodeChar :=
  FileName.ofText_ofList cs

private theorem bytesOfChars_injective {cs cs' : List Char} (h : bytesOfChars cs = bytesOfChars cs') :
    cs = cs' := by
  have := congrArg String.toList (FileName.ofText_injective h)
  simpa using this

@[simp] theorem length_zeros (n : Nat) : (zeros n).length = n := List.length_replicate

@[simp] theorem length_fit (width : Nat) (bs : List UInt8) : (fit width bs).length = width := by
  unfold fit
  rw [List.length_take, List.length_append, length_zeros]
  omega

/-- Digits take one byte each. -/
theorem bytesOfChars_digits {cs : List Char} (h : ∀ c ∈ cs, c.isDigit = true) :
    bytesOfChars cs = cs.map fun c => c.val.toUInt8 := by
  rw [bytesOfChars_eq]
  induction cs with
  | nil => rfl
  | cons c cs ih =>
    have hc : c.utf8Size = 1 := by
      have hdigit := h c (by simp)
      simp only [Char.isDigit, Bool.and_eq_true, decide_eq_true_eq] at hdigit
      unfold Char.utf8Size
      rw [if_pos (UInt32.le_trans hdigit.2 (by decide))]
    rw [List.flatMap_cons, String.utf8EncodeChar_eq_singleton hc, ih fun d hd => h d (by simp [hd])]
    rfl

theorem isDigit_padZeros {width n : Nat} :
    ∀ c ∈ Text.padZeros width (Text.octal n), c.isDigit = true := by
  intro c hc
  unfold Text.padZeros at hc
  rcases List.mem_append.1 hc with hc | hc
  · rw [(List.mem_replicate.1 hc).2]
    decide
  · exact Nat.isDigit_of_mem_toDigits (by decide) (by decide) hc

theorem length_octalField (width n : Nat) : (octalField (width + 1) n).length = width + 1 := by
  unfold octalField
  simp only [Nat.add_sub_cancel]
  rw [List.length_append, bytesOfChars_digits fun c hc => isDigit_padZeros c (List.mem_of_mem_drop hc)]
  unfold Text.padZeros
  simp only [List.length_map, List.length_drop, List.length_append, List.length_replicate, List.length_singleton]
  omega

theorem length_binaryField (width n : Nat) : (binaryField (width + 8) n).length = width + 8 := by
  unfold binaryField
  have hl : (zeros (width + 8 - 8) ++
      (List.range 8).reverse.map fun k => UInt8.ofNat (n / Nat.pow 256 k)).length = width + 8 := by
    simp
  split
  · next h =>
    rw [h] at hl
    exact hl
  · next h =>
    rw [h] at hl
    exact hl

@[simp] theorem length_ownerField (n : Nat) : (ownerField n).length = 8 := by
  unfold ownerField
  split
  · exact length_octalField 7 n
  · exact length_binaryField 0 n

@[simp] theorem length_sizeField (n : Nat) : (sizeField n).length = 12 := by
  unfold sizeField
  split
  · exact length_octalField 11 n
  · exact length_binaryField 4 n

/-- Digits that all have room are what a field of octal digits holds. -/
theorem octalField_of_lt {width n : Nat} (hw : 0 < width) (hn : n < 8 ^ width) :
    octalField (width + 1) n = bytesOfChars (Text.padZeros width (Text.octal n)) ++ [0] := by
  have hlength := (Nat.length_toDigits_le_iff (b := 8) (by decide) hw).2 hn
  have hdrop : (Text.padZeros width (Text.octal n)).length - width = 0 := by
    unfold Text.padZeros Text.octal
    rw [List.length_append, List.length_replicate]
    omega
  unfold octalField
  simp only [Nat.add_sub_cancel, hdrop, List.drop_zero]

theorem ofDigitChars_padZeros (width n : Nat) : Nat.ofDigitChars 8 (Text.padZeros width (Text.octal n)) 0 = n := by
  unfold Text.padZeros Text.octal
  rw [Nat.ofDigitChars_append, Nat.ofDigitChars_replicate_zero, Nat.mul_zero,
    Nat.ofDigitChars_toDigits (by decide) (by decide)]

/-- A number in octal digits that all have room is told by them. -/
theorem octalField_injective {width n m : Nat} (hw : 0 < width) (hn : n < 8 ^ width) (hm : m < 8 ^ width)
    (h : octalField (width + 1) n = octalField (width + 1) m) : n = m := by
  rw [octalField_of_lt hw hn, octalField_of_lt hw hm] at h
  have hdigits := bytesOfChars_injective (List.append_cancel_right h)
  rw [← ofDigitChars_padZeros width n, hdigits, ofDigitChars_padZeros]

theorem binaryField_size (n : Nat) : binaryField 12 n = 0x80 :: 0 :: 0 :: 0 ::
    [7, 6, 5, 4, 3, 2, 1, 0].map fun k => UInt8.ofNat (n / Nat.pow 256 k) := rfl

private theorem binaryField_injective {n m : Nat} (hn : n < Text.limit64) (hm : m < Text.limit64)
    (h : binaryField 12 n = binaryField 12 m) : n = m := by
  rw [binaryField_size, binaryField_size] at h
  have hbyte : ∀ k < 8, n / 256 ^ k % 256 = m / 256 ^ k % 256 := by
    intro k hk
    have hmap : ∀ k ∈ [7, 6, 5, 4, 3, 2, 1, 0],
        UInt8.ofNat (n / Nat.pow 256 k) = UInt8.ofNat (m / Nat.pow 256 k) := by
      simpa only [List.cons.injEq, true_and, List.map_inj_left] using h
    have := hmap k (by simp only [List.mem_cons, List.not_mem_nil]; omega)
    simpa [UInt8.toNat_ofNat'] using congrArg UInt8.toNat this
  -- the leading digits agree, the more of them the further down
  have hlead : ∀ k ≤ 8, n / 256 ^ (8 - k) = m / 256 ^ (8 - k) := by
    intro k
    induction k with
    | zero =>
      intro _
      have hpow : Text.limit64 = 256 ^ (8 - 0) := by decide
      rw [← hpow, Nat.div_eq_of_lt hn, Nat.div_eq_of_lt hm]
    | succ k ih =>
      intro hk
      have hup : ∀ x, x / 256 ^ (8 - (k + 1)) / 256 = x / 256 ^ (8 - k) := by
        intro x
        rw [Nat.div_div_eq_div_mul, ← Nat.pow_succ, show (8 - (k + 1)).succ = 8 - k by omega]
      rw [← Nat.div_add_mod (n / 256 ^ (8 - (k + 1))) 256, ← Nat.div_add_mod (m / 256 ^ (8 - (k + 1))) 256,
        hup, hup, ih (by omega), hbyte _ (by omega)]
  simpa using hlead 8 (by omega)

/-- A size of 64 bits is told by its field. -/
theorem sizeField_injective {n m : Nat} (hn : n < Text.limit64) (hm : m < Text.limit64)
    (h : sizeField n = sizeField m) : n = m := by
  -- the first byte of the one is a digit, that of the other is none
  have hne : ∀ a b, octalField 12 a ≠ binaryField 12 b := by
    intro a b h
    have hmem : (0x80 : UInt8) ∈ octalField 12 a := by
      rw [h, binaryField_size]
      exact List.mem_cons_self
    unfold octalField at hmem
    dsimp only at hmem
    rw [bytesOfChars_digits fun c hc => isDigit_padZeros c (List.mem_of_mem_drop hc)] at hmem
    rcases List.mem_append.1 hmem with hmem | hmem
    · obtain ⟨c, hc, hbyte⟩ := List.mem_map.1 hmem
      have hdigit := isDigit_padZeros c (List.mem_of_mem_drop hc)
      simp only [Char.isDigit, Bool.and_eq_true, decide_eq_true_eq, UInt32.le_iff_toNat_le] at hdigit
      have := congrArg UInt8.toNat hbyte
      simp only [UInt32.toNat_toUInt8, UInt8.reduceToNat] at this
      have := hdigit.2
      simp only [Char.reduceVal, UInt32.reduceToNat] at this
      omega
    · exact absurd hmem (by decide)
  unfold sizeField at h
  split at h
  · split at h
    · exact octalField_injective (show 0 < 11 by decide) (by omega) (by omega) h
    · exact absurd h (hne n m)
  · split at h
    · exact absurd h.symm (hne m n)
    · exact binaryField_injective hn hm h

namespace Header

/-- The fields of a header around a checksum. -/
def fields (h : Header) (checksum : List UInt8) : List (List UInt8) :=
  [fit nameSize h.name, octalField 8 h.mode, ownerField h.uid, ownerField h.gid, sizeField h.size,
    octalField 12 0, checksum, [h.code], fit nameSize h.target, bytesOfText "ustar  ", [0],
    fit ownerNameSize h.user, fit ownerNameSize h.group, zeros 183]

theorem blockWith_eq_flatten (h : Header) (checksum : List UInt8) :
    h.blockWith checksum = (h.fields checksum).flatten := by
  simp [blockWith, fields]

theorem map_length_fields (h : Header) {checksum : List UInt8} (hc : checksum.length = 8) :
    (h.fields checksum).map List.length = [100, 8, 8, 8, 12, 12, 8, 1, 100, 7, 1, 32, 32, 183] := by
  have hmagic : (bytesOfText "ustar  ").length = 7 := by decide +kernel
  simp only [fields, List.map_cons, List.map_nil, length_fit, length_octalField, length_ownerField,
    length_sizeField, length_zeros, hc, hmagic]
  rfl

theorem length_block (h : Header) : h.block.length = blockSize := by
  unfold block
  rw [blockWith_eq_flatten, List.length_flatten, map_length_fields _ (length_octalField 7 _)]
  rfl

/-- Two headers are alike up to their owners. -/
structure Alike (h h' : Header) : Prop where
  name : fit nameSize h.name = fit nameSize h'.name
  mode : octalField 8 h.mode = octalField 8 h'.mode
  size : sizeField h.size = sizeField h'.size
  code : h.code = h'.code
  target : fit nameSize h.target = fit nameSize h'.target

/-- Headers with one block are alike. -/
theorem alike_of_block {h h' : Header} (heq : h.block = h'.block) : h.Alike h' := by
  unfold block at heq
  rw [h.blockWith_eq_flatten, h'.blockWith_eq_flatten] at heq
  have hfields := List.eq_iff_flatten_eq.2 ⟨heq, by
    rw [h.map_length_fields (length_octalField 7 _), h'.map_length_fields (length_octalField 7 _)]⟩
  simp only [fields, List.cons.injEq] at hfields
  obtain ⟨hname, hmode, -, -, hsize, -, -, hcode, htarget, -⟩ := hfields
  exact ⟨hname, hmode, hsize, hcode.1, htarget⟩

/-- A header with other owners. -/
def withOwner (h : Header) (uid gid : Nat) (user group : List UInt8) : Header :=
  { h with uid, gid, user, group }

/-- Headers that are alike have one block once they have the same owners. -/
theorem Alike.block_withOwner {h h' : Header} (ha : h.Alike h') (uid gid : Nat) (user group : List UInt8) :
    (h.withOwner uid gid user group).block = (h'.withOwner uid gid user group).block := by
  have hwith : ∀ checksum, (h.withOwner uid gid user group).blockWith checksum =
      (h'.withOwner uid gid user group).blockWith checksum := by
    intro checksum
    unfold blockWith withOwner
    simp only [ha.name, ha.mode, ha.size, ha.code, ha.target]
  unfold block
  rw [hwith, hwith]

theorem block_ne_zeros (h : Header) : h.block ≠ zeros blockSize := by
  intro heq
  have hu : (0x75 : UInt8) ∈ bytesOfText "ustar  " := by decide +kernel
  have hmem : (0x75 : UInt8) ∈ h.block := by
    unfold block
    rw [blockWith_eq_flatten]
    exact List.mem_flatten_of_mem (by simp [fields]) hu
  rw [heq] at hmem
  exact absurd (List.mem_replicate.1 hmem).2 (by decide)

/-- The bytes of a header and of the data behind it. -/
def withData (h : Header) (data : List UInt8) : List UInt8 := h.block ++ padded data

/-- Where a header tells the size of its data, it is seen where the data end. -/
theorem withData_append_inj {h h' : Header} {data data' r r' : List UInt8} (hs : h.size = data.length)
    (hs' : h'.size = data'.length) (hd : data.length < Text.limit64) (hd' : data'.length < Text.limit64)
    (heq : h.withData data ++ r = h'.withData data' ++ r') :
    h.block = h'.block ∧ data = data' ∧ r = r' := by
  unfold withData at heq
  rw [List.append_assoc, List.append_assoc] at heq
  obtain ⟨hblock, hrest⟩ := List.append_inj heq (by rw [length_block, length_block])
  have hlength : data.length = data'.length := by
    have := (alike_of_block hblock).size
    rw [hs, hs'] at this
    exact sizeField_injective hd hd' this
  unfold padded at hrest
  rw [List.append_assoc, List.append_assoc, hlength] at hrest
  obtain ⟨hdata, hrest⟩ := List.append_inj hrest hlength
  exact ⟨hblock, hdata, List.append_cancel_left hrest⟩

end Header

end ImageRecipe.Archive
