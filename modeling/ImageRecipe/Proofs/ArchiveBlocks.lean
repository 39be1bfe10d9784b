import Mathlib.Tactic.Ring
import ImageRecipe.Archive.Reader
import ImageRecipe.Proofs.ArchiveMembers
import ImageRecipe.Proofs.Instants
import ImageRecipe.Proofs.Shelves

/-! Blocks of archives read back: what the fields of a header hold is read from them, the checksum is right, and the
data behind a header end where the header says. -/

namespace ImageRecipe

/-- Only the character of the number zero has a zero byte. -/
theorem FileName.zero_mem_ofText {s : String} (h : 0 ∈ ofText s) : '\x00' ∈ s.toList := by
  rw [ofText_eq_flatMap] at h
  obtain ⟨c, hc, hm⟩ := List.mem_flatMap.1 h
  rw [mem_utf8EncodeChar (d := '\x00') (by decide) hm] at hc
  exact hc

namespace Text

/-- An octal digit. -/
def IsOctal (c : Char) : Prop := '0' ≤ c ∧ c ≤ '7'

theorem IsOctal.isDigit {c : Char} (h : IsOctal c) : isDigit c = true := by
  unfold Text.isDigit
  simp [h.1, Char.le_trans h.2 (show '7' ≤ '9' by decide)]

theorem isOctal_of_mem_octal {n : Nat} : ∀ c ∈ octal n, IsOctal c := by
  have hdigit : ∀ d < 8, IsOctal (Nat.digitChar d) := by
    unfold IsOctal
    decide
  induction n using Nat.strongRecOn with
  | ind n ih =>
    intro c hc
    unfold octal at hc
    rw [Nat.toDigits_eq_if (by decide)] at hc
    split at hc
    · next hn =>
      rw [List.mem_singleton.1 hc]
      exact hdigit n hn
    · rcases List.mem_append.1 hc with hc | hc
      · exact ih (n / 8) (by omega) c hc
      · rw [List.mem_singleton.1 hc]
        exact hdigit _ (Nat.mod_lt _ (by decide))

theorem isOctal_of_mem_padZeros {width n : Nat} : ∀ c ∈ padZeros width (octal n), IsOctal c := by
  intro c hc
  rcases List.mem_append.1 hc with hc | hc
  · rw [(List.mem_replicate.1 hc).2]
    unfold IsOctal
    decide
  · exact isOctal_of_mem_octal c hc

/-- There are no blanks around digits. -/
theorem trim_digits {cs : List Char} (h : ∀ c ∈ cs, isDigit c = true) : trimEnd (trimStart cs) = cs :=
  trim_eq_self fun c hc => not_isBlank_of_isDigit (h c hc)

/-- Octal digits are read as the number that they spell. -/
theorem parseOctal_digits {bound : Nat} {cs : List Char} (hne : cs ≠ []) (h : ∀ c ∈ cs, IsOctal c)
    (hb : Nat.ofDigitChars 8 cs 0 < bound) : parseOctal bound cs = some (Nat.ofDigitChars 8 cs 0) := by
  have hplus : withoutPlus cs = cs := by
    unfold withoutPlus
    split
    · exact absurd (h '+' (by simp)) (by unfold IsOctal; decide)
    · rfl
  have hall : cs.all (fun c => '0' ≤ c && c ≤ '7') = true := by
    rw [List.all_eq_true]
    intro c hc
    simpa [IsOctal] using h c hc
  unfold parseOctal
  dsimp only
  rw [hplus, hall, if_neg (by simpa using hne), if_pos hb]

end Text

namespace Archive

/-! Fields. -/

theorem beforeZero_append {bs : List UInt8} (h : 0 ∉ bs) (r : List UInt8) : beforeZero (bs ++ 0 :: r) = bs := by
  unfold beforeZero
  rw [List.takeWhile_append_of_pos fun b hb => ?_]
  · simp
  · rw [decide_eq_true_eq]
    rintro rfl
    exact h hb

/-- What fits into a field is read from it. -/
theorem beforeZero_fit {width : Nat} {bs : List UInt8} (h : 0 ∉ bs) (hl : bs.length ≤ width) :
    beforeZero (fit width bs) = bs := by
  unfold fit
  rw [List.take_of_length_le (by simp; omega)]
  cases width - bs.length with
  | zero =>
    unfold zeros beforeZero
    rw [List.replicate_zero, List.append_nil, List.takeWhile_eq_self_iff]
    intro b hb
    rw [decide_eq_true_eq]
    rintro rfl
    exact h hb
  | succ n => exact beforeZero_append h _

theorem octalOfField_octalField {width n : Nat} (hw : 0 < width) (hn : n < 8 ^ width) (hb : n < Text.limit64) :
    octalOfField (octalField (width + 1) n) = .ok n := by
  have hvalue := ofDigitChars_padZeros width n
  have hfield := octalField_of_lt hw hn
  have hdigits : ∀ c ∈ Text.padZeros width (Text.octal n), Text.IsOctal c := Text.isOctal_of_mem_padZeros
  have hne : Text.padZeros width (Text.octal n) ≠ [] :=
    List.append_ne_nil_of_right_ne_nil _ Nat.toDigits_ne_nil
  generalize Text.padZeros width (Text.octal n) = cs at hvalue hfield hdigits hne
  have hzero : 0 ∉ bytesOfChars cs := by
    intro hm
    have := hdigits _ (by simpa using FileName.zero_mem_ofText hm)
    exact absurd this (by unfold Text.IsOctal; decide)
  have htext : (FileName.text (bytesOfChars cs)).toList = cs := by
    unfold bytesOfChars bytesOfText
    rw [← FileName.ofText, FileName.text_ofText, String.toList_ofList]
  unfold octalOfField
  rw [hfield, beforeZero_append hzero, htext]
  dsimp only
  rw [Text.trim_digits fun c hc => (hdigits c hc).isDigit, Text.parseOctal_digits hne hdigits (by rwa [hvalue]), hvalue]

/-- The number of bytes that are the digits of a number in base 256. -/
private theorem foldl_bytes (n : Nat) : ∀ k a,
    ((List.range k).reverse.map fun i => UInt8.ofNat (n / Nat.pow 256 i)).foldl (fun v b => 256 * v + b.toNat) a =
      a * 256 ^ k + n % 256 ^ k
  | 0, a => by simp [Nat.mod_one]
  | k + 1, a => by
    rw [List.range_succ, List.reverse_append, List.reverse_singleton, List.singleton_append, List.map_cons,
      List.foldl_cons, foldl_bytes n k, Nat.mod_pow_succ, UInt8.toNat_ofNat']
    simp only [Nat.pow_eq, Nat.reducePow]
    ring

/-- Octal digits are read as such: the first of them has not the first bit of its byte set. -/
theorem numberOfField_octalField {width n : Nat} (hw : 0 < width) (hn : n < 8 ^ width) (hb : n < Text.limit64) :
    numberOfField (octalField (width + 1) n) = .ok n := by
  have hread := octalOfField_octalField hw hn hb
  have hfirst : ∃ b r, octalField (width + 1) n = b :: r ∧ ¬ 0x80 ≤ b := by
    rw [octalField_of_lt hw hn, bytesOfChars_digits isDigit_padZeros]
    have hdigits : ∀ c ∈ Text.padZeros width (Text.octal n), c.isDigit = true := isDigit_padZeros
    have hne : Text.padZeros width (Text.octal n) ≠ [] :=
      List.append_ne_nil_of_right_ne_nil _ Nat.toDigits_ne_nil
    obtain ⟨c, cs, hcs⟩ := List.exists_cons_of_ne_nil hne
    rw [hcs] at hdigits ⊢
    refine ⟨_, _, rfl, ?_⟩
    have hc := hdigits c (by simp)
    simp only [Char.isDigit, Bool.and_eq_true, decide_eq_true_eq, UInt32.le_iff_toNat_le] at hc
    rw [UInt8.le_iff_toNat_le, UInt32.toNat_toUInt8]
    have := hc.2
    simp only [Char.reduceVal, UInt32.reduceToNat, UInt8.reduceToNat] at this ⊢
    omega
  obtain ⟨b, r, hfield, hb⟩ := hfirst
  rw [hfield] at hread ⊢
  unfold numberOfField
  dsimp only
  rw [if_neg hb, hread]

/-- A size of 64 bits is read from its field. -/
theorem numberOfField_sizeField {n : Nat} (hn : n < Text.limit64) : numberOfField (sizeField n) = .ok n := by
  unfold sizeField
  split
  · next hsmall => exact numberOfField_octalField (by decide) (show n < 8 ^ 11 by omega) hn
  · have hdigits := foldl_bytes n 8 0
    rw [binaryField_size]
    change Except.ok (((List.range 8).reverse.map fun i => UInt8.ofNat (n / Nat.pow 256 i)).foldl
      (fun v b => 256 * v + b.toNat) 0 % Text.limit64) = Except.ok n
    rw [hdigits, Nat.zero_mul, Nat.zero_add, show 256 ^ 8 = Text.limit64 from rfl, Nat.mod_mod, Nat.mod_eq_of_lt hn]

/-- The number of an owner is read from its field if it leaves the first bit of the field free. -/
theorem numberOfField_ownerField {n : Nat} (hn : n < 2 ^ 63) : numberOfField (ownerField n) = .ok n := by
  unfold ownerField
  split
  · next hsmall => exact numberOfField_octalField (by decide) (show n < 8 ^ 7 by omega) (hn.trans (by decide))
  · have hlead : n / 256 ^ 7 < 128 := by omega
    have hmark : ∀ x < 128, 0x80 ≤ UInt8.ofNat x ||| 0x80 ∧ (UInt8.ofNat x ||| 0x80).toNat % 128 = x := by decide
    obtain ⟨hmark, hvalue⟩ := hmark _ hlead
    have hfield : binaryField 8 n = (UInt8.ofNat (n / 256 ^ 7) ||| 0x80) ::
        (List.range 7).reverse.map fun i => UInt8.ofNat (n / Nat.pow 256 i) := rfl
    have hdigits : n / 256 ^ 7 * 256 ^ 7 + n % 256 ^ 7 = n := by omega
    have hlimit : 2 ^ 63 < Text.limit64 := by decide
    rw [hfield]
    unfold numberOfField
    dsimp only
    rw [if_pos hmark, foldl_bytes, hvalue, hdigits, Nat.mod_eq_of_lt (hn.trans hlimit)]

/-! Headers. -/

namespace Header

variable (h : Header)

/-- The widths of the fields of a header. -/
def widths : List Nat := [100, 8, 8, 8, 12, 12, 8, 1, 100, 7, 1, 32, 32, 183]

/-- The sum that a header has for its checksum. -/
def checksum : Nat := sum (h.blockWith (List.replicate 8 0x20))

theorem block_eq_flatten : h.block = (h.fields (octalField 8 h.checksum)).flatten := h.blockWith_eq_flatten _

/-- Some fields in a row are found where the fields before them end. -/
theorem slice_fields (i j : Nat) : slice (widths.take i).sum ((widths.drop i).take j).sum h.block =
    (((h.fields (octalField 8 h.checksum)).drop i).take j).flatten := by
  have hwidths := h.map_length_fields (length_octalField 7 h.checksum)
  rw [block_eq_flatten]
  generalize h.fields (octalField 8 h.checksum) = fs at hwidths ⊢
  have hlength : ∀ gs : List (List UInt8), (gs.map List.length).sum = gs.flatten.length :=
    fun gs => (List.length_flatten ..).symm
  have hparts : fs.flatten =
      (fs.take i).flatten ++ (((fs.drop i).take j).flatten ++ ((fs.drop i).drop j).flatten) := by
    rw [← List.flatten_append, List.take_append_drop, ← List.flatten_append, List.take_append_drop]
  rw [show widths = _ from hwidths.symm, ← List.map_take, ← List.map_drop, ← List.map_take, hlength, hlength, hparts]
  unfold slice
  rw [List.drop_left, List.take_left]

theorem slice_name : slice 0 nameSize h.block = fit nameSize h.name := by
  change slice 0 100 h.block = _
  simpa [widths, fields] using h.slice_fields 0 1

theorem slice_mode : slice 100 8 h.block = octalField 8 h.mode := by
  simpa [widths, fields] using h.slice_fields 1 1

theorem slice_uid : slice 108 8 h.block = ownerField h.uid := by
  simpa [widths, fields] using h.slice_fields 2 1

theorem slice_gid : slice 116 8 h.block = ownerField h.gid := by
  simpa [widths, fields] using h.slice_fields 3 1

theorem slice_size : slice 124 12 h.block = sizeField h.size := by
  simpa [widths, fields] using h.slice_fields 4 1

theorem slice_time : slice 136 12 h.block = octalField 12 0 := by
  simpa [widths, fields] using h.slice_fields 5 1

theorem slice_checksum : slice 148 8 h.block = octalField 8 h.checksum := by
  simpa [widths, fields] using h.slice_fields 6 1

theorem slice_target : slice 157 nameSize h.block = fit nameSize h.target := by
  change slice 157 100 h.block = _
  simpa [widths, fields] using h.slice_fields 8 1

theorem slice_magic : slice 257 8 h.block = bytesOfText "ustar  " ++ [0] := by
  simpa [widths, fields] using h.slice_fields 9 2

theorem slice_user : slice 265 ownerNameSize h.block = fit ownerNameSize h.user := by
  change slice 265 32 h.block = _
  simpa [widths, fields] using h.slice_fields 11 1

theorem slice_group : slice 297 ownerNameSize h.block = fit ownerNameSize h.group := by
  change slice 297 32 h.block = _
  simpa [widths, fields] using h.slice_fields 12 1

theorem codeOf_block : codeOf h.block = h.code := by
  have hcode : slice 156 1 h.block = [h.code] := by
    simpa [widths, fields] using h.slice_fields 7 1
  have hget : (slice 156 1 h.block)[0]? = h.block[156]? := by
    unfold slice
    rw [List.getElem?_take_of_lt (by decide), List.getElem?_drop]
  rw [hcode] at hget
  unfold codeOf byteAt
  rw [List.getD_eq_getElem?_getD, ← hget]
  rfl

theorem formatOf?_block : formatOf? h.block = some .gnu := by
  unfold formatOf?
  rw [slice_magic]
  decide +kernel

theorem sum_append (a b : List UInt8) : sum (a ++ b) = sum a + sum b := by
  have hsum : ∀ (bs : List UInt8) n, bs.foldl (fun n b => n + b.toNat) n = n + sum bs := by
    unfold sum
    intro bs
    induction bs with
    | nil => simp
    | cons b bs ih =>
      intro n
      rw [List.foldl_cons, List.foldl_cons, ih, ih (0 + b.toNat)]
      omega
  have hwhole := hsum b (sum a)
  unfold sum at hwhole ⊢
  rw [List.foldl_append, hwhole]

theorem sum_le (bs : List UInt8) : sum bs ≤ 255 * bs.length := by
  induction bs with
  | nil => simp [sum]
  | cons b bs ih =>
    have hb : sum [b] ≤ 255 := by
      have := b.toNat_lt
      unfold sum
      simp only [List.foldl_cons, List.foldl_nil]
      omega
    rw [← List.singleton_append, sum_append, List.length_append, List.length_singleton]
    omega

/-- The checksum of a header is right. -/
theorem checksumHolds_block : checksumHolds h.block = .ok true := by
  have hwith : (h.blockWith (List.replicate 8 0x20)).length = blockSize := by
    rw [blockWith_eq_flatten, List.length_flatten, map_length_fields _ (by simp)]
    rfl
  have hle : h.checksum ≤ 255 * blockSize := hwith ▸ sum_le _
  have hbound : 255 * blockSize < 8 ^ 7 := by decide
  have hlimit : 255 * blockSize < Text.limit32 ∧ 255 * blockSize < Text.limit64 := by decide
  have hbefore : h.block.take 148 = ((h.fields (octalField 8 h.checksum)).take 6).flatten := by
    simpa [widths, slice] using h.slice_fields 0 6
  have hbehind : h.block.drop 156 = ((h.fields (octalField 8 h.checksum)).drop 7).flatten := by
    have hrest := h.slice_fields 7 7
    unfold slice at hrest
    rw [List.take_of_length_le (by rw [List.length_drop, length_block]; decide),
      List.take_of_length_le (l := List.drop 7 (h.fields _)) (by simp [fields])] at hrest
    exact hrest
  have hblanks : sum (List.replicate 8 (0x20 : UInt8)) = 8 * 32 := by decide
  have hsum : h.checksum = sum (h.block.take 148) + sum (h.block.drop 156) + 8 * 32 := by
    have hparts : h.blockWith (List.replicate 8 0x20) =
        h.block.take 148 ++ (List.replicate 8 0x20 ++ h.block.drop 156) := by
      rw [blockWith_eq_flatten, hbefore, hbehind]
      simp [fields]
    have hparts := congrArg sum hparts
    rw [sum_append, sum_append, hblanks] at hparts
    change h.checksum = _ at hparts
    omega
  unfold checksumHolds
  rw [slice_checksum, octalOfField_octalField (show 0 < 7 by decide) (by omega) (by omega)]
  change Except.ok (decide _) = _
  rw [Nat.mod_eq_of_lt (by omega), ← hsum, decide_eq_true rfl]

/-- The first header of bytes that begin with one. -/
theorem firstHeader?_block_append (r : List UInt8) : firstHeader? (h.block ++ r) = .ok (some (h.block, r)) := by
  have hlength := h.length_block
  have hne : (h.block ++ r).isEmpty = false := by
    rw [List.isEmpty_eq_false_iff, ← List.length_pos_iff, List.length_append, hlength]
    exact Nat.lt_add_right _ (by decide)
  have hzero : (h.block.all fun b => b = 0) = false := by
    rw [← Bool.not_eq_true, List.all_eq_true]
    intro hall
    refine h.block_ne_zeros (List.eq_replicate_iff.2 ⟨hlength, fun b hb => ?_⟩)
    simpa using hall b hb
  have htake : (h.block ++ r).take blockSize = h.block := by rw [← hlength, List.take_left]
  have hdrop : (h.block ++ r).drop blockSize = r := by rw [← hlength, List.drop_left]
  unfold firstHeader?
  dsimp only
  rw [hne, htake, hdrop, hzero, checksumHolds_block, hlength]
  rfl

end Header

/-- Two blocks of zeros end an archive. -/
theorem firstHeader?_end : firstHeader? (zeros (2 * blockSize)) = .ok none := by
  decide +kernel

/-- The data behind a header end where their size says. -/
theorem cutData_padded (data r : List UInt8) : cutData data.length (padded data ++ r) = .ok (data, r) := by
  have hlength : (padded data).length = data.length + (blockSize - data.length % blockSize) % blockSize := by
    unfold padded
    rw [List.length_append, length_zeros]
  unfold cutData
  simp only [← hlength, List.take_left, List.drop_left, lt_self_iff_false, if_false]
  change Except.ok ((padded data).take data.length, r) = _
  unfold padded
  rw [List.take_left]

/-- The data of a header that is neither that of a file with holes nor told a size by others. -/
theorem memberData_withData {p : Pending} (hp : p.attributes = none) {h : Header} {data : List UInt8}
    (hs : h.size = data.length) (hl : data.length < Text.limit64) (hc : h.code ≠ sparseCode) (r : List UInt8) :
    memberData p h.block (padded data ++ r) = .ok (data, r) := by
  have hsize : p.size? = none := by
    unfold Pending.size?
    rw [hp]
    rfl
  unfold memberData
  rw [hsize, h.slice_size, hs, numberOfField_sizeField hl, h.codeOf_block]
  simp only [bind, Except.bind, Option.getD_none, if_neg hc]
  exact cutData_padded data r

end Archive
end ImageRecipe
