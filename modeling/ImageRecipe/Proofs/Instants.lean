import Mathlib.Data.List.TakeWhile
import ImageRecipe.Time.Reader
import ImageRecipe.Proofs.JsonTokens

/-! Instants and their texts: what is read from the text of an instant is that instant, and no other instants
are read than those whose texts are read back. -/

namespace ImageRecipe

namespace Text

/-- A number filled up with zeros to a width. -/
def padded (width n : Nat) : List Char := padZeros width (digits n)

variable {width n : Nat} {c : Char}

theorem isDigit_of_mem_padded (h : c ∈ padded width n) : isDigit c = true := by
  unfold padded padZeros at h
  rcases List.mem_append.1 h with h | h
  · rw [List.eq_of_mem_replicate h]
    decide
  · exact Json.isDigit_of_mem_digits h

theorem ofDigits_padded : ofDigits (padded width n) = n := by
  unfold ofDigits padded padZeros digits
  rw [Nat.ofDigitChars_append, Nat.ofDigitChars_replicate_zero, Nat.mul_zero,
    Nat.ofDigitChars_toDigits (by decide) (by decide)]

theorem length_padded (hw : 0 < width) (hn : n < Nat.pow 10 width) : (padded width n).length = width := by
  have := (Nat.length_toDigits_le_iff (b := 10) (by decide) hw).2 hn
  unfold padded padZeros digits
  rw [List.length_append, List.length_replicate]
  omega

theorem padded_ne_nil : padded width n ≠ [] := by
  unfold padded padZeros
  exact List.append_ne_nil_of_right_ne_nil _ Nat.toDigits_ne_nil

theorem not_isBlank_of_isDigit (h : isDigit c = true) : isBlank c = false := by
  have hc : 48 ≤ c.toNat ∧ c.toNat ≤ 57 := by
    simpa [isDigit, Char.le_def, UInt32.le_iff_toNat_le] using h
  simp only [isBlank, Bool.or_eq_false_iff, Bool.and_eq_false_iff, decide_eq_false_iff_not, beq_eq_false_iff_ne]
  omega

theorem trimStart_cons (h : isBlank c = false) (r : List Char) : trimStart (c :: r) = c :: r := by
  unfold trimStart
  rw [List.dropWhile_cons_of_neg (by simp [h])]

/-- Nothing is trimmed where there is no blank. -/
theorem trim_eq_self {cs : List Char} (h : ∀ c ∈ cs, isBlank c = false) : trimEnd (trimStart cs) = cs := by
  have hdrop : ∀ {ds : List Char}, (∀ c ∈ ds, isBlank c = false) → ds.dropWhile isBlank = ds := by
    intro ds hds
    rw [List.dropWhile_eq_self_iff]
    intro hl
    simp [hds _ (List.getElem_mem hl)]
  unfold trimEnd trimStart
  rw [hdrop h, hdrop (by simpa using h), List.reverse_reverse]

/-- There are no blanks in front of digits. -/
theorem trimStart_digits {ds : List Char} (hne : ds ≠ []) (hd : ∀ c ∈ ds, isDigit c = true) (r : List Char) :
    trimStart (ds ++ r) = ds ++ r := by
  cases ds with
  | nil => exact absurd rfl hne
  | cons d ds => exact trimStart_cons (not_isBlank_of_isDigit (hd d (by simp))) _

theorem takeWhile_isDigit {ds : List Char} (hd : ∀ c ∈ ds, isDigit c = true) (hc : isDigit c = false)
    (r : List Char) : (ds ++ c :: r).takeWhile isDigit = ds := by
  rw [List.takeWhile_append_of_pos hd, List.takeWhile_cons_of_neg (by simp [hc]), List.append_nil]

end Text

theorem one_le_daysInMonth {year : Int} {month : Nat} : 1 ≤ daysInMonth year month ↔ 1 ≤ month ∧ month ≤ 12 := by
  unfold daysInMonth
  split
  · split <;> omega
  · simp only [Bool.or_eq_true, decide_eq_true_eq, Bool.and_eq_true]
    split
    · omega
    · split <;> omega

namespace Date

variable {d : Date}

theorem valid_iff : d.valid = true ↔ 1 ≤ d.day ∧ d.day ≤ daysInMonth d.year d.month := by
  simp [valid]

theorem valid_next (h : d.valid = true) : d.next.valid = true := by
  rw [valid_iff] at h ⊢
  have hmonth := one_le_daysInMonth.1 (Nat.le_trans h.1 h.2)
  unfold next
  split
  · exact ⟨by simp, by assumption⟩
  · split
    · exact ⟨Nat.le_refl _, one_le_daysInMonth.2 ⟨by dsimp only; omega, by dsimp only; omega⟩⟩
    · exact ⟨Nat.le_refl _, one_le_daysInMonth.2 ⟨Nat.le_refl 1, by simp⟩⟩

theorem valid_previous (h : d.valid = true) : d.previous.valid = true := by
  rw [valid_iff] at h ⊢
  have hmonth := one_le_daysInMonth.1 (Nat.le_trans h.1 h.2)
  unfold previous
  split
  · exact ⟨by simp; omega, by simp; omega⟩
  · split
    · exact ⟨one_le_daysInMonth.2 ⟨by omega, by omega⟩, Nat.le_refl _⟩
    · exact ⟨by simp, by simp [daysInMonth]⟩

end Date

namespace Instant

variable {i : Instant}

/-- An instant that a clock can show: it is one of the calendar, in the years that are known. -/
structure Real (i : Instant) : Prop where
  valid : i.valid = true
  known : -262143 ≤ i.date.year ∧ i.date.year ≤ 262142

theorem valid_iff : i.valid = true ↔
    i.date.valid = true ∧ i.hour < 24 ∧ i.minute < 60 ∧ i.second ≤ 60 ∧ i.nano < 1000000000 := by
  simp [valid, and_assoc]

theorem ofOffset_zero (h : i.valid = true) : i.ofOffset 0 = i := by
  obtain ⟨-, hhour, hminute, -, -⟩ := valid_iff.1 h
  have hnat : (Int.ofNat (60 * i.hour + i.minute) - 0).toNat = 60 * i.hour + i.minute := by simp; omega
  have hneg : ¬ Int.ofNat (60 * i.hour + i.minute) - 0 < 0 := by simp; omega
  have hday : Int.ofNat (60 * i.hour + i.minute) - 0 < 1440 := by simp; omega
  unfold ofOffset
  simp only [hneg, hday, if_true, if_false, hnat]
  congr 1 <;> omega

/-- A clock that is less than a day ahead shows an instant of the calendar. -/
theorem valid_ofOffset (h : i.valid = true) {ahead : Int} (hlow : -1440 < ahead) (hhigh : ahead < 1440) :
    (i.ofOffset ahead).valid = true := by
  obtain ⟨hdate, hhour, hminute, hsecond, hnano⟩ := valid_iff.1 h
  rw [valid_iff]
  unfold ofOffset
  have hcast : Int.ofNat (60 * i.hour + i.minute) = ((60 * i.hour + i.minute : Nat) : Int) := rfl
  by_cases hneg : Int.ofNat (60 * i.hour + i.minute) - ahead < 0
  · simp only [hneg, if_true]
    refine ⟨Date.valid_previous hdate, ?_, ?_, hsecond, hnano⟩ <;> omega
  · by_cases hday : Int.ofNat (60 * i.hour + i.minute) - ahead < 1440
    · simp only [hneg, hday, if_true, if_false]
      refine ⟨hdate, ?_, ?_, hsecond, hnano⟩ <;> omega
    · simp only [hneg, hday, if_false]
      refine ⟨Date.valid_next hdate, ?_, ?_, hsecond, hnano⟩ <;> omega

section Reading

variable {width n : Nat} {r : List Char} {c : Char}

theorem number?_padded (hw : 0 < width) (hn : n < Nat.pow 10 width) (r : List Char) :
    number? width (Text.padded width n ++ r) = some (n, r) := by
  have hlength := Text.length_padded hw hn
  have htake : ((Text.padded width n ++ r).take width).takeWhile Text.isDigit = Text.padded width n := by
    rw [List.take_append_of_le_length (Nat.le_of_eq hlength.symm), List.take_of_length_le (Nat.le_of_eq hlength),
      List.takeWhile_eq_self_iff.2 fun _ => Text.isDigit_of_mem_padded]
  unfold number?
  simp only [Text.trimStart_digits Text.padded_ne_nil (fun _ => Text.isDigit_of_mem_padded), htake]
  rw [if_neg (by simp [Text.padded_ne_nil]), Text.ofDigits_padded, List.drop_left]

theorem mark?_cons (hc : Text.isBlank c = false) (r : List Char) : mark? c (c :: r) = some r := by
  unfold mark?
  rw [Text.trimStart_cons hc]
  simp

private theorem year?_digits {ds : List Char} (hne : ds ≠ []) (hd : ∀ c ∈ ds, Text.isDigit c = true) (r : List Char) :
    year? (ds ++ r) = (number? 4 (ds ++ r)).map fun p => (Int.ofNat p.1, p.2) := by
  have htrim := Text.trimStart_digits hne hd r
  cases ds with
  | nil => exact absurd rfl hne
  | cons d ds =>
    have hdigit := hd d (by simp)
    unfold year?
    rw [htrim]
    split
    · next heq =>
      obtain ⟨rfl, -⟩ := List.cons.inj heq
      exact absurd hdigit (by decide)
    · next heq =>
      obtain ⟨rfl, -⟩ := List.cons.inj heq
      exact absurd hdigit (by decide)
    · rfl

theorem year?_yearText (year : Int) (hc : Text.isDigit c = false) (r : List Char) :
    year? (yearText year ++ c :: r) = some (year, c :: r) := by
  have hsign : ∀ ds : List Char, ds ≠ [] → (∀ d ∈ ds, Text.isDigit d = true) →
      year? ('+' :: ds ++ c :: r) = some (Int.ofNat (Text.ofDigits ds), c :: r) ∧
        year? ('-' :: ds ++ c :: r) = some (-Int.ofNat (Text.ofDigits ds), c :: r) := by
    intro ds hne hd
    have htake := Text.takeWhile_isDigit hd hc r
    constructor <;>
    · unfold year?
      rw [List.cons_append, Text.trimStart_cons (by decide)]
      simp only [htake, List.drop_left]
      rw [if_neg (by simpa using hne)]
  cases year with
  | ofNat n =>
    unfold yearText
    dsimp only
    split
    · next hn =>
      have hread := number?_padded (by decide : 0 < 4) (Nat.lt_succ_of_le hn) (c :: r)
      exact (year?_digits Text.padded_ne_nil (fun _ => Text.isDigit_of_mem_padded) _).trans (by rw [hread]; rfl)
    · rw [(hsign (Text.digits n) Nat.toDigits_ne_nil fun _ => Json.isDigit_of_mem_digits).1]
      unfold Text.ofDigits Text.digits
      rw [Nat.ofDigitChars_ten_toDigits]
  | negSucc n =>
    refine (hsign (Text.padded 4 (n + 1)) Text.padded_ne_nil fun _ => Text.isDigit_of_mem_padded).2.trans ?_
    rw [Text.ofDigits_padded]
    rfl

theorem fraction?_fractionText {nano : Nat} (hn : nano < 1000000000) (hc : Text.isDigit c = false) (hdot : c ≠ '.')
    (r : List Char) : fraction? (fractionText nano ++ c :: r) = some (nano, c :: r) := by
  have hpadded : ∀ width m, 0 < width → width ≤ 9 → m < Nat.pow 10 width →
      fraction? ('.' :: Text.padded width m ++ c :: r) = some (m * Nat.pow 10 (9 - width), c :: r) := by
    intro width m hw hle hm
    have hlength := Text.length_padded hw hm
    have hdigits : ∀ d ∈ Text.padded width m, Text.isDigit d = true := fun _ => Text.isDigit_of_mem_padded
    have htake := Text.takeWhile_isDigit hdigits hc r
    have hkept : (Text.padded width m).take 9 = Text.padded width m := List.take_of_length_le (by omega)
    unfold fraction?
    simp only [List.cons_append, htake, hkept, hlength, Text.ofDigits_padded]
    rw [if_neg (by simp [Text.padded_ne_nil]), List.drop_left' hlength]
  unfold fractionText
  split
  · next h =>
    subst h
    unfold fraction?
    split
    · next heq =>
      obtain ⟨rfl, -⟩ := List.cons.inj heq
      exact absurd rfl hdot
    · rfl
  · split
    · next h =>
      refine (hpadded 3 _ (by decide) (by decide) (show _ < 1000 by omega)).trans ?_
      rw [show nano / 1000000 * Nat.pow 10 (9 - 3) = nano by simp; omega]
    · split
      · refine (hpadded 6 _ (by decide) (by decide) (show _ < 1000000 by omega)).trans ?_
        rw [show nano / 1000 * Nat.pow 10 (9 - 6) = nano by simp; omega]
      · refine (hpadded 9 _ (by decide) (by decide) hn).trans ?_
        rw [show nano * Nat.pow 10 (9 - 9) = nano by simp]

end Reading

theorem daysInMonth_le (year : Int) (month : Nat) : daysInMonth year month ≤ 31 := by
  unfold daysInMonth
  split
  · split <;> omega
  · split
    · omega
    · split <;> omega

/-- An instant that a clock can show is read from its text. -/
theorem Real.parse_render (h : i.Real) : parse i.render = some i := by
  obtain ⟨⟨year, month, day⟩, hour, minute, second, nano⟩ := i
  obtain ⟨hdate, hhour, hminute, hsecond, hnano⟩ := valid_iff.1 h.valid
  have hday := Date.valid_iff.1 hdate
  have hmonth := one_le_daysInMonth.1 (Nat.le_trans hday.1 hday.2)
  have hlast := daysInMonth_le year month
  dsimp only at hhour hminute hsecond hnano hday hmonth
  have htwo : ∀ n, n < 100 → ∀ r, number? 2 (twoDigits n ++ r) = some (n, r) :=
    fun n hn r => number?_padded (by decide) hn r
  have hoffset : offset? (Text.trimStart ['Z']) = some (0, []) := by decide
  have hbind : ∀ {α β : Type} {x : Option α} {a : α} {f : α → Option β}, x = some a → (x >>= f) = f a :=
    fun h => h ▸ rfl
  unfold parse render
  rw [String.toList_ofList]
  simp only [List.append_assoc, List.cons_append]
  -- one part of the text after the other is read off its front
  refine (hbind (year?_yearText _ (by decide) _)).trans ?_
  refine (hbind (mark?_cons (by decide) _)).trans ?_
  refine (hbind (htwo _ (by omega) _)).trans ?_
  refine (hbind (mark?_cons (by decide) _)).trans ?_
  refine (hbind (htwo _ (by omega) _)).trans ?_
  refine (if_pos (by decide)).trans ?_
  refine (hbind rfl).trans ?_
  refine (hbind (htwo _ (by omega) _)).trans ?_
  refine (hbind (mark?_cons (by decide) _)).trans ?_
  refine (hbind (htwo _ (by omega) _)).trans ?_
  refine (hbind (mark?_cons (by decide) _)).trans ?_
  refine (hbind (htwo _ (by omega) _)).trans ?_
  refine (hbind (fraction?_fractionText hnano (by decide) (by decide) _)).trans ?_
  refine (hbind hoffset).trans ?_
  dsimp only
  rw [ofOffset_zero h.valid, if_pos]
  simpa [h.valid, Text.trimStart] using h.known

/-- Offsets are less than a day. -/
theorem offset?_bounds {cs r : List Char} {ahead : Int} (h : offset? cs = some (ahead, r)) :
    -1440 < ahead ∧ ahead < 1440 := by
  have hsigned : ∀ (negative : Bool) cs, signedOffset? negative cs = some (ahead, r) →
      -1440 < ahead ∧ ahead < 1440 := by
    intro negative cs h
    unfold signedOffset? at h
    obtain ⟨⟨hours, r₁⟩, -, h⟩ := Option.bind_eq_some_iff.1 h
    obtain ⟨⟨minutes, r₂⟩, -, h⟩ := Option.bind_eq_some_iff.1 h
    dsimp only at h
    split at h
    · next hday =>
      have hcast : Int.ofNat (60 * hours + minutes) = ((60 * hours + minutes : Nat) : Int) := rfl
      obtain ⟨rfl, -⟩ := Prod.mk.inj (Option.some.inj h)
      split <;> omega
    · cases h
  unfold offset? at h
  split at h
  · obtain ⟨rfl, -⟩ := Prod.mk.inj (Option.some.inj h)
    decide
  · split at h
    · exact hsigned _ _ h
    · exact hsigned _ _ h
    · exact hsigned _ _ h
    · split at h
      · obtain ⟨rfl, -⟩ := Prod.mk.inj (Option.some.inj h)
        decide
      · cases h
    · cases h

/-- Whatever is read as an instant could be shown by a clock. -/
theorem Real.of_parse {s : String} (h : parse s = some i) : i.Real := by
  unfold parse at h
  obtain ⟨⟨year, _⟩, -, h⟩ := Option.bind_eq_some_iff.1 h
  obtain ⟨_, -, h⟩ := Option.bind_eq_some_iff.1 h
  obtain ⟨⟨month, _⟩, -, h⟩ := Option.bind_eq_some_iff.1 h
  obtain ⟨_, -, h⟩ := Option.bind_eq_some_iff.1 h
  obtain ⟨⟨day, _⟩, -, h⟩ := Option.bind_eq_some_iff.1 h
  dsimp only at h
  split at h
  · split at h
    · obtain ⟨_, -, h⟩ := Option.bind_eq_some_iff.1 h
      obtain ⟨⟨hour, _⟩, -, h⟩ := Option.bind_eq_some_iff.1 h
      obtain ⟨_, -, h⟩ := Option.bind_eq_some_iff.1 h
      obtain ⟨⟨minute, _⟩, -, h⟩ := Option.bind_eq_some_iff.1 h
      obtain ⟨_, -, h⟩ := Option.bind_eq_some_iff.1 h
      obtain ⟨⟨second, _⟩, -, h⟩ := Option.bind_eq_some_iff.1 h
      obtain ⟨⟨nano, _⟩, -, h⟩ := Option.bind_eq_some_iff.1 h
      obtain ⟨⟨ahead, _⟩, hoffset, h⟩ := Option.bind_eq_some_iff.1 h
      obtain ⟨hlow, hhigh⟩ := offset?_bounds hoffset
      dsimp only at h
      split at h
      · next hshown =>
        simp only [Bool.and_eq_true, decide_eq_true_eq] at hshown
        obtain ⟨⟨⟨-, hvalid⟩, -⟩, hknown⟩ := hshown
        rw [← Option.some.inj h]
        exact ⟨valid_ofOffset hvalid hlow hhigh, hknown⟩
      · cases h
    · cases h
  · cases h

end Instant

end ImageRecipe
