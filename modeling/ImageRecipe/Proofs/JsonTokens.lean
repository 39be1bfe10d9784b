import ImageRecipe.Json.Printer
import ImageRecipe.Json.Reader

/-! Written texts and integers are read back as they were. -/

namespace ImageRecipe.Json

/-! Texts. -/

private theorem hexValue?_hexDigit {n : Nat} (h : n < 16) : Text.hexValue? (Text.hexDigit n) = some n := by
  have : ∀ n : Fin 16, Text.hexValue? (Text.hexDigit n.val) = some n.val := by decide
  exact this ⟨n, h⟩

private theorem quoted_plain {c : Char} (hq : c ≠ '\x22') (hb : c ≠ '\\') (hc : ¬ c.toNat < 32)
    (u : Use) (r : List Char) :
    quoted u (c :: r) = (quoted u r).map fun p => (c :: p.1, p.2) := by
  rw [quoted.eq_def]
  split
  · simp_all
  · simp_all
  · simp_all
  · next h =>
    cases h
    rw [if_neg hc]

private theorem quoted_escape {x : Char} {e : List Char} (u : Use) (r : List Char)
    (h : escaped u (e ++ r) = .ok (x, e.length)) :
    quoted u ('\\' :: (e ++ r)) = (quoted u r).map fun p => (x :: p.1, p.2) := by
  rw [quoted, h]
  simp only [bind, Except.bind, List.drop_left, pure, Except.pure, Except.map]

private theorem escaped_control {c : Char} (h : c.toNat < 32) (r : List Char) :
    escaped .taken (['u', '0', '0', Text.hexDigit (c.toNat / 16), Text.hexDigit (c.toNat % 16)] ++ r) =
      .ok (c, 5) := by
  have h0 : Text.hexValue? '0' = some 0 := by decide
  have h1 := hexValue?_hexDigit (show c.toNat / 16 < 16 by omega)
  have h2 := hexValue?_hexDigit (show c.toNat % 16 < 16 by omega)
  have hunit : unit ('0' :: '0' :: Text.hexDigit (c.toNat / 16) :: Text.hexDigit (c.toNat % 16) :: r) =
      .ok c.toNat := by
    unfold unit
    have hcount : ∀ a b d e : Char, ¬ byteCount ((a :: b :: d :: e :: r).take 4) < 4 := by
      intro a b d e
      have := a.utf8Size_pos
      have := b.utf8Size_pos
      have := d.utf8Size_pos
      have := e.utf8Size_pos
      simp only [byteCount, List.take_succ_cons, List.take_zero, List.foldl_cons, List.foldl_nil]
      omega
    rw [if_neg (hcount _ _ _ _)]
    simp only [unit?, h0, h1, h2, bind, Option.bind, pure]
    congr 1
    omega
  simp only [List.cons_append, List.nil_append, escaped]
  rw [hunit]
  have hlow : isLowHalf c.toNat = false := by simp [isLowHalf]; omega
  have hhigh : isHighHalf c.toNat = false := by simp [isHighHalf]; omega
  simp only [bind, Except.bind, reduceCtorEq, if_false, hlow, hhigh, Bool.false_eq_true, pure,
    Except.pure, Char.ofNat_toNat]

/-- A character comes back from its escape. -/
private theorem quoted_escape_append (c : Char) (r : List Char) :
    quoted .taken (escape c ++ r) = (quoted .taken r).map fun p => (c :: p.1, p.2) := by
  unfold escape
  split
  · subst_vars; exact quoted_escape (e := ['\x22']) .taken r (by simp [escaped, plainEscape?])
  split
  · subst_vars; exact quoted_escape (e := ['\\']) .taken r (by simp [escaped, plainEscape?])
  split
  · subst_vars; exact quoted_escape (e := ['b']) .taken r (by simp [escaped, plainEscape?])
  split
  · subst_vars; exact quoted_escape (e := ['t']) .taken r (by simp [escaped, plainEscape?])
  split
  · subst_vars; exact quoted_escape (e := ['n']) .taken r (by simp [escaped, plainEscape?])
  split
  · subst_vars; exact quoted_escape (e := ['f']) .taken r (by simp [escaped, plainEscape?])
  split
  · subst_vars; exact quoted_escape (e := ['r']) .taken r (by simp [escaped, plainEscape?])
  split
  · next h =>
    exact quoted_escape (e := ['u', '0', '0', Text.hexDigit (c.toNat / 16), Text.hexDigit (c.toNat % 16)])
      .taken r (escaped_control h r)
  · next hq hb _ _ _ _ _ hc => exact quoted_plain hq hb hc .taken r

theorem quoted_flatMap_escape (cs r : List Char) :
    quoted .taken (cs.flatMap escape ++ '\x22' :: r) = .ok (cs, r) := by
  induction cs with
  | nil => rw [List.flatMap_nil, List.nil_append, quoted]
  | cons c cs ih =>
    rw [List.flatMap_cons, List.append_assoc, quoted_escape_append, ih]
    rfl

/-- A text comes back from its quoted form. -/
theorem text?_quote (s : String) (r : List Char) :
    text? (s.toList.flatMap escape ++ '\x22' :: r) = some (some s, r) := by
  unfold text?
  rw [quoted_flatMap_escape]
  simp

/-! Integers. -/

/-- What follows a number does not go on with it. -/
def EndsNumber (r : List Char) : Prop :=
  ∀ c ∈ r.head?, Text.isDigit c = false ∧ c ≠ '.' ∧ c ≠ 'e' ∧ c ≠ 'E'

theorem endsNumber_cons {c : Char} {r : List Char}
    (h : Text.isDigit c = false ∧ c ≠ '.' ∧ c ≠ 'e' ∧ c ≠ 'E') : EndsNumber (c :: r) := by
  intro x hx
  cases hx
  exact h

theorem isDigit_of_mem_digits {n : Nat} {c : Char} (h : c ∈ Text.digits n) :
    Text.isDigit c = true := by
  have := Nat.isDigit_of_mem_toDigits (b := 10) (by decide) (by decide) h
  simpa [Char.isDigit, Text.isDigit, Char.le_def, UInt32.le_iff_toNat_le] using this

theorem digits_zero_cons {n : Nat} {c : Char} {r : List Char} :
    Text.digits n ≠ '0' :: c :: r := by
  unfold Text.digits
  induction n using Nat.strongRecOn generalizing c r with
  | ind n ih =>
    by_cases hn : n < 10
    · rw [Nat.toDigits_of_lt_base hn]
      simp
    · rw [Nat.toDigits_of_base_le (by decide) (by omega)]
      intro h
      cases hd : Nat.toDigits 10 (n / 10) with
      | nil => exact absurd hd Nat.toDigits_ne_nil
      | cons a l =>
        rw [hd, List.cons_append, List.cons.injEq] at h
        cases l with
        | nil =>
          have := Nat.ofDigitChars_ten_toDigits (n := n / 10)
          rw [hd, h.1] at this
          simp [Nat.ofDigitChars] at this
          omega
        | cons b l => exact ih (n / 10) (by omega) (h.1 ▸ hd)

theorem takeWhile_digits (n : Nat) {r : List Char} (hr : EndsNumber r) :
    (Text.digits n ++ r).takeWhile Text.isDigit = Text.digits n ∧
      (Text.digits n ++ r).dropWhile Text.isDigit = r := by
  have hall : ∀ c ∈ Text.digits n, Text.isDigit c = true := fun c hc => isDigit_of_mem_digits hc
  rw [List.takeWhile_append_of_pos hall, List.dropWhile_append_of_pos hall]
  cases r with
  | nil => simp
  | cons c r =>
    have := (hr c rfl).1
    simp [this]

private theorem unsigned_digits (u : Use) (negative : Bool) (n : Nat) {r : List Char} (hr : EndsNumber r) :
    Numeral.unsigned u negative (Text.digits n ++ r) = .ok (⟨negative, Text.digits n, [], none⟩, r) := by
  obtain ⟨htake, hdrop⟩ := takeWhile_digits n hr
  have hdigits : Numeral.digits u (Text.digits n ++ r) = .ok (Text.digits n, r) := by
    unfold Numeral.digits
    rw [htake, hdrop]
    split
    · next h => exact absurd h Nat.toDigits_ne_nil
    · rfl
  have hwhole : Numeral.wholeDigits u (Text.digits n ++ r) = .ok (Text.digits n, r) := by
    unfold Numeral.wholeDigits
    rw [hdigits]
    simp only [bind, Except.bind]
    split
    · next h => exact absurd (congrArg Prod.fst h) digits_zero_cons
    · rfl
  have hfraction : Numeral.fractionDigits u r = .ok ([], r) := by
    unfold Numeral.fractionDigits
    split
    · exact absurd rfl (hr '.' rfl).2.1
    · rfl
  have hexponent : Numeral.exponentDigits u r = .ok (none, r) := by
    unfold Numeral.exponentDigits
    cases r with
    | nil => rfl
    | cons c r =>
      have := hr c rfl
      simp [this]
  unfold Numeral.unsigned
  simp only [hwhole, hfraction, hexponent, bind, Except.bind, pure, Except.pure]

private theorem le_ofDigitChars (cs : List Char) (n : Nat) : n ≤ Nat.ofDigitChars 10 cs n := by
  induction cs generalizing n with
  | nil => simp
  | cons c cs ih =>
    rw [Nat.ofDigitChars_cons]
    have := ih (10 * n + (c.toNat - '0'.toNat))
    omega

private theorem takeDigits_of_lt {bound : Nat} (cs : List Char) (n : Nat)
    (h : Nat.ofDigitChars 10 cs n < bound) :
    Numeral.takeDigits bound n cs = (Nat.ofDigitChars 10 cs n, []) := by
  induction cs generalizing n with
  | nil => simp [Numeral.takeDigits]
  | cons c cs ih =>
    rw [Nat.ofDigitChars_cons] at h
    have hle := le_ofDigitChars cs (10 * n + (c.toNat - '0'.toNat))
    rw [Numeral.takeDigits, if_pos (by omega), ih _ h, Nat.ofDigitChars_cons]

/-- The integers that are read as such. -/
def IsInt64 (i : Int) : Prop := -9223372036854775808 ≤ i ∧ i < 18446744073709551616

private theorem value_digits {negative : Bool} {n : Nat} (h : n < Text.limit64) :
    (⟨negative, Text.digits n, [], none⟩ : Numeral).value =
      if !negative then .ok (.int n)
      else if n = 0 || 9223372036854775808 < n then
        (⟨negative, Text.digits n, [], none⟩ : Numeral).real n 0
      else .ok (.int (-Int.ofNat n)) := by
  have hn : Nat.ofDigitChars 10 (Text.digits n) 0 = n := Nat.ofDigitChars_ten_toDigits
  unfold Numeral.value
  simp only
  rw [takeDigits_of_lt _ _ (by rwa [hn]), hn]
  rfl

theorem digits_cons (n : Nat) : ∃ c r, Text.digits n = c :: r ∧ Text.isDigit c = true := by
  cases hd : Text.digits n with
  | nil => exact absurd hd Nat.toDigits_ne_nil
  | cons c r =>
    refine ⟨c, r, rfl, isDigit_of_mem_digits (n := n) ?_⟩
    rw [hd]
    simp

private theorem scalar?_of_read {c : Char} {cs r : List Char} {x : Numeral}
    (hc : Text.isDigit c = true ∨ c = '-') (h : Numeral.read .passed (c :: cs) = .ok (x, r)) :
    scalar? (c :: cs) = some (x.document, r) := by
  have hne : c ≠ 'n' ∧ c ≠ 't' ∧ c ≠ 'f' ∧ c ≠ '\x22' := by
    refine ⟨?_, ?_, ?_, ?_⟩ <;> (rintro rfl; revert hc; decide)
  unfold scalar?
  split
  · next heq => exact absurd (List.cons.inj heq).1 hne.1
  · next heq => exact absurd (List.cons.inj heq).1 hne.2.1
  · next heq => exact absurd (List.cons.inj heq).1 hne.2.2.1
  · next heq => exact absurd (List.cons.inj heq).1 hne.2.2.2
  · rw [h]
    rfl

/-- An integer begins with a digit or a minus sign. -/
theorem ofInt_cons (i : Int) : ∃ c r, ofInt i = c :: r ∧ (Text.isDigit c = true ∨ c = '-') := by
  cases i with
  | ofNat n =>
    obtain ⟨c, r, h, hc⟩ := digits_cons n
    exact ⟨c, r, h, .inl hc⟩
  | negSucc n => exact ⟨'-', _, rfl, .inr rfl⟩

/-- An integer comes back from its digits. -/
theorem scalar?_ofInt {i : Int} (h : IsInt64 i) {r : List Char} (hr : EndsNumber r) :
    scalar? (ofInt i ++ r) = some (.int i, r) := by
  unfold IsInt64 at h
  cases i with
  | ofNat n =>
    obtain ⟨c, cs, hd, hc⟩ := digits_cons n
    have hread : Numeral.read .passed (Text.digits n ++ r) =
        .ok (⟨false, Text.digits n, [], none⟩, r) := by
      rw [← unsigned_digits .passed false n hr, hd, List.cons_append, Numeral.read.eq_def]
      split
      · next heq =>
        cases heq
        exact absurd hc (by decide)
      · rfl
    have hvalue : (⟨false, Text.digits n, [], none⟩ : Numeral).document = .int (Int.ofNat n) := by
      unfold Numeral.document
      have hn : n < Text.limit64 := by
        have := h.2
        rw [Int.ofNat_eq_natCast] at this
        unfold Text.limit64
        omega
      rw [value_digits hn]
      rfl
    rw [ofInt, hd, List.cons_append] at *
    rw [scalar?_of_read (.inl hc) hread, hvalue]
  | negSucc n =>
    have hread : Numeral.read .passed ('-' :: (Text.digits (n + 1) ++ r)) =
        .ok (⟨true, Text.digits (n + 1), [], none⟩, r) := by
      rw [Numeral.read, unsigned_digits .passed true (n + 1) hr]
    have hvalue : (⟨true, Text.digits (n + 1), [], none⟩ : Numeral).document = .int (Int.negSucc n) := by
      unfold Numeral.document
      rw [value_digits (by unfold Text.limit64; omega)]
      have hn : (decide (n + 1 = 0) || decide (9223372036854775808 < n + 1)) = false := by
        simp
        omega
      simp only [Bool.not_true, Bool.false_eq_true, if_false, hn]
      rfl
    rw [ofInt, List.cons_append, scalar?_of_read (.inr rfl) hread, hvalue]

end ImageRecipe.Json
