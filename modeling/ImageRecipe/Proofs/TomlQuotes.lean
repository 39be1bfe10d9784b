import ImageRecipe.Toml.Printer
import ImageRecipe.Toml.Quoted

/-! A text comes back from its quoted form, whichever of the four it is written in and whatever follows it. -/

namespace ImageRecipe.Toml

attribute [local simp] basic? multiBasic? literal? multiLiteral? quoted? quoteAs basicBody Quotation.fits consChar

/-! Characters and their escapes. -/

private theorem hexValue?_upperHexDigit {n : Nat} (h : n < 16) :
    Text.hexValue? (Text.upperHexDigit n) = some n := by
  have : ∀ n : Fin 16, Text.hexValue? (Text.upperHexDigit n.val) = some n.val := by decide
  exact this ⟨n, h⟩

private theorem toNat_of_isControl {c : Char} (h : isControl c = true) : c.toNat < 128 := by
  simp only [isControl, Bool.or_eq_true, Bool.and_eq_true, decide_eq_true_eq] at h
  omega

private theorem ofHexDigits_control {c : Char} (h : isControl c = true) :
    Text.ofHexDigits ['0', '0', Text.upperHexDigit (c.toNat / 16), Text.upperHexDigit (c.toNat % 16)] =
      some c.toNat := by
  have hlt := toNat_of_isControl h
  have h0 : Text.hexValue? '0' = some 0 := by decide
  have h1 := hexValue?_upperHexDigit (show c.toNat / 16 < 16 by omega)
  have h2 := hexValue?_upperHexDigit (show c.toNat % 16 < 16 by omega)
  simp only [Text.ofHexDigits, List.foldl_cons, List.foldl_nil, h0, h1, h2, bind, Option.bind, pure]
  congr 1
  omega

private theorem scalar?_toNat {c : Char} (h : c.toNat < 128) : scalar? c.toNat = some c := by
  unfold scalar?
  rw [if_pos (by simp; omega), Char.ofNat_toNat]

/-- What is no control character is plain, but for an end of line. -/
private theorem isPlain_of_isControl {c : Char} (h : isControl c = false) (hn : c ≠ '\n') :
    isPlain c = true := by
  simp only [isControl, isPlain, ne_eq, hn, not_false_eq_true, Bool.or_eq_false_iff, Bool.and_eq_false_iff,
    decide_eq_false_iff_not, Decidable.not_not, decide_true, Bool.and_true, Bool.or_eq_true, Bool.and_eq_true,
    decide_eq_true_eq] at *
  by_cases ht : c = '\t'
  · exact .inl ht
  · simp only [ht, or_false] at h
    exact .inr ⟨by omega, h.2⟩

/-- A character of a basic text has an escape of one letter, or one of its number, or stands for itself. -/
private theorem escape?_cases (several : Bool) (c : Char) :
    (∃ e, escape? several c = some ['\\', e] ∧ shortEscape? e = some c) ∨
      (isControl c = true ∧ escape? several c = some
        ['\\', 'u', '0', '0', Text.upperHexDigit (c.toNat / 16), Text.upperHexDigit (c.toNat % 16)]) ∨
      (escape? several c = none ∧ c ≠ '\\' ∧ isControl c = false ∧ (c = '\n' → several = true)) := by
  unfold escape?
  split
  · next h => exact .inl ⟨_, rfl, by rw [h]; rfl⟩
  split
  · next h => exact .inl ⟨_, rfl, by rw [h]; rfl⟩
  split
  · next h =>
    subst h
    cases several with
    | false => exact .inl ⟨'n', rfl, rfl⟩
    | true => exact .inr (.inr ⟨rfl, by decide, by decide, fun _ => rfl⟩)
  split
  · next h => exact .inl ⟨_, rfl, by rw [h]; rfl⟩
  split
  · next h => exact .inl ⟨_, rfl, by rw [h]; rfl⟩
  split
  · next h => exact .inl ⟨_, rfl, by rw [h]; rfl⟩
  split
  · next h => exact .inr (.inl ⟨h, rfl⟩)
  · next hn _ _ hb h => exact .inr (.inr ⟨rfl, hb, by simpa using h, fun heq => absurd heq hn⟩)

/-- The letter of an escape is none of a number's, and no line goes on behind it. -/
private theorem of_shortEscape? {e c : Char} (h : shortEscape? e = some c) :
    e ≠ 'u' ∧ e ≠ 'U' ∧ isBlank e = false ∧ e ≠ '\n' ∧ e ≠ '\r' := by
  unfold shortEscape? at h
  split at h <;> first | decide | cases h

/-! Basic texts on one line. -/

private theorem basic?_shortEscape {e c : Char} (h : shortEscape? e = some c) (r : List Char) :
    basic? ('\\' :: e :: r) = (basic? r).map (consChar c) := by
  obtain ⟨hu, hU, -⟩ := of_shortEscape? h
  rw [basic?]
  · rw [h]
    rfl
  · simp [hu]
  · simp [hU]

private theorem basic?_control {c : Char} (h : isControl c = true) (r : List Char) :
    basic? ('\\' :: 'u' :: '0' :: '0' :: Text.upperHexDigit (c.toNat / 16) ::
      Text.upperHexDigit (c.toNat % 16) :: r) = (basic? r).map (consChar c) := by
  rw [basic?, ofHexDigits_control h, Option.bind_eq_bind, Option.bind_some,
    scalar?_toNat (toNat_of_isControl h)]
  rfl

private theorem basic?_plain {c : Char} (hq : c ≠ '\x22') (hb : c ≠ '\\') (hc : isPlain c = true)
    (r : List Char) : basic? (c :: r) = (basic? r).map (consChar c) := by
  rw [basic?.eq_def]
  split <;> simp_all

theorem basic?_basicBody (quotes : Nat) (cs r : List Char) :
    basic? (basicBody false quotes cs ++ '\x22' :: r) = some (cs, r) := by
  induction cs generalizing quotes with
  | nil => simp
  | cons c cs ih =>
    unfold basicBody
    split
    · next hq =>
      subst hq
      simp only [Bool.false_and, Bool.false_eq_true, if_false, List.cons_append]
      rw [basic?_shortEscape (c := '\x22') rfl, ih]
      rfl
    · next hq =>
      obtain ⟨e, hesc, he⟩ | ⟨hc, hesc⟩ | ⟨hesc, hb, hc, hn⟩ := escape?_cases false c
      · simp only [hesc, List.cons_append, List.nil_append]
        rw [basic?_shortEscape he, ih]
        rfl
      · simp only [hesc, List.cons_append, List.nil_append]
        rw [basic?_control hc, ih]
        rfl
      · simp only [hesc, List.cons_append]
        rw [basic?_plain hq hb (isPlain_of_isControl hc fun heq => by simpa using hn heq), ih]
        rfl

/-! Runs of quotes. -/

/-- What may stand behind a quote in a text over several lines: one more at most, or none or one and the three
that close the text. -/
def FollowsQuote (q : Char) (cs : List Char) : Prop :=
  ∃ n r, (n ≤ 1 ∨ n = 3 ∨ n = 4) ∧ r.head? ≠ some q ∧ cs = List.replicate n q ++ r

theorem followsQuote_of_head? {q : Char} {cs : List Char} (h : cs.head? ≠ some q) : FollowsQuote q cs :=
  ⟨0, cs, by simp, h, rfl⟩

/-- A quote with such a text behind it is not the first of three, unless it stands at the end. -/
theorem FollowsQuote.cases {q : Char} {cs : List Char} (h : FollowsQuote q cs) :
    (∀ s, cs ≠ q :: q :: s) ∨
      ∃ r, r.head? ≠ some q ∧ (cs = q :: q :: q :: r ∨ cs = q :: q :: q :: q :: r) := by
  obtain ⟨n, r, hn, hr, rfl⟩ := h
  obtain rfl | rfl | rfl | rfl : n = 0 ∨ n = 1 ∨ n = 3 ∨ n = 4 := by omega
  · refine .inl fun s hs => hr ?_
    rw [List.replicate_zero, List.nil_append] at hs
    rw [hs, List.head?_cons]
  · refine .inl fun s hs => hr ?_
    rw [List.replicate_one, List.singleton_append, List.cons.injEq] at hs
    rw [hs.2, List.head?_cons]
  · exact .inr ⟨r, hr, .inl rfl⟩
  · exact .inr ⟨r, hr, .inr rfl⟩

/-- The text behind a quote goes on with three quotes at its end only. -/
private theorem followsQuote_of_occursThrice {q : Char} {cs r : List Char}
    (h : occursThrice q (q :: cs) = false) (hr : r.head? ≠ some q) :
    FollowsQuote q (cs ++ (List.replicate 3 q ++ r)) := by
  match cs with
  | [] => exact ⟨3, r, by simp, hr, rfl⟩
  | [c] =>
    by_cases hc : c = q
    · subst hc
      exact ⟨4, r, by simp, hr, rfl⟩
    · exact followsQuote_of_head? (by simpa using hc)
  | c :: d :: cs =>
    by_cases hc : c = q
    · subst hc
      have hd : d ≠ c := by
        rintro rfl
        simp [occursThrice] at h
      exact ⟨1, d :: (cs ++ (List.replicate 3 c ++ r)), by simp, by simpa using hd, rfl⟩
    · exact followsQuote_of_head? (by simpa using hc)

/-- A character that is no quote stands for itself or has an escape, which begins with a backslash. -/
private theorem head?_basicBody {c : Char} (several : Bool) (quotes : Nat) (hc : c ≠ '\x22') (cs r : List Char) :
    (basicBody several quotes (c :: cs) ++ r).head? ≠ some '\x22' := by
  rw [basicBody, if_neg hc]
  obtain ⟨e, hesc, -⟩ | ⟨-, hesc⟩ | ⟨hesc, -⟩ := escape?_cases several c
  · simp [hesc]
  · simp [hesc]
  · simpa [hesc] using hc

/-- Behind two quotes that stand for themselves the third is escaped. -/
private theorem followsQuote_basicBody {quotes : Nat} (hquotes : quotes = 1 ∨ quotes = 2) (cs : List Char)
    {r : List Char} (hr : r.head? ≠ some '\x22') :
    FollowsQuote '\x22' (basicBody true quotes cs ++ (List.replicate 3 '\x22' ++ r)) := by
  match cs with
  | [] => exact ⟨3, r, by simp, hr, by simp⟩
  | c :: cs =>
    by_cases hc : c = '\x22'
    · subst hc
      rcases hquotes with rfl | rfl
      · match cs with
        | [] => exact ⟨4, r, by simp, hr, by simp [List.replicate]⟩
        | d :: cs =>
          refine ⟨1, basicBody true 2 (d :: cs) ++ (List.replicate 3 '\x22' ++ r), by simp, ?_,
            by rw [basicBody]; simp⟩
          by_cases hd : d = '\x22'
          · simp [hd]
          · exact head?_basicBody true 2 hd cs _
      · exact followsQuote_of_head? (by simp)
    · exact followsQuote_of_head? (head?_basicBody true quotes hc cs _)

/-! Basic texts over several lines. -/

private theorem multiBasic?_shortEscape {e c : Char} (h : shortEscape? e = some c) (r : List Char) :
    multiBasic? false ('\\' :: e :: r) = (multiBasic? false r).map (consChar c) := by
  obtain ⟨hu, hU, hblank, hn, hr⟩ := of_shortEscape? h
  have hline : newLine? ((e :: r).dropWhile isBlank) = none := by
    rw [List.dropWhile_cons_of_neg (by simp [hblank]), newLine?.eq_def]
    split <;> simp_all
  cases r with
  | nil =>
    rw [multiBasic?.eq_9 _ _ (by simp) (by simp), hline, h]
    rfl
  | cons d r =>
    rw [multiBasic?.eq_8 _ _ _ _ (by simp [hu]) (by simp [hU]), hline, h]
    rfl

private theorem multiBasic?_control {c : Char} (h : isControl c = true) (r : List Char) :
    multiBasic? false ('\\' :: 'u' :: '0' :: '0' :: Text.upperHexDigit (c.toNat / 16) ::
      Text.upperHexDigit (c.toNat % 16) :: r) = (multiBasic? false r).map (consChar c) := by
  rw [multiBasic?, ofHexDigits_control h, Option.bind_eq_bind, Option.bind_some,
    scalar?_toNat (toNat_of_isControl h)]
  rfl

/-- A character that is neither a backslash nor the first of three quotes stands for itself. -/
private theorem multiBasic?_cons {c : Char} {r : List Char} (hq : c = '\x22' → ∀ s, r ≠ '\x22' :: '\x22' :: s)
    (hb : c ≠ '\\') (hc : isControl c = false) :
    multiBasic? false (c :: r) = (multiBasic? false r).map (consChar c) := by
  have hr : c ≠ '\r' := by
    rintro rfl
    exact absurd hc (by decide)
  have hplain : (isPlain c && decide (c ≠ '\\') || decide (c = '\n')) = true := by
    by_cases hn : c = '\n'
    · simp [hn]
    · simp [isPlain_of_isControl hc hn, hb]
  rw [multiBasic?.eq_def]
  split
  · next h => cases h
  · next h => exact absurd (List.cons.inj h).2 (hq (List.cons.inj h).1 _)
  · next h => exact absurd (List.cons.inj h).2 (hq (List.cons.inj h).1 _)
  · next h => exact absurd (List.cons.inj h).2 (hq (List.cons.inj h).1 _)
  · next h => exact absurd (List.cons.inj h).1 hr
  · next h => exact absurd (List.cons.inj h).1 hb
  · next h => exact absurd (List.cons.inj h).1 hb
  · next h => exact absurd (List.cons.inj h).1 hb
  · next h =>
    cases h
    rw [Bool.false_and, if_neg Bool.false_ne_true, if_pos hplain]

private theorem multiBasic?_quote {cs : List Char} (h : FollowsQuote '\x22' cs) :
    multiBasic? false ('\x22' :: cs) = (multiBasic? false cs).map (consChar '\x22') := by
  obtain h | ⟨r, hr, rfl | rfl⟩ := h.cases
  · exact multiBasic?_cons (fun _ => h) (by decide) (by decide)
  · cases r <;> simp_all
  · cases r <;> simp_all

theorem multiBasic?_basicBody {quotes : Nat} (hquotes : quotes ≤ 2) (cs : List Char) {r : List Char}
    (hr : r.head? ≠ some '\x22') :
    multiBasic? false (basicBody true quotes cs ++ (List.replicate 3 '\x22' ++ r)) = some (cs, r) := by
  induction cs generalizing quotes with
  | nil =>
    cases r with
    | nil => rfl
    | cons d r => simp_all [List.replicate]
  | cons c cs ih =>
    by_cases hq : c = '\x22'
    · subst hq
      by_cases hlt : quotes < 2
      · have hbody : basicBody true quotes ('\x22' :: cs) = '\x22' :: basicBody true (quotes + 1) cs := by
          simp [hlt]
        rw [hbody, List.cons_append, multiBasic?_quote (followsQuote_basicBody (by omega) cs hr), ih (by omega)]
        rfl
      · have hbody : basicBody true quotes ('\x22' :: cs) = '\\' :: '\x22' :: basicBody true 0 cs := by
          simp [hlt]
        rw [hbody, List.cons_append, List.cons_append, multiBasic?_shortEscape (c := '\x22') rfl, ih (by omega)]
        rfl
    · rw [basicBody, if_neg hq]
      obtain ⟨e, hesc, he⟩ | ⟨hc, hesc⟩ | ⟨hesc, hb, hc, -⟩ := escape?_cases true c
      · simp only [hesc, List.cons_append, List.nil_append]
        rw [multiBasic?_shortEscape he, ih (by omega)]
        rfl
      · simp only [hesc, List.cons_append, List.nil_append]
        rw [multiBasic?_control hc, ih (by omega)]
        rfl
      · simp only [hesc, List.cons_append]
        rw [multiBasic?_cons (fun heq => absurd heq hq) hb hc, ih (by omega)]
        rfl

/-! Literal texts. -/

theorem literal?_append {cs : List Char} (h : Quotation.literal.fits cs = true) (r : List Char) :
    literal? (cs ++ '\x27' :: r) = some (cs, r) := by
  induction cs with
  | nil => simp
  | cons c cs ih =>
    simp only [Quotation.fits, List.any_cons, Bool.not_or, Bool.and_eq_true, Bool.not_eq_true',
      decide_eq_false_iff_not] at h ih
    obtain ⟨⟨⟨hc, hn⟩, hq⟩, hcs⟩ := h
    rw [List.cons_append, literal?, if_pos (isPlain_of_isControl hc hn), ih hcs]
    · rfl
    · exact hq

/-- A character that is not the first of three quotes stands for itself. -/
private theorem multiLiteral?_cons {c : Char} {r : List Char} (hq : c = '\x27' → ∀ s, r ≠ '\x27' :: '\x27' :: s)
    (hc : isControl c = false) : multiLiteral? (c :: r) = (multiLiteral? r).map (consChar c) := by
  have hr : c ≠ '\r' := by
    rintro rfl
    exact absurd hc (by decide)
  have hplain : (isPlain c || decide (c = '\n')) = true := by
    by_cases hn : c = '\n'
    · simp [hn]
    · simp [isPlain_of_isControl hc hn]
  rw [multiLiteral?]
  · rw [if_pos hplain]
  · exact fun _ h hs => hq h _ hs
  · exact fun _ h hs => hq h _ hs
  · exact fun _ h hs => hq h _ hs
  · exact fun _ h => absurd h hr

private theorem multiLiteral?_quote {cs : List Char} (h : FollowsQuote '\x27' cs) :
    multiLiteral? ('\x27' :: cs) = (multiLiteral? cs).map (consChar '\x27') := by
  obtain h | ⟨r, hr, rfl | rfl⟩ := h.cases
  · exact multiLiteral?_cons (fun _ => h) (by decide)
  · cases r <;> simp_all
  · cases r <;> simp_all

theorem multiLiteral?_append {cs r : List Char} (h : Quotation.multiLiteral.fits cs = true)
    (hr : r.head? ≠ some '\x27') :
    multiLiteral? (cs ++ (List.replicate 3 '\x27' ++ r)) = some (cs, r) := by
  induction cs with
  | nil =>
    cases r with
    | nil => rfl
    | cons d r => simp_all [List.replicate]
  | cons c cs ih =>
    simp only [Quotation.fits, List.any_cons, Bool.not_or, Bool.and_eq_true, Bool.not_eq_true'] at h ih
    obtain ⟨⟨hc, hcs⟩, hthrice⟩ := h
    have htail : occursThrice '\x27' cs = false := (Bool.or_eq_false_iff.1 hthrice).2
    rw [List.cons_append]
    by_cases hq : c = '\x27'
    · subst hq
      rw [multiLiteral?_quote (followsQuote_of_occursThrice hthrice hr), ih ⟨hcs, htail⟩]
      rfl
    · rw [multiLiteral?_cons (fun heq => absurd heq hq) hc, ih ⟨hcs, htail⟩]
      rfl

/-! The form that a text is written in. -/

/-- What stands behind a quoted text goes on with neither quote. -/
def EndsText (r : List Char) : Prop := r.head? ≠ some '\x22' ∧ r.head? ≠ some '\x27'

private theorem newLine?_eq_none {cs : List Char} (h : ∀ c ∈ cs.head?, c ≠ '\n' ∧ c ≠ '\r') :
    newLine? cs = none := by
  unfold newLine?
  split
  · exact absurd rfl (h '\n' rfl).1
  · exact absurd rfl (h '\r' rfl).2
  · rfl

/-- The end of line behind the opening quotes is one that the text does not have. -/
private theorem newLine?_openingLine {cs body : List Char}
    (h : '\n' ∉ cs → ∀ c ∈ body.head?, c ≠ '\n' ∧ c ≠ '\r') :
    (newLine? (openingLine cs ++ body)).getD (openingLine cs ++ body) = body := by
  unfold openingLine
  by_cases hn : '\n' ∈ cs
  · rw [if_pos (by simpa using hn)]
    rfl
  · rw [if_neg (by simpa using hn), List.nil_append, newLine?_eq_none (h hn)]
    rfl

/-- A text that is no control character away from plain ones begins with no end of line. -/
private theorem ne_newLine {c : Char} {cs : List Char} (hc : isControl c = false) (hn : '\n' ∉ c :: cs) :
    c ≠ '\n' ∧ c ≠ '\r' := by
  constructor
  · rintro rfl
    simp at hn
  · rintro rfl
    exact absurd hc (by decide)

theorem quoted?_basic (cs : List Char) {r : List Char} (hr : r.head? ≠ some '\x22') :
    quoted? (quoteAs .basic cs ++ r) = some (cs, r) := by
  have hread := basic?_basicBody 0 cs r
  have hquotes : ∀ s, basicBody false 0 cs ++ '\x22' :: r ≠ '\x22' :: '\x22' :: s := by
    intro s hs
    cases cs with
    | nil =>
      rw [basicBody, List.nil_append, List.cons.injEq] at hs
      exact hr (hs.2 ▸ rfl)
    | cons c cs =>
      by_cases hc : c = '\x22'
      · simp [hc] at hs
      · exact head?_basicBody false 0 hc cs ('\x22' :: r) (hs ▸ rfl)
  rw [quoteAs, List.cons_append, List.append_assoc, List.singleton_append, quoted?]
  · exact hread
  · exact hquotes

theorem quoted?_literal {cs r : List Char} (h : Quotation.literal.fits cs = true)
    (hr : r.head? ≠ some '\x27') : quoted? (quoteAs .literal cs ++ r) = some (cs, r) := by
  have hquotes : ∀ s, cs ++ '\x27' :: r ≠ '\x27' :: '\x27' :: s := by
    intro s hs
    cases cs with
    | nil =>
      rw [List.nil_append, List.cons.injEq] at hs
      exact hr (hs.2 ▸ rfl)
    | cons c cs =>
      rw [List.cons_append, List.cons.injEq] at hs
      simp [hs.1] at h
  rw [quoteAs, List.cons_append, List.append_assoc, List.singleton_append, quoted?]
  · exact literal?_append h r
  · exact hquotes

theorem quoted?_multiBasic (cs : List Char) {r : List Char} (hr : r.head? ≠ some '\x22') :
    quoted? (quoteAs .multiBasic cs ++ r) = some (cs, r) := by
  have hopen : '\n' ∉ cs → ∀ c ∈ (basicBody true 0 cs ++ (List.replicate 3 '\x22' ++ r)).head?,
      c ≠ '\n' ∧ c ≠ '\r' := by
    intro hn x hx
    cases cs with
    | nil =>
      cases hx
      decide
    | cons c cs =>
      rw [basicBody] at hx
      by_cases hq : c = '\x22'
      · simp only [hq, if_true] at hx
        cases hx
        decide
      · rw [if_neg hq] at hx
        obtain ⟨e, hesc, -⟩ | ⟨-, hesc⟩ | ⟨hesc, -, hc, -⟩ := escape?_cases true c
        · simp only [hesc] at hx
          cases hx
          decide
        · simp only [hesc] at hx
          cases hx
          decide
        · simp only [hesc] at hx
          cases hx
          exact ne_newLine hc hn
  have hread := multiBasic?_basicBody (Nat.zero_le 2) cs hr
  rw [← newLine?_openingLine hopen] at hread
  simpa using hread

theorem quoted?_multiLiteral {cs r : List Char} (h : Quotation.multiLiteral.fits cs = true)
    (hr : r.head? ≠ some '\x27') : quoted? (quoteAs .multiLiteral cs ++ r) = some (cs, r) := by
  have hopen : '\n' ∉ cs → ∀ c ∈ (cs ++ (List.replicate 3 '\x27' ++ r)).head?, c ≠ '\n' ∧ c ≠ '\r' := by
    intro hn x hx
    cases cs with
    | nil =>
      cases hx
      decide
    | cons c cs =>
      cases hx
      simp only [Quotation.fits, List.any_cons, Bool.not_or, Bool.and_eq_true, Bool.not_eq_true'] at h
      exact ne_newLine h.1.1 hn
  have hread := multiLiteral?_append h hr
  rw [← newLine?_openingLine hopen] at hread
  simpa using hread

/-- A text that is written in a literal form needs no escape. -/
private theorem fits_of_choose {cs : List Char} {q : Quotation} (h : Quotation.choose cs = q)
    (hq : q = .literal ∨ q = .multiLiteral) : q.fits cs = true := by
  unfold Quotation.choose at h
  split at h
  · next hfits => exact h ▸ hfits
  split at h
  · next hfits => exact h ▸ hfits
  split at h
  · next hfits => exact h ▸ hfits
  split at h
  · next hfits => exact h ▸ hfits
  · split at h <;> simp [← h] at hq

/-- A text comes back from its quoted form. -/
theorem quoted?_quote (s : String) {r : List Char} (hr : EndsText r) :
    quoted? (quote s ++ r) = some (s.toList, r) := by
  unfold quote
  cases hq : Quotation.choose s.toList with
  | basic => exact quoted?_basic _ hr.1
  | literal => exact quoted?_literal (fits_of_choose hq (.inl rfl)) hr.2
  | multiBasic => exact quoted?_multiBasic _ hr.1
  | multiLiteral => exact quoted?_multiLiteral (fits_of_choose hq (.inr rfl)) hr.2

/-- A quoted text begins with a quote. -/
theorem quote_cons (s : String) : ∃ c cs, quote s = c :: cs ∧ (c = '\x22' ∨ c = '\x27') := by
  unfold quote quoteAs
  split
  · exact ⟨_, _, rfl, .inl rfl⟩
  · exact ⟨_, _, rfl, .inr rfl⟩
  · exact ⟨_, _, rfl, .inl rfl⟩
  · exact ⟨_, _, rfl, .inr rfl⟩

end ImageRecipe.Toml
