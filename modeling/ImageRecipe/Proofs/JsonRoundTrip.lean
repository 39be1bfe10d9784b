import ImageRecipe.Proofs.JsonInjectivity

/-! A document that is written in any layout, compact or with each field on a line of its own, is read back as it was,
as long as its integers have 64 bits and it is nested no deeper than the reader goes. -/

namespace ImageRecipe

namespace Document

mutual

/-- Whether a document comes back from its text when the reader has room for so many levels. -/
def Exact : Nat → Document → Prop
  | _, .null | _, .bool _ | _, .text _ => True
  | _, .int i => Json.IsInt64 i
  | 0, .list _ | 0, .table _ => False
  | room + 1, .list items => ExactItems room items
  | room + 1, .table fields => ExactFields room fields
  | _, .real | _, .moment | _, .skipped => False

def ExactItems : Nat → List Document → Prop
  | _, [] => True
  | room, d :: r => Exact room d ∧ ExactItems room r

def ExactFields : Nat → List (String × Document) → Prop
  | _, [] => True
  | room, (_, d) :: r => Exact room d ∧ ExactFields room r

end

end Document

namespace Json

open Document

/-- Where the text of a document has blanks: in front of the items of each level and of the end of a list or a table,
and behind a colon. -/
structure Layout where
  gap : Nat → List Char
  afterColon : List Char
  isSpace_gap : ∀ level, ∀ c ∈ gap level, isSpace c = true
  isSpace_afterColon : ∀ c ∈ afterColon, isSpace c = true

namespace Layout

/-- No blanks at all. -/
def compact : Layout where
  gap _ := []
  afterColon := []
  isSpace_gap := by simp
  isSpace_afterColon := by simp

/-- Each item and each field on a line of its own. -/
def pretty : Layout where
  gap := newLine
  afterColon := [' ']
  isSpace_gap := fun level c hc => by
    rcases List.mem_cons.1 hc with rfl | hc
    · decide
    · rw [List.eq_of_mem_replicate hc]
      decide
  isSpace_afterColon := by simp [isSpace]

variable (f : Layout)

mutual

/-- The text of a document in a layout. -/
def chars (level : Nat) : Document → List Char
  | .null | .real | .moment | .skipped => ['n', 'u', 'l', 'l']
  | .bool true => ['t', 'r', 'u', 'e']
  | .bool false => ['f', 'a', 'l', 's', 'e']
  | .int i => ofInt i
  | .text s => quote s
  | .list [] => ['[', ']']
  | .list (d :: r) => '[' :: (f.gap (level + 1) ++ (chars (level + 1) d ++ items level r))
  | .table [] => ['\x7b', '\x7d']
  | .table ((k, d) :: r) =>
    '\x7b' :: (f.gap (level + 1) ++
      (quote k ++ ':' :: (f.afterColon ++ (chars (level + 1) d ++ fields level r))))

/-- What follows the first item of a list. -/
def items (level : Nat) : List Document → List Char
  | [] => f.gap level ++ [']']
  | d :: r => ',' :: (f.gap (level + 1) ++ (chars (level + 1) d ++ items level r))

/-- What follows the first field of a table. -/
def fields (level : Nat) : List (String × Document) → List Char
  | [] => f.gap level ++ ['\x7d']
  | (k, d) :: r =>
    ',' :: (f.gap (level + 1) ++ (quote k ++ ':' :: (f.afterColon ++ (chars (level + 1) d ++ fields level r))))

end

mutual

theorem chars_pretty : ∀ (d : Document) (level : Nat), pretty.chars level d = prettyChars level d
  | .null, _ | .real, _ | .moment, _ | .skipped, _ | .bool true, _ | .bool false, _ | .int _, _ | .text _, _
  | .list [], _ | .table [], _ => by rw [chars, prettyChars]
  | .list (d :: r), level => by
    rw [chars, prettyChars, chars_pretty d, items_pretty r]
    rfl
  | .table ((k, d) :: r), level => by
    rw [chars, prettyChars, chars_pretty d, fields_pretty r]
    rfl

theorem items_pretty : ∀ (l : List Document) (level : Nat), pretty.items level l = prettyItems level l
  | [], _ => by rw [items, prettyItems]; rfl
  | d :: r, level => by
    rw [items, prettyItems, chars_pretty d, items_pretty r]
    rfl

theorem fields_pretty : ∀ (l : List (String × Document)) (level : Nat), pretty.fields level l = prettyFields level l
  | [], _ => by rw [fields, prettyFields]; rfl
  | (k, d) :: r, level => by
    rw [fields, prettyFields, chars_pretty d, fields_pretty r]
    rfl

end

mutual

theorem chars_compact : ∀ (d : Document) (level : Nat), compact.chars level d = compactChars d
  | .null, _ | .real, _ | .moment, _ | .skipped, _ | .bool true, _ | .bool false, _ | .int _, _ | .text _, _
  | .list [], _ | .table [], _ => by rw [chars, compactChars] <;> rfl
  | .list (d :: r), level => by
    rw [chars, compactChars, compactItems_cons, chars_compact d, items_compact r]
    rfl
  | .table ((k, d) :: r), level => by
    rw [chars, compactChars, compactFields_cons, chars_compact d, fields_compact r]
    rfl

theorem items_compact : ∀ (l : List Document) (level : Nat), compact.items level l = itemsTail l
  | [], _ => by rw [items]; rfl
  | d :: r, level => by
    rw [items, itemsTail, compactItems_cons, chars_compact d, items_compact r]
    rfl

theorem fields_compact : ∀ (l : List (String × Document)) (level : Nat), compact.fields level l = fieldsTail l
  | [], _ => by rw [fields]; rfl
  | (k, d) :: r, level => by
    rw [fields, fieldsTail, compactFields_cons, chars_compact d, fields_compact r]
    rfl

end

end Layout

private theorem dropSpace_cons {c : Char} (h : isSpace c = false) (r : List Char) :
    dropSpace (c :: r) = c :: r := by
  simp [dropSpace, h]

section Blanks

variable {b : List Char} (hb : ∀ c ∈ b, isSpace c = true)
include hb

private theorem dropSpace_blanks (r : List Char) : dropSpace (b ++ r) = dropSpace r :=
  List.dropWhile_append_of_pos hb

private theorem value?_blanks (fuel room : Nat) (r : List Char) :
    value? fuel room (b ++ r) = value? fuel room r := by
  cases fuel with
  | zero => simp [value?]
  | succ fuel => rw [value?, value?, dropSpace_blanks hb]

private theorem items?_blanks (fuel room : Nat) (r : List Char) :
    items? fuel room (b ++ r) = items? fuel room r := by
  cases fuel with
  | zero => simp [items?]
  | succ fuel => rw [items?, items?, value?_blanks hb]

private theorem fields?_blanks (fuel room : Nat) (r : List Char) :
    fields? fuel room (b ++ r) = fields? fuel room r := by
  cases fuel with
  | zero => simp [fields?]
  | succ fuel => rw [fields?, fields?, dropSpace_blanks hb]

private theorem endsNumber_blanks {c : Char} {r : List Char}
    (hc : Text.isDigit c = false ∧ c ≠ '.' ∧ c ≠ 'e' ∧ c ≠ 'E') : EndsNumber (b ++ c :: r) := by
  cases b with
  | nil => exact endsNumber_cons hc
  | cons x b =>
    have hx := hb x List.mem_cons_self
    refine endsNumber_cons ?_
    simp only [isSpace, Bool.or_eq_true, decide_eq_true_eq] at hx
    rcases hx with ((rfl | rfl) | rfl) | rfl <;> decide

end Blanks

private theorem endsNumber_items (f : Layout) (level : Nat) (l : List Document) (r : List Char) :
    EndsNumber (f.items level l ++ r) := by
  cases l with
  | nil =>
    rw [Layout.items, List.append_assoc]
    exact endsNumber_blanks (f.isSpace_gap level) (by decide)
  | cons =>
    rw [Layout.items]
    exact endsNumber_cons (by decide)

private theorem endsNumber_fields (f : Layout) (level : Nat) (l : List (String × Document)) (r : List Char) :
    EndsNumber (f.fields level l ++ r) := by
  match l with
  | [] =>
    rw [Layout.fields, List.append_assoc]
    exact endsNumber_blanks (f.isSpace_gap level) (by decide)
  | (_, _) :: _ =>
    rw [Layout.fields]
    exact endsNumber_cons (by decide)

private theorem value?_scalar {c : Char} {cs r : List Char} {d : Document} (fuel room : Nat)
    (hc : isSpace c = false ∧ c ≠ '[' ∧ c ≠ '\x7b') (h : scalar? (c :: cs) = some (d, r)) :
    value? (fuel + 1) room (c :: cs) = some (d, r) := by
  rw [value?, dropSpace_cons hc.1]
  split
  · next heq => exact absurd (List.cons.inj heq).1 hc.2.1
  · next heq => exact absurd (List.cons.inj heq).1 hc.2.2
  · exact h

private theorem key?_quote (k : String) (r : List Char) :
    key? (quote k ++ ':' :: r) = some (some k, r) := by
  unfold quote key?
  rw [List.cons_append, List.append_assoc, List.singleton_append]
  simp only [text?_quote, bind, Option.bind, colon]
  rw [dropSpace_cons (by decide)]
  rfl

/-- What an integer begins with is no blank and no bracket. -/
private theorem ne_of_numeral {c : Char} (hc : Text.isDigit c = true ∨ c = '-') :
    isSpace c = false ∧ c ≠ ']' ∧ c ≠ '[' ∧ c ≠ '\x7b' := by
  refine ⟨?_, ?_, ?_, ?_⟩
  · cases hs : isSpace c with
    | false => rfl
    | true =>
      simp only [isSpace, Bool.or_eq_true, decide_eq_true_eq] at hs
      rcases hs with ((rfl | rfl) | rfl) | rfl <;> exact absurd hc (by decide)
  all_goals
    rintro rfl
    exact absurd hc (by decide)

/-- What a document begins with. -/
private theorem chars_cons (f : Layout) (level : Nat) (d : Document) :
    ∃ c r, f.chars level d = c :: r ∧ isSpace c = false ∧ c ≠ ']' := by
  match d with
  | .null | .real | .moment | .skipped => exact ⟨'n', _, by rw [Layout.chars], by decide⟩
  | .bool true => exact ⟨'t', _, by rw [Layout.chars], by decide⟩
  | .bool false => exact ⟨'f', _, by rw [Layout.chars], by decide⟩
  | .int i =>
    obtain ⟨c, r, hi, hc⟩ := ofInt_cons i
    exact ⟨c, r, by rw [Layout.chars, hi], (ne_of_numeral hc).1, (ne_of_numeral hc).2.1⟩
  | .text s => exact ⟨'\x22', _, by rw [Layout.chars, quote], by decide⟩
  | .list [] => exact ⟨'[', _, by rw [Layout.chars], by decide⟩
  | .list (_ :: _) => exact ⟨'[', _, by rw [Layout.chars], by decide⟩
  | .table [] => exact ⟨'\x7b', _, by rw [Layout.chars], by decide⟩
  | .table ((_, _) :: _) => exact ⟨'\x7b', _, by rw [Layout.chars], by decide⟩

variable (f : Layout)

mutual

/-- A document comes back from its text, whatever follows it. -/
theorem value?_chars : ∀ (d : Document) (room fuel level : Nat) (r : List Char), d.Exact room →
    (f.chars level d).length ≤ fuel → EndsNumber r →
    value? fuel room (f.chars level d ++ r) = some (d, r)
  | d, room, 0, level, r, _, hl, _ => by
    obtain ⟨c, cs, hd, -⟩ := chars_cons f level d
    rw [hd] at hl
    simp at hl
  | .null, room, fuel + 1, level, r, _, _, _ => by
    rw [Layout.chars]
    exact value?_scalar fuel room (by decide) (by simp [scalar?, word, Except.toOption])
  | .bool true, room, fuel + 1, level, r, _, _, _ => by
    rw [Layout.chars]
    exact value?_scalar fuel room (by decide) (by simp [scalar?, word, Except.toOption])
  | .bool false, room, fuel + 1, level, r, _, _, _ => by
    rw [Layout.chars]
    exact value?_scalar fuel room (by decide) (by simp [scalar?, word, Except.toOption])
  | .int i, room, fuel + 1, level, r, he, _, hr => by
    obtain ⟨c, cs, hi, hc⟩ := ofInt_cons i
    have hscalar := scalar?_ofInt (by simpa [Exact] using he) hr
    rw [Layout.chars]
    rw [hi, List.cons_append] at hscalar ⊢
    obtain ⟨hspace, -, hlist, htable⟩ := ne_of_numeral hc
    exact value?_scalar fuel room ⟨hspace, hlist, htable⟩ hscalar
  | .text s, room, fuel + 1, level, r, _, _, _ => by
    rw [Layout.chars, quote, List.cons_append, List.append_assoc, List.singleton_append]
    exact value?_scalar fuel room (by decide) (by simp [scalar?, text?_quote])
  | .list [], room + 1, fuel + 1, level, r, _, _, _ => by
    rw [Layout.chars, value?, List.cons_append, dropSpace_cons (by decide)]
    simp only [List.singleton_append]
    rw [dropSpace_cons (by decide)]
    rfl
  | .list (d :: l), room + 1, fuel + 1, level, r, he, hl, _ => by
    have hitems := items?_chars (d :: l) room fuel level r (by simpa only [Exact] using he)
      (by simp only [Layout.chars, List.length_cons, List.length_append] at hl ⊢; omega)
    obtain ⟨c, cs, hd, hspace, hbracket⟩ := chars_cons f (level + 1) d
    rw [Layout.chars, value?, List.cons_append, dropSpace_cons (by decide)]
    simp only [List.append_assoc]
    rw [dropSpace_blanks (f.isSpace_gap _)]
    rw [hd, List.cons_append] at hitems ⊢
    rw [dropSpace_cons hspace]
    split
    · next heq => exact absurd (List.cons.inj heq).1 hbracket
    · rw [hitems]
      rfl
  | .table [], room + 1, fuel + 1, level, r, _, _, _ => by
    rw [Layout.chars, value?, List.cons_append, dropSpace_cons (by decide)]
    simp only [List.singleton_append]
    rw [dropSpace_cons (by decide)]
    rfl
  | .table ((k, d) :: l), room + 1, fuel + 1, level, r, he, hl, _ => by
    have hfields := fields?_chars ((k, d) :: l) room fuel level r (by simpa only [Exact] using he)
      (by simp only [Layout.chars, List.length_cons, List.length_append] at hl ⊢; omega)
    rw [Layout.chars, value?, List.cons_append, dropSpace_cons (by decide)]
    simp only [List.append_assoc, List.cons_append]
    rw [dropSpace_blanks (f.isSpace_gap _), quote, List.cons_append, dropSpace_cons (by decide)]
    simp only [quote, List.append_assoc, List.cons_append] at hfields ⊢
    split
    · next heq => exact absurd (List.cons.inj heq).1 (by decide)
    · rw [hfields]
      rfl

/-- The items of a list come back from their text. -/
theorem items?_chars : ∀ (l : List Document) (room fuel level : Nat) (r : List Char),
    ExactItems room l →
    match l with
    | [] => True
    | d :: l => (f.chars (level + 1) d ++ f.items level l).length ≤ fuel →
      items? fuel room (f.chars (level + 1) d ++ (f.items level l ++ r)) = some (d :: l, r)
  | [], _, _, _, _, _ => trivial
  | d :: l, room, 0, level, r, _ => by
    intro hl
    obtain ⟨c, cs, hd, -⟩ := chars_cons f (level + 1) d
    simp [hd] at hl
  | d :: l, room, fuel + 1, level, r, he => by
    intro hl
    rw [List.length_append] at hl
    rw [ExactItems] at he
    have hpos : 0 < (f.items level l).length := by
      cases l <;> simp [Layout.items]
    have hd := value?_chars d room fuel (level + 1) (f.items level l ++ r) he.1 (by omega)
      (endsNumber_items f level l r)
    have hrest := items?_chars l room fuel level r he.2
    rw [items?, hd]
    cases l with
    | nil =>
      simp only [bind, Option.bind, Layout.items, List.append_assoc, List.singleton_append]
      rw [dropSpace_blanks (f.isSpace_gap _), dropSpace_cons (by decide)]
      rfl
    | cons e l =>
      obtain ⟨c, cs, hc, -⟩ := chars_cons f (level + 1) d
      have hdpos : 0 < (f.chars (level + 1) d).length := by simp [hc]
      have hlen : (f.items level (e :: l)).length =
          1 + (f.gap (level + 1)).length + (f.chars (level + 1) e ++ f.items level l).length := by
        rw [Layout.items]
        simp only [List.length_cons, List.length_append]
        omega
      simp only [bind, Option.bind, Layout.items, List.append_assoc, List.cons_append]
      rw [dropSpace_cons (by decide)]
      simp only
      rw [items?_blanks (f.isSpace_gap _), hrest (by omega)]
      rfl

/-- The fields of a table come back from their text. -/
theorem fields?_chars : ∀ (l : List (String × Document)) (room fuel level : Nat) (r : List Char),
    ExactFields room l →
    match l with
    | [] => True
    | (k, d) :: l =>
      (quote k ++ ':' :: (f.afterColon ++ (f.chars (level + 1) d ++ f.fields level l))).length ≤ fuel →
      fields? fuel room (quote k ++ ':' :: (f.afterColon ++ (f.chars (level + 1) d ++
        (f.fields level l ++ r)))) = some (some ((k, d) :: l), r)
  | [], _, _, _, _, _ => trivial
  | (k, d) :: l, room, 0, level, r, _ => by
    intro hl
    simp [quote] at hl
  | (k, d) :: l, room, fuel + 1, level, r, he => by
    intro hl
    rw [ExactFields] at he
    simp only [List.length_append, List.length_cons] at hl
    have hpos : 0 < (f.fields level l).length := by
      match l with
      | [] => simp [Layout.fields]
      | (_, _) :: _ => simp [Layout.fields]
    have hd := value?_chars d room fuel (level + 1) (f.fields level l ++ r) he.1 (by omega)
      (endsNumber_fields f level l r)
    have hspace := (value?_blanks f.isSpace_afterColon fuel room _).trans hd
    have hrest := fields?_chars l room fuel level r he.2
    have hquote : ∀ q, dropSpace (quote k ++ q) = quote k ++ q := fun q => by
      rw [quote, List.cons_append, dropSpace_cons (by decide)]
    rw [fields?, hquote, key?_quote]
    simp only [bind, Option.bind]
    rw [hspace]
    match l with
    | [] =>
      simp only [Layout.fields, List.append_assoc, List.singleton_append]
      rw [dropSpace_blanks (f.isSpace_gap _), dropSpace_cons (by decide)]
      rfl
    | (k', e) :: l =>
      have hlen : (f.fields level ((k', e) :: l)).length =
          1 + (f.gap (level + 1)).length +
            (quote k' ++ ':' :: (f.afterColon ++ (f.chars (level + 1) e ++ f.fields level l))).length := by
        rw [Layout.fields]
        simp only [List.length_cons, List.length_append]
        omega
      simp only [Layout.fields, List.append_assoc, List.cons_append]
      rw [dropSpace_cons (by decide)]
      simp only
      rw [fields?_blanks (f.isSpace_gap _), hrest (by omega)]
      rfl

end

/-- A document of a moderate depth comes back from its text in any layout. -/
theorem parse_chars {d : Document} (h : d.Exact 127) : parse (String.ofList (f.chars 0 d)) = some d := by
  unfold parse
  simp only [String.toList_ofList]
  have := value?_chars f d 127 ((f.chars 0 d).length + 1) 0 [] h (by omega) (by simp [EndsNumber])
  rw [List.append_nil] at this
  rw [this]
  rfl

theorem parse_pretty {d : Document} (h : d.Exact 127) : parse (pretty d) = some d := by
  rw [← parse_chars .pretty h, Layout.chars_pretty, pretty]

theorem parse_compact {d : Document} (h : d.Exact 127) : parse (compact d) = some d := by
  rw [← parse_chars .compact h, Layout.chars_compact, compact]

end Json

end ImageRecipe
