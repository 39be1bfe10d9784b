import ImageRecipe.Proofs.JsonTokens

/-! The compact text of a document tells the document, as long as nothing in it is written as null that is
not. -/

namespace ImageRecipe

namespace Document

mutual

/-- Whether a document is told by its text: what is neither a text nor an integer of some size, a list or a
table is written as null. -/
def Told : Document → Prop
  | .real | .moment | .skipped => False
  | .list items => ToldItems items
  | .table fields => ToldFields fields
  | .null | .bool _ | .int _ | .text _ => True

def ToldItems : List Document → Prop
  | [] => True
  | d :: r => Told d ∧ ToldItems r

def ToldFields : List (String × Document) → Prop
  | [] => True
  | (_, d) :: r => Told d ∧ ToldFields r

end

/-- A character for the kind of a document. -/
def mark : Document → Char
  | .null | .real | .moment | .skipped => 'n'
  | .bool true => 't'
  | .bool false => 'f'
  | .int _ => '0'
  | .text _ => '\x22'
  | .list _ => '['
  | .table _ => '\x7b'

end Document

namespace Json

open Document

/-- The kind of the documents whose texts begin with a character. -/
def markOf (c : Char) : Char := if Text.isDigit c = true ∨ c = '-' then '0' else c

theorem compactChars_cons (d : Document) : ∃ c r, compactChars d = c :: r ∧ markOf c = d.mark := by
  match d with
  | .null | .real | .moment | .skipped => exact ⟨'n', _, by rw [compactChars], by decide⟩
  | .bool true => exact ⟨'t', _, by rw [compactChars], by decide⟩
  | .bool false => exact ⟨'f', _, by rw [compactChars], by decide⟩
  | .int i =>
    obtain ⟨c, r, h, hc⟩ := ofInt_cons i
    exact ⟨c, r, by rw [compactChars, h], if_pos hc⟩
  | .text s => exact ⟨'\x22', _, by rw [compactChars, quote], by rw [mark]; decide⟩
  | .list items => exact ⟨'[', _, by rw [compactChars], by rw [mark]; decide⟩
  | .table fields => exact ⟨'\x7b', _, by rw [compactChars], by rw [mark]; decide⟩

theorem mark_eq {d d' : Document} {r r' : List Char} (h : compactChars d ++ r = compactChars d' ++ r') :
    d.mark = d'.mark := by
  obtain ⟨c, cs, hc, hd⟩ := compactChars_cons d
  obtain ⟨c', cs', hc', hd'⟩ := compactChars_cons d'
  rw [hc, hc', List.cons_append, List.cons_append] at h
  rw [← hd, ← hd', (List.cons.inj h).1]

/-- A document does not begin with what ends a list or a table or parts its items. -/
theorem compactChars_ne_cons {d : Document} {r r' : List Char} {c : Char} (hc : c ∈ [']', '\x7d', ',']) :
    c :: r ≠ compactChars d ++ r' := by
  obtain ⟨c', cs, hd, hm⟩ := compactChars_cons d
  rw [hd, List.cons_append]
  intro h
  rw [← (List.cons.inj h).1] at hm
  have hmark : markOf c = c := by
    simp only [List.mem_cons, List.not_mem_nil, or_false] at hc
    rcases hc with rfl | rfl | rfl <;> decide
  rw [hmark] at hm
  have hne : ∀ d : Document, d.mark ∉ [']', '\x7d', ','] := by
    intro d
    fun_cases mark d <;> decide
  exact hne d (hm ▸ hc)

theorem quote_append_inj {s s' : String} {r r' : List Char} (h : quote s ++ r = quote s' ++ r') :
    s = s' ∧ r = r' := by
  unfold quote at h
  simp only [List.cons_append, List.append_assoc, List.cons.injEq, true_and] at h
  have := congrArg text? h
  rw [text?_quote, text?_quote] at this
  simpa using this

private theorem digits_append_inj {n n' : Nat} {r r' : List Char} (hr : EndsNumber r) (hr' : EndsNumber r')
    (h : Text.digits n ++ r = Text.digits n' ++ r') : n = n' ∧ r = r' := by
  have hdigits : Text.digits n = Text.digits n' := by
    rw [← (takeWhile_digits n hr).1, h, (takeWhile_digits n' hr').1]
  refine ⟨?_, ?_⟩
  · rw [← Nat.ofDigitChars_ten_toDigits (n := n), ← Nat.ofDigitChars_ten_toDigits (n := n')]
    exact congrArg (Nat.ofDigitChars 10 · 0) hdigits
  · rw [hdigits] at h
    exact List.append_cancel_left h

theorem ofInt_append_inj {i i' : Int} {r r' : List Char} (hr : EndsNumber r) (hr' : EndsNumber r')
    (h : ofInt i ++ r = ofInt i' ++ r') : i = i' ∧ r = r' := by
  have hminus : ∀ n (q q' : List Char), Text.digits n ++ q ≠ '-' :: q' := by
    intro n q q' heq
    obtain ⟨c, cs, hc, hdigit⟩ := digits_cons n
    rw [hc, List.cons_append] at heq
    rw [(List.cons.inj heq).1] at hdigit
    exact absurd hdigit (by decide)
  cases i with
  | ofNat n =>
    cases i' with
    | ofNat n' =>
      obtain ⟨rfl, hr⟩ := digits_append_inj hr hr' h
      exact ⟨rfl, hr⟩
    | negSucc n' => exact (hminus _ _ _ h).elim
  | negSucc n =>
    cases i' with
    | ofNat n' => exact (hminus _ _ _ h.symm).elim
    | negSucc n' =>
      obtain ⟨heq, hr⟩ := digits_append_inj hr hr' (List.cons.inj h).2
      exact ⟨by rw [Nat.succ.inj heq], hr⟩

/-- What follows the items of a list from the second on. -/
def itemsTail : List Document → List Char
  | [] => [']']
  | d :: l => ',' :: compactItems (d :: l)

def fieldsTail : List (String × Document) → List Char
  | [] => ['\x7d']
  | f :: l => ',' :: compactFields (f :: l)

theorem compactItems_cons (d : Document) (l : List Document) :
    compactItems (d :: l) = compactChars d ++ itemsTail l := by
  cases l <;> rfl

theorem compactFields_cons (k : String) (d : Document) (l : List (String × Document)) :
    compactFields ((k, d) :: l) = quote k ++ ':' :: (compactChars d ++ fieldsTail l) := by
  cases l <;> rfl

private theorem endsNumber_itemsTail (l : List Document) (r : List Char) : EndsNumber (itemsTail l ++ r) := by
  cases l <;> exact endsNumber_cons (by decide)

private theorem endsNumber_fieldsTail (l : List (String × Document)) (r : List Char) :
    EndsNumber (fieldsTail l ++ r) := by
  cases l <;> exact endsNumber_cons (by decide)

/-- A document whose text begins like that of another one is of its kind. -/
private theorem sameKind {d d' : Document} (hd : d.Told) (hd' : d'.Told) (h : d.mark = d'.mark) :
    match d with
    | .null => d' = .null
    | .bool b => d' = .bool b
    | .int _ => ∃ i, d' = .int i
    | .text _ => ∃ s, d' = .text s
    | .list _ => ∃ l, d' = .list l
    | .table _ => ∃ l, d' = .table l
    | .real | .moment | .skipped => False := by
  revert h hd hd'
  fun_cases mark d <;> fun_cases mark d' <;> simp [Told, mark]

mutual

/-- Where a document ends is seen from its text, and the text tells the document. -/
theorem compactChars_append_inj : ∀ (d d' : Document) {r r' : List Char}, d.Told → d'.Told → EndsNumber r →
    EndsNumber r' → compactChars d ++ r = compactChars d' ++ r' → d = d' ∧ r = r'
  | .null, d', r, r', hd, hd', _, _, h => by
    have heq := sameKind hd hd' (mark_eq h)
    rw [heq] at h ⊢
    exact ⟨rfl, List.append_cancel_left h⟩
  | .bool b, d', r, r', hd, hd', _, _, h => by
    have heq := sameKind hd hd' (mark_eq h)
    rw [heq] at h ⊢
    exact ⟨rfl, List.append_cancel_left h⟩
  | .int i, d', r, r', hd, hd', hr, hr', h => by
    obtain ⟨i', rfl⟩ := sameKind hd hd' (mark_eq h)
    rw [compactChars, compactChars] at h
    obtain ⟨rfl, hrest⟩ := ofInt_append_inj hr hr' h
    exact ⟨rfl, hrest⟩
  | .text s, d', r, r', hd, hd', _, _, h => by
    obtain ⟨s', rfl⟩ := sameKind hd hd' (mark_eq h)
    rw [compactChars, compactChars] at h
    obtain ⟨rfl, hrest⟩ := quote_append_inj h
    exact ⟨rfl, hrest⟩
  | .list l, d', r, r', hd, hd', _, _, h => by
    obtain ⟨l', rfl⟩ := sameKind hd hd' (mark_eq h)
    rw [compactChars, compactChars] at h
    obtain ⟨rfl, hrest⟩ := compactItems_append_inj l l' hd hd' (List.cons.inj h).2
    exact ⟨rfl, hrest⟩
  | .table l, d', r, r', hd, hd', _, _, h => by
    obtain ⟨l', rfl⟩ := sameKind hd hd' (mark_eq h)
    rw [compactChars, compactChars] at h
    obtain ⟨rfl, hrest⟩ := compactFields_append_inj l l' hd hd' (List.cons.inj h).2
    exact ⟨rfl, hrest⟩

theorem compactItems_append_inj : ∀ (l l' : List Document) {r r' : List Char}, ToldItems l → ToldItems l' →
    compactItems l ++ r = compactItems l' ++ r' → l = l' ∧ r = r'
  | [], [], r, r', _, _, h => ⟨rfl, (List.cons.inj h).2⟩
  | [], d :: l, r, r', _, _, h => by
    rw [compactItems_cons, List.append_assoc] at h
    exact absurd h (compactChars_ne_cons (by simp))
  | d :: l, [], r, r', _, _, h => by
    rw [compactItems_cons, List.append_assoc] at h
    exact absurd h.symm (compactChars_ne_cons (by simp))
  | d :: l, d' :: l', r, r', hd, hd', h => by
    rw [compactItems_cons, compactItems_cons, List.append_assoc, List.append_assoc] at h
    obtain ⟨rfl, hrest⟩ := compactChars_append_inj d d' hd.1 hd'.1 (endsNumber_itemsTail _ _)
      (endsNumber_itemsTail _ _) h
    match l, l' with
    | [], [] => exact ⟨rfl, (List.cons.inj hrest).2⟩
    | [], _ :: _ => exact absurd (List.cons.inj hrest).1 (by decide)
    | _ :: _, [] => exact absurd (List.cons.inj hrest).1 (by decide)
    | e :: l, e' :: l' =>
      obtain ⟨hl, hrest⟩ := compactItems_append_inj (e :: l) (e' :: l') hd.2 hd'.2 (List.cons.inj hrest).2
      exact ⟨by rw [hl], hrest⟩

theorem compactFields_append_inj : ∀ (l l' : List (String × Document)) {r r' : List Char}, ToldFields l →
    ToldFields l' → compactFields l ++ r = compactFields l' ++ r' → l = l' ∧ r = r'
  | [], [], r, r', _, _, h => ⟨rfl, (List.cons.inj h).2⟩
  | [], (k, d) :: l, r, r', _, _, h => by
    rw [compactFields_cons] at h
    exact absurd (List.cons.inj h).1 (by decide)
  | (k, d) :: l, [], r, r', _, _, h => by
    rw [compactFields_cons] at h
    exact absurd (List.cons.inj h).1 (by decide)
  | (k, d) :: l, (k', d') :: l', r, r', hd, hd', h => by
    rw [compactFields_cons, compactFields_cons, List.append_assoc, List.append_assoc] at h
    obtain ⟨rfl, hvalue⟩ := quote_append_inj h
    rw [List.cons_append, List.cons_append, List.append_assoc, List.append_assoc] at hvalue
    obtain ⟨rfl, hrest⟩ := compactChars_append_inj d d' hd.1 hd'.1 (endsNumber_fieldsTail _ _)
      (endsNumber_fieldsTail _ _) (List.cons.inj hvalue).2
    match l, l' with
    | [], [] => exact ⟨rfl, (List.cons.inj hrest).2⟩
    | [], _ :: _ => exact absurd (List.cons.inj hrest).1 (by decide)
    | _ :: _, [] => exact absurd (List.cons.inj hrest).1 (by decide)
    | e :: l, e' :: l' =>
      obtain ⟨hl, hrest⟩ := compactFields_append_inj (e :: l) (e' :: l') hd.2 hd'.2 (List.cons.inj hrest).2
      exact ⟨by rw [hl], hrest⟩

end

/-- Documents with one text are one document. -/
theorem compact_injective {d d' : Document} (hd : d.Told) (hd' : d'.Told) (h : compact d = compact d') :
    d = d' := by
  have hchars := congrArg String.toList h
  unfold compact at hchars
  rw [String.toList_ofList, String.toList_ofList] at hchars
  have hend : EndsNumber [] := by simp [EndsNumber]
  exact (compactChars_append_inj d d' hd hd' hend hend (by rw [hchars])).1

end Json

end ImageRecipe
