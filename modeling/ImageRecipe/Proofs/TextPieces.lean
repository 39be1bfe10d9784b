import ImageRecipe.Proofs.FileNames
import ImageRecipe.Proofs.Instants
import ImageRecipe.Text.Split

/-! A text that is put together from pieces is cut into these pieces: at a character, into words, into lines and into
stanzas. -/

namespace ImageRecipe.Text

variable {c : Char} {a b l w acc r s : List Char}

/-! ### At a character -/

theorem cutFirst_append (h : c ∉ a) (r : List Char) : cutFirst c (a ++ c :: r) = some (a, r) := by
  induction a with
  | nil => simp [cutFirst]
  | cons d a ih =>
    rw [List.mem_cons, not_or] at h
    simp [cutFirst, Ne.symm h.1, ih h.2]

theorem cutFirst_eq_none (h : c ∉ a) : cutFirst c a = none := by
  induction a with
  | nil => rfl
  | cons d a ih =>
    rw [List.mem_cons, not_or] at h
    simp [cutFirst, Ne.symm h.1, ih h.2]

theorem cutLast_append (h : c ∉ b) (a : List Char) : cutLast c (a ++ c :: b) = some (a, b) := by
  have hrev : (a ++ c :: b).reverse = b.reverse ++ c :: a.reverse := by simp
  simp [cutLast, hrev, cutFirst_append (List.mem_reverse.not.2 h)]

theorem cutLast_eq_none (h : c ∉ a) : cutLast c a = none := by
  simp [cutLast, cutFirst_eq_none (List.mem_reverse.not.2 h)]

/-- What stands before and behind the first occurrence of a character is told by the whole. -/
theorem append_cons_inj (ha : c ∉ a) (hb : c ∉ b) (h : a ++ c :: r = b ++ c :: s) : a = b ∧ r = s := by
  have hcut := cutFirst_append ha r
  rw [h, cutFirst_append hb] at hcut
  exact (Prod.mk.inj (Option.some.inj hcut)).imp Eq.symm Eq.symm

/-- The same for the last occurrence. -/
theorem append_cons_inj_last (hr : c ∉ r) (hs : c ∉ s) (h : a ++ c :: r = b ++ c :: s) : a = b ∧ r = s := by
  have hcut := cutLast_append hr a
  rw [h, cutLast_append hs] at hcut
  exact (Prod.mk.inj (Option.some.inj hcut)).imp Eq.symm Eq.symm

/-- A prefix is dropped from a text with one more character as it is from the text, unless the character is one of
its own. -/
theorem dropStart?_concat : ∀ {p : List Char}, c ∉ p → ∀ l, dropStart? p (l ++ [c]) = (dropStart? p l).map (· ++ [c])
  | [], _, _ => rfl
  | d :: p, h, [] => by simp [dropStart?, (List.ne_of_not_mem_cons h).symm]
  | d :: p, h, e :: l => by
    rw [List.cons_append, dropStart?, dropStart?]
    split
    · exact dropStart?_concat (List.not_mem_of_not_mem_cons h) l
    · rfl

theorem dropStart?_eq_none {p : List Char} (h : ¬ p <+: l) : dropStart? p l = none :=
  Option.eq_none_iff_forall_ne_some.2 fun r hr => h ⟨r, (eq_append_of_dropStart? hr).symm⟩

/-! ### Into words -/

/-- A word: characters without a blank among them, one at least. -/
def IsWord (w : List Char) : Prop := w ≠ [] ∧ ∀ c ∈ w, isBlank c = false

instance : DecidablePred IsWord := fun w =>
  decidable_of_iff (w ≠ [] ∧ w.all (fun c => !isBlank c) = true) (by simp [IsWord])

theorem IsWord.notMem (hw : IsWord w) (hc : isBlank c = true) : c ∉ w := fun hm => by
  simp [hw.2 c hm] at hc

theorem IsWord.append (hw : IsWord w) (ha : ∀ c ∈ a, isBlank c = false) : IsWord (w ++ a) :=
  ⟨by simp [hw.1], fun c hc => (List.mem_append.1 hc).elim (hw.2 c) (ha c)⟩

private theorem wordsFrom_append (h : ∀ c ∈ w, isBlank c = false) (acc r : List Char) :
    wordsFrom acc (w ++ r) = wordsFrom (w.reverse ++ acc) r := by
  induction w generalizing acc with
  | nil => rfl
  | cons d w ih =>
    simp [wordsFrom, h d List.mem_cons_self, ih fun c hc => h c (.tail d hc)]

theorem words_append_blank (hw : IsWord w) (hc : isBlank c = true) (r : List Char) :
    words (w ++ c :: r) = w :: words r := by
  simp [words, wordsFrom_append hw.2, wordsFrom, hc, hw.1]

theorem words_word (hw : IsWord w) : words w = [w] := by
  have := wordsFrom_append hw.2 [] []
  simpa [words, wordsFrom, hw.1] using this

theorem words_concat_blank (hc : isBlank c = true) (cs : List Char) : words (cs ++ [c]) = words cs := by
  have hfrom : ∀ acc, wordsFrom acc (cs ++ [c]) = wordsFrom acc cs := by
    induction cs with
    | nil =>
      intro acc
      by_cases hacc : acc = [] <;> simp [wordsFrom, hc, hacc]
    | cons d cs ih =>
      intro acc
      rw [List.cons_append, wordsFrom, wordsFrom]
      simp only [ih]
  exact hfrom []

/-! ### Into lines -/

private theorem linesFrom_append (h : '\n' ∉ l) (acc r : List Char) :
    linesFrom acc (l ++ r) = linesFrom (l.reverse ++ acc) r := by
  induction l generalizing acc with
  | nil => rfl
  | cons d l ih =>
    rw [List.mem_cons, not_or] at h
    rw [List.cons_append, linesFrom, ih h.2, List.reverse_cons, List.append_assoc, List.singleton_append]
    exact fun heq => h.1 heq.symm

/-- A line that ends is read without a carriage return before its end. -/
theorem exists_lines_append (h : '\n' ∉ l) (r : List Char) :
    ∃ x, (l = x ∨ l = x ++ ['\r']) ∧ lines (l ++ '\n' :: r) = x :: lines r := by
  rw [lines, linesFrom_append h, List.append_nil]
  by_cases hreturn : ∃ m, l.reverse = '\r' :: m
  · obtain ⟨m, hm⟩ := hreturn
    refine ⟨m.reverse, .inr (by rw [← List.reverse_reverse l, hm, List.reverse_cons]), ?_⟩
    rw [hm, linesFrom]
    rfl
  · refine ⟨l, .inl rfl, ?_⟩
    rw [linesFrom, List.reverse_reverse]
    · rfl
    · exact fun m hm => hreturn ⟨m, hm⟩

theorem lines_line (h : '\n' ∉ l) : lines l = if l.isEmpty then [] else [l] := by
  have := linesFrom_append h [] []
  simpa [lines, linesFrom] using this

/-- What is looked for line by line, and neither in an empty line nor in a carriage return at the end of one, is
found in the lines that a text was put together from. -/
theorem filterMap_lines {α : Type} {f : List Char → Option α} (hnil : f [] = none)
    (hreturn : ∀ l, f (l ++ ['\r']) = f l) : ∀ {ls : List (List Char)}, (∀ l ∈ ls, '\n' ∉ l) →
    (lines (['\n'].intercalate ls)).filterMap f = ls.filterMap f
  | [], _ => rfl
  | [l], h => by
    rw [List.intercalate_singleton, lines_line (h l List.mem_cons_self)]
    cases l <;> simp [hnil]
  | l :: l' :: ls, h => by
    obtain ⟨x, hx, hlines⟩ := exists_lines_append (h l List.mem_cons_self) (['\n'].intercalate (l' :: ls))
    have hfx : f x = f l := by
      rcases hx with rfl | rfl
      · rfl
      · exact (hreturn x).symm
    rw [List.intercalate_cons_cons, List.append_assoc, List.singleton_append, hlines, List.filterMap_cons,
      List.filterMap_cons, hfx, filterMap_lines hnil hreturn fun m hm => h m (.tail l hm)]

/-! ### Into stanzas -/

private theorem stanzasFrom_append (h : '\n' ∉ l) (acc r : List Char) :
    stanzasFrom acc (l ++ r) = stanzasFrom (l.reverse ++ acc) r := by
  induction l generalizing acc with
  | nil => rfl
  | cons d l ih =>
    rw [List.mem_cons, not_or] at h
    rw [List.cons_append, stanzasFrom, ih h.2, List.reverse_cons, List.append_assoc, List.singleton_append]
    exact fun r' heq => absurd heq.symm h.1

/-- A single line feed does not end a stanza. -/
theorem stanzasFrom_feed (h : ∀ r', r ≠ '\n' :: r') (acc : List Char) :
    stanzasFrom acc ('\n' :: r) = stanzasFrom ('\n' :: acc) r := by
  rw [stanzasFrom]
  exact fun r' _ heq => h r' heq

/-- The lines of a stanza. -/
def Solid (ls : List (List Char)) : Prop := ls ≠ [] ∧ ∀ l ∈ ls, l ≠ [] ∧ '\n' ∉ l

theorem Solid.intercalate_ne_feed {ls : List (List Char)} (h : Solid ls) (t : List Char) :
    ∀ r', ['\n'].intercalate ls ++ t ≠ '\n' :: r' := by
  intro r' heq
  obtain ⟨l, ls, rfl⟩ := List.exists_cons_of_ne_nil h.1
  obtain ⟨hne, hfeed⟩ := h.2 l List.mem_cons_self
  obtain ⟨d, l, rfl⟩ := List.exists_cons_of_ne_nil hne
  have hd : d = '\n' := by
    cases ls with
    | nil =>
      rw [List.intercalate_singleton] at heq
      exact (List.cons.inj heq).1
    | cons l' ls =>
      rw [List.intercalate_cons_cons] at heq
      exact (List.cons.inj heq).1
  exact hfeed (hd ▸ List.mem_cons_self)

/-- Lines with something on them stay in one stanza. -/
theorem Solid.stanzasFrom_append : ∀ {ls : List (List Char)}, Solid ls → ∀ acc r,
    stanzasFrom acc (['\n'].intercalate ls ++ r) = stanzasFrom ((['\n'].intercalate ls).reverse ++ acc) r
  | [], h, _, _ => absurd rfl h.1
  | [l], h, acc, r => by
    rw [List.intercalate_singleton, Text.stanzasFrom_append (h.2 l List.mem_cons_self).2]
  | l :: l' :: ls, h, acc, r => by
    have hrest : Solid (l' :: ls) := ⟨List.cons_ne_nil _ _, fun m hm => h.2 m (.tail l hm)⟩
    rw [List.intercalate_cons_cons, List.append_assoc, List.append_assoc,
      Text.stanzasFrom_append (h.2 l List.mem_cons_self).2, List.singleton_append,
      stanzasFrom_feed (hrest.intercalate_ne_feed r), hrest.stanzasFrom_append]
    simp

end ImageRecipe.Text
