import ImageRecipe.Plan.BuildFile

/-! A reader of build files. A line that begins with a number sign is a comment, a backslash before a line feed
continues a directive on the next line, and every other line feed closes a directive. What the reader takes for a
directive keeps to one such line, and a text that does is read as one directive. -/

namespace ImageRecipe

namespace Text

/-- Whether every line feed of a text follows a backslash; one at its beginning may follow a backslash in front of
the text. The last text of a line must not end in a backslash either. -/
def keepsLineFrom (last escaped : Bool) : List Char → Bool
  | [] => !last || !escaped
  | c :: r => (escaped || c != '\n') && keepsLineFrom last (c == '\\') r

/-- Whether a text, as the last or another part of a line, neither ends the line nor takes in the next one. -/
def keepsLine (last : Bool) (s : String) : Bool := keepsLineFrom last false s.toList

/-- Whether a backslash comes last in a text, given whether one comes before it. -/
def escapedAfter (escaped : Bool) (cs : List Char) : Bool := cs.foldl (fun _ c => c == '\\') escaped

variable {last escaped : Bool} {x : List Char} {c : Char}

theorem keepsLineFrom_append (last : Bool) (y : List Char) : ∀ (x : List Char) (escaped : Bool),
    keepsLineFrom last escaped (x ++ y) =
      (keepsLineFrom false escaped x && keepsLineFrom last (escapedAfter escaped x) y)
  | [], _ => by simp [keepsLineFrom, escapedAfter]
  | c :: x, _ => by
    simp only [List.cons_append, keepsLineFrom, keepsLineFrom_append last y x, Bool.and_assoc]
    rfl

theorem keepsLineFrom_true :
    keepsLineFrom true escaped x = (keepsLineFrom false escaped x && !escapedAfter escaped x) := by
  simpa [keepsLineFrom] using keepsLineFrom_append true [] x escaped

theorem keepsLineFrom_concat :
    keepsLineFrom last escaped (x ++ [c]) = (keepsLineFrom false escaped x &&
      (escapedAfter escaped x || c != '\n') && (!last || c != '\\')) := by
  simp [keepsLineFrom_append, keepsLineFrom, Bool.and_assoc, bne]

theorem escapedAfter_reverse (x : List Char) : escapedAfter false x.reverse = (x.head? == some '\\') := by
  cases x <;> simp [escapedAfter]

end Text

namespace BuildFile

/-- Where a reader stands in a build file. -/
inductive Place where
  | lineStart
  | comment
  /-- In a directive, with what is read of it so far, the last character in front. -/
  | directive (text : List Char)
  deriving DecidableEq

def addToDirective (text : List Char) (c : Char) : Place × Option (List Char) :=
  if c = '\n' ∧ text.head? ≠ some '\\' then (.lineStart, some text.reverse) else (.directive (c :: text), none)

/-- Take in a character; the directive that it closes comes with it. -/
def Place.step : Place → Char → Place × Option (List Char)
  | lineStart, c => if c = '#' then (comment, none) else addToDirective [] c
  | comment, c => (if c = '\n' then lineStart else comment, none)
  | directive text, c => addToDirective text c

/-- The directives that are closed while a text is read, and where the reader stands after it. -/
def readFrom : Place → List Char → List (List Char) × Place
  | p, [] => ([], p)
  | p, c :: r =>
    let (next, closed?) := p.step c
    let (texts, last) := readFrom next r
    (closed?.toList ++ texts, last)

/-- The directives of a build file, unless the last of them is not closed. -/
def read? (s : String) : Option (List String) :=
  match readFrom .lineStart s.toList with
  | (_, .directive _) => none
  | (texts, _) => some (texts.map String.ofList)

theorem read?_eq_some_iff {s : String} {texts : List String} :
    read? s = some texts ↔
      ∃ p, readFrom .lineStart s.toList = (texts.map String.toList, p) ∧ ∀ text, p ≠ .directive text := by
  have hlists : ∀ xs : List (List Char), xs.map String.ofList = texts ↔ xs = texts.map String.toList := by
    intro xs
    constructor
    · rintro rfl
      simp
    · rintro rfl
      simp
  unfold read?
  rcases readFrom .lineStart s.toList with ⟨xs, p⟩
  cases p <;> simp [hlists, and_assoc]

variable {p q : Place} {text x y : List Char} {xs : List (List Char)}

theorem readFrom_append (h : readFrom p x = (xs, q)) :
    readFrom p (x ++ y) = (xs ++ (readFrom q y).1, (readFrom q y).2) := by
  induction x generalizing p xs with
  | nil => cases h; rfl
  | cons c x ih =>
    simp only [readFrom, Prod.mk.injEq] at h
    obtain ⟨rfl, rfl⟩ := h
    simp only [List.cons_append, readFrom, ih rfl, List.append_assoc]

def Place.IsSound : Place → Prop
  | directive text => Text.keepsLineFrom false false text.reverse = true
  | _ => True

theorem addToDirective_sound {c : Char} (h : (Place.directive text).IsSound) :
    (addToDirective text c).1.IsSound ∧
      ∀ d ∈ (addToDirective text c).2, Text.keepsLineFrom true false d = true := by
  have htext : Text.keepsLineFrom false false text.reverse = true := h
  unfold addToDirective
  split
  next hc => simp [Place.IsSound, Text.keepsLineFrom_true, Text.escapedAfter_reverse, htext, hc.2]
  next hc =>
    simp only [Place.IsSound, List.reverse_cons, Text.keepsLineFrom_concat, htext, Text.escapedAfter_reverse]
    by_cases hn : c = '\n' <;> simp_all

theorem Place.step_sound {c : Char} (h : p.IsSound) :
    (p.step c).1.IsSound ∧ ∀ d ∈ (p.step c).2, Text.keepsLineFrom true false d = true := by
  cases p with
  | lineStart =>
    have hempty : (directive []).IsSound := rfl
    by_cases hc : c = '#'
    · simp [step, hc, IsSound]
    · simpa [step, hc] using addToDirective_sound hempty
  | comment => by_cases hc : c = '\n' <;> simp [step, hc, IsSound]
  | directive text => exact addToDirective_sound h

/-- What is read as a directive keeps to one line. -/
theorem keepsLine_of_mem_readFrom (h : p.IsSound) :
    ∀ d ∈ (readFrom p x).1, Text.keepsLineFrom true false d = true := by
  induction x generalizing p with
  | nil => simp [readFrom]
  | cons c x ih =>
    obtain ⟨hnext, hclosed⟩ := Place.step_sound (c := c) h
    intro d hd
    rcases List.mem_append.1 hd with hd | hd
    · exact hclosed d (Option.mem_toList.1 hd)
    · exact ih hnext d hd

/-- A text that keeps to one line is read to its end as a part of the directive that it continues. -/
theorem readFrom_directive (text : List Char) (h : Text.keepsLineFrom true (text.head? == some '\\') x = true) :
    readFrom (.directive text) (x ++ ['\n']) = ([text.reverse ++ x], .lineStart) := by
  induction x generalizing text with
  | nil => simp_all [readFrom, Place.step, addToDirective, Text.keepsLineFrom]
  | cons c x ih =>
    simp only [Text.keepsLineFrom, Bool.and_eq_true, Bool.or_eq_true, beq_iff_eq, bne_iff_ne] at h
    have hc : ¬(c = '\n' ∧ text.head? ≠ some '\\') := fun hc => h.1.elim hc.2 (· hc.1)
    have ih := @ih (c :: text) (by simpa using h.2)
    simp [readFrom, Place.step, addToDirective, hc, ih]

theorem readFrom_lineStart_cons {c : Char} (hc : c ≠ '#') :
    readFrom .lineStart (c :: x) = readFrom (.directive []) (c :: x) := by
  simp only [readFrom, Place.step, if_neg hc]

/-- A text that keeps to one line and does not begin like a comment is read as one directive. -/
theorem readFrom_lineStart (h : Text.keepsLineFrom true false x = true) (hx : x.head? ≠ some '#') :
    readFrom .lineStart (x ++ ['\n']) = ([x], .lineStart) := by
  cases x with
  | nil => rfl
  | cons c x =>
    have hc : c ≠ '#' := fun hc => hx (by rw [hc]; rfl)
    exact (readFrom_lineStart_cons hc).trans (readFrom_directive [] h)

theorem readFrom_directive_of_nil (h : readFrom (.directive text) x = ([], q)) : q ≠ .lineStart := by
  induction x generalizing text with
  | nil =>
    cases h
    simp
  | cons c x ih =>
    simp only [readFrom, Place.step, addToDirective, Prod.mk.injEq, List.append_eq_nil_iff,
      Option.toList_eq_nil_iff] at h
    obtain ⟨⟨hclosed, hnil⟩, hlast⟩ := h
    split at hclosed
    · cases hclosed
    next hc =>
      rw [if_neg hc] at hnil hlast
      exact ih (Prod.ext hnil hlast)

/-- A line ends where a line begins or where a directive goes on. -/
theorem readFrom_concat : (readFrom p (x ++ ['\n'])).2 = .lineStart ∨
    ∃ text, (readFrom p (x ++ ['\n'])).2 = .directive ('\n' :: text) := by
  rw [readFrom_append (q := (readFrom p x).2) rfl]
  cases (readFrom p x).2 with
  | lineStart => exact .inl rfl
  | comment => exact .inl rfl
  | directive text =>
    by_cases h : text.head? = some '\\'
    · exact .inr ⟨text, by simp [readFrom, Place.step, addToDirective, h]⟩
    · exact .inl (by simp [readFrom, Place.step, addToDirective, h])

/-- Whether every line of a text but the first begins with a number sign. -/
def staysComment : List Char → Bool
  | [] => true
  | c :: r => (c != '\n' || r.head? == some '#') && staysComment r

theorem readFrom_comment_cons {c : Char} :
    readFrom .comment (c :: x) = readFrom (if c = '\n' then .lineStart else .comment) x := rfl

/-- A comment of several lines is read as nothing but a comment if each of them is marked as one. -/
theorem readFrom_comment_iff :
    readFrom .comment (x ++ ['\n']) = ([], .lineStart) ↔ staysComment x = true := by
  induction x with
  | nil => simp [readFrom, Place.step, staysComment]
  | cons c x ih =>
    rw [List.cons_append, readFrom_comment_cons]
    -- after a line feed the next character says whether the comment goes on; if not, a directive has begun
    by_cases hc : c = '\n'
    · cases x with
      | nil => simp [hc, staysComment, readFrom, Place.step, addToDirective]
      | cons d x =>
        by_cases hd : d = '#'
        · subst hc hd
          exact ih
        · have hopen : readFrom (.directive []) (d :: (x ++ ['\n'])) ≠ ([], .lineStart) :=
            fun h => readFrom_directive_of_nil h rfl
          simp [hc, staysComment, hd, readFrom_lineStart_cons hd, hopen]
    · rw [if_neg hc, ih]
      simp [staysComment, hc]

end BuildFile

end ImageRecipe
