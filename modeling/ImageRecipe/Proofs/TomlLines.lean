import ImageRecipe.Toml.Reader
import ImageRecipe.Proofs.JsonTokens
import ImageRecipe.Proofs.TomlQuotes

/-! The lines of a TOML text come back one by one: a pair of a plain key and a value, and a header behind an
empty line. -/

namespace ImageRecipe.Toml

/-! Numbers. -/

private theorem moreDigits_append {ds r : List Char} (hds : ∀ c ∈ ds, Text.isDigit c = true) :
    moreDigits Text.isDigit (ds ++ '\n' :: r) = some (ds, '\n' :: r) := by
  induction ds with
  | nil => simp [moreDigits, Text.isDigit]
  | cons c ds ih =>
    rw [List.forall_mem_cons] at hds
    have hc : c ≠ '_' := by
      rintro rfl
      exact absurd hds.1 (by decide)
    rw [List.cons_append, moreDigits, if_pos hds.1, ih hds.2]
    · rfl
    · exact fun _ _ h => absurd h hc
    · exact fun h => absurd h hc

private theorem wholeDigits_digits (n : Nat) (r : List Char) :
    wholeDigits (Text.digits n ++ '\n' :: r) = some (Text.digits n, '\n' :: r) := by
  have hall : ∀ c ∈ Text.digits n, Text.isDigit c = true := fun c hc => Json.isDigit_of_mem_digits hc
  cases hd : Text.digits n with
  | nil => exact absurd hd Nat.toDigits_ne_nil
  | cons c ds =>
    rw [hd, List.forall_mem_cons] at hall
    by_cases hc : c = '0'
    · subst hc
      cases ds with
      | nil => rfl
      | cons d ds => exact absurd hd Json.digits_zero_cons
    · rw [List.cons_append, wholeDigits]
      · rw [digitRun, if_pos hall.1, moreDigits_append hall.2]
        rfl
      · exact fun _ h => absurd (List.cons.inj h).1 hc

private theorem integer?_ofNat {n : Nat} (h : (n : Int) ≤ integerLimit) :
    integer? false n = some (.ofNat n) := by
  unfold integer? integerLimit at *
  simp only [Bool.false_eq_true, if_false, Int.ofNat_eq_natCast]
  rw [if_pos (by simp; omega)]
  rfl

private theorem unsigned?_digits {n : Nat} (h : (n : Int) ≤ integerLimit) (r : List Char) :
    unsigned? false (Text.digits n ++ '\n' :: r) = some (.ofNat n, '\n' :: r) := by
  have hn : Text.ofDigits (Text.digits n) = n := Nat.ofDigitChars_ten_toDigits
  unfold unsigned?
  rw [wholeDigits_digits]
  simp only [Option.bind_eq_bind, Option.bind_some, hn, integer?_ofNat h]
  rfl

/-- No date and no time of day begins with digits up to the end of a line. -/
private theorem beginsMoment_append {ds r : List Char} (hds : ∀ c ∈ ds, Text.isDigit c = true) :
    beginsMoment (ds ++ '\n' :: r) = false := by
  have hcolon : ∀ c ∈ ds, c ≠ ':' := by
    rintro c hc rfl
    exact absurd (hds _ hc) (by decide)
  have hdash : ∀ c ∈ ds, c ≠ '-' := by
    rintro c hc rfl
    exact absurd (hds _ hc) (by decide)
  have hline : Text.isDigit '\n' = false := by decide
  unfold beginsMoment
  split
  · match ds with
    | [] | [_] | [_, _] | _ :: _ :: _ :: _ => grind
  · match ds with
    | [] | [_] | [_, _] | [_, _, _] | [_, _, _, _] | _ :: _ :: _ :: _ :: _ :: _ => grind
  · rfl

/-- No letter of another base stands behind a leading zero. -/
private theorem digits_append_ne (n : Nat) {c : Char} (hc : c ≠ '\n') (r s : List Char) :
    Text.digits n ++ '\n' :: r ≠ '0' :: c :: s := by
  intro h
  match hd : Text.digits n with
  | [] => exact Nat.toDigits_ne_nil hd
  | [_] =>
    rw [hd, List.singleton_append, List.cons.injEq, List.cons.injEq] at h
    exact hc h.2.1.symm
  | d :: e :: ds =>
    rw [hd, List.cons_append, List.cons.injEq] at h
    exact Json.digits_zero_cons (h.1 ▸ hd)

/-- A number comes back from its digits at the end of a line. -/
theorem number?_digits {n : Nat} (h : (n : Int) ≤ integerLimit) (r : List Char) :
    number? (Text.digits n ++ '\n' :: r) = some (.ofNat n, '\n' :: r) := by
  have hread := unsigned?_digits h r
  have hzero : ∀ c s, c ≠ '\n' → Text.digits n ++ '\n' :: r ≠ '0' :: c :: s :=
    fun c s hc => digits_append_ne n hc r s
  have hall : ∀ c ∈ Text.digits n, Text.isDigit c = true := fun c hc => Json.isDigit_of_mem_digits hc
  obtain ⟨c, ds, hd, hc⟩ := Json.digits_cons n
  have hhead : ∀ d s, Text.isDigit d = false → Text.digits n ++ '\n' :: r ≠ d :: s := by
    rintro d s hdigit heq
    rw [hd, List.cons_append, List.cons.injEq] at heq
    rw [← heq.1, hc] at hdigit
    cases hdigit
  have hspecial : special? (Text.digits n ++ '\n' :: r) = none := by
    unfold special?
    split
    · next heq => exact absurd heq (hhead _ _ (by decide))
    · next heq => exact absurd heq (hhead _ _ (by decide))
    · rfl
  unfold number?
  rw [beginsMoment_append hall, if_neg Bool.false_ne_true]
  split
  · next heq => exact absurd heq (hzero _ _ (by decide))
  · next heq => exact absurd heq (hzero _ _ (by decide))
  · next heq => exact absurd heq (hzero _ _ (by decide))
  · next heq => exact absurd heq (hhead _ _ (by decide))
  · next heq => exact absurd heq (hhead _ _ (by decide))
  · rw [hspecial, hread]
    rfl

/-! Values. -/

/-- What begins with no bracket, brace or letter is a quoted text or a number. -/
private theorem value?_cons {c : Char} (hc : c ≠ '[' ∧ c ≠ '\x7b' ∧ c ≠ 't' ∧ c ≠ 'f') (fuel room : Nat)
    (cs : List Char) :
    value? (fuel + 1) room (c :: cs) =
      if c = '\x22' || c = '\x27' then (quoted? (c :: cs)).map fun p => (.text (String.ofList p.1), p.2)
      else number? (c :: cs) := by
  rw [value?]
  · exact hc.1
  · exact hc.2.1
  · exact fun _ h => absurd h hc.2.2.1
  · exact fun _ h => absurd h hc.2.2.2

/-- A value that stands on one line with its key comes back from its text. -/
theorem value?_scalarText {d : Document} {v : List Char} (h : scalarText? d = some v) (fuel room : Nat)
    (r : List Char) : value? (fuel + 1) (room + 1) (v ++ '\n' :: r) = some (d, '\n' :: r) := by
  unfold scalarText? at h
  split at h
  · next s =>
    cases h
    obtain ⟨c, cs, hquote, hc⟩ := quote_cons s
    have hread := quoted?_quote s (r := '\n' :: r) ⟨by simp, by simp⟩
    rw [hquote, List.cons_append] at hread ⊢
    have hne : c ≠ '[' ∧ c ≠ '\x7b' ∧ c ≠ 't' ∧ c ≠ 'f' := by
      rcases hc with rfl | rfl <;> decide
    rw [value?_cons hne, if_pos (by simpa using hc), hread]
    simp
  · next n =>
    split at h
    · next hle =>
      cases h
      obtain ⟨c, cs, hd, hc⟩ := Json.digits_cons n
      have hread := number?_digits hle r
      rw [hd, List.cons_append] at hread ⊢
      have hne : c ≠ '[' ∧ c ≠ '\x7b' ∧ c ≠ 't' ∧ c ≠ 'f' := by
        refine ⟨?_, ?_, ?_, ?_⟩ <;> (rintro rfl; revert hc; decide)
      have hquote : ¬(decide (c = '\x22') || decide (c = '\x27')) = true := by
        rw [Bool.or_eq_true, decide_eq_true_eq, decide_eq_true_eq]
        rintro (rfl | rfl) <;> (revert hc; decide)
      rw [value?_cons hne, if_neg hquote, hread]
      rfl
    · cases h
  · cases h
    rfl
  · cases h

/-- A value's text begins with no blank. -/
theorem scalarText?_cons {d : Document} {v : List Char} (h : scalarText? d = some v) :
    ∃ c cs, v = c :: cs ∧ isBlank c = false := by
  unfold scalarText? at h
  split at h
  · next s =>
    cases h
    obtain ⟨c, cs, hquote, rfl | rfl⟩ := quote_cons s
    · exact ⟨_, cs, hquote, by decide⟩
    · exact ⟨_, cs, hquote, by decide⟩
  · next n =>
    split at h
    · cases h
      obtain ⟨c, cs, hd, hc⟩ := Json.digits_cons n
      refine ⟨c, cs, hd, ?_⟩
      simp only [isBlank, Bool.or_eq_false_iff, decide_eq_false_iff_not]
      constructor <;> (rintro rfl; revert hc; decide)
    · cases h
  · cases h
    exact ⟨'[', _, rfl, by decide⟩
  · cases h

/-! Keys. -/

/-- A key of one plain word, which needs no quotes. -/
def IsBareKey (k : String) : Prop := k.toList ≠ [] ∧ ∀ c ∈ k.toList, isBareKeyChar c = true

instance (k : String) : Decidable (IsBareKey k) :=
  decidable_of_iff (k.toList ≠ [] ∧ k.toList.all isBareKeyChar = true) (by simp [IsBareKey])

namespace IsBareKey

variable {k : String}

theorem cons (h : IsBareKey k) : ∃ c cs, k.toList = c :: cs ∧ isBareKeyChar c = true := by
  cases hk : k.toList with
  | nil => exact absurd hk h.1
  | cons c cs => exact ⟨c, cs, rfl, h.2 c (hk ▸ List.mem_cons_self)⟩

end IsBareKey

/-- What is no part of a word is no letter. -/
private theorem ne_of_isBareKeyChar {c d : Char} (hc : isBareKeyChar c = true) (hd : isBareKeyChar d = false) :
    c ≠ d := by
  rintro rfl
  rw [hc] at hd
  cases hd

private theorem dropBlanks_cons {c : Char} (h : isBlank c = false) (r : List Char) :
    dropBlanks (c :: r) = c :: r := by
  simp [dropBlanks, h]

private theorem dropBlanks_space (r : List Char) : dropBlanks (' ' :: r) = dropBlanks r := by
  simp [dropBlanks, isBlank]

private theorem isBlank_of_isBareKeyChar {c : Char} (h : isBareKeyChar c = true) : isBlank c = false := by
  simp only [isBlank, Bool.or_eq_false_iff, decide_eq_false_iff_not]
  exact ⟨ne_of_isBareKeyChar h (by decide), ne_of_isBareKeyChar h (by decide)⟩

private theorem simpleKey?_append {k : String} (hk : IsBareKey k) {c : Char} (hc : isBareKeyChar c = false)
    (r : List Char) : simpleKey? (k.toList ++ c :: r) = some (k, c :: r) := by
  obtain ⟨d, cs, hcons, hd⟩ := hk.cons
  have htake : (k.toList ++ c :: r).takeWhile isBareKeyChar = k.toList := by
    rw [List.takeWhile_append_of_pos hk.2]
    simp [hc]
  have hdrop : (k.toList ++ c :: r).dropWhile isBareKeyChar = c :: r := by
    rw [List.dropWhile_append_of_pos hk.2]
    simp [hc]
  unfold simpleKey?
  split
  · next heq =>
    rw [hcons, List.cons_append, List.cons.injEq] at heq
    exact absurd heq.1 (ne_of_isBareKeyChar hd (by decide))
  · next heq =>
    rw [hcons, List.cons_append, List.cons.injEq] at heq
    exact absurd heq.1 (ne_of_isBareKeyChar hd (by decide))
  · dsimp only
    rw [htake, hdrop, if_neg (by simpa using hk.1), String.ofList_toList]

/-- A plain key comes back with what stands behind it, less the blanks before that. -/
theorem key?_append {k : String} (hk : IsBareKey k) {c : Char} {r : List Char}
    (hc : isBareKeyChar c = false) (hdot : ∀ s, dropBlanks (c :: r) ≠ '.' :: s) :
    key? (k.toList ++ c :: r) = some (([], k), dropBlanks (c :: r)) := by
  obtain ⟨d, cs, hcons, hd⟩ := hk.cons
  have hblank : dropBlanks (k.toList ++ c :: r) = k.toList ++ c :: r := by
    rw [hcons, List.cons_append, dropBlanks_cons (isBlank_of_isBareKeyChar hd)]
  have hparts : keyParts? (depthLimit - 1) (k.toList ++ c :: r) = some ([k], dropBlanks (c :: r)) := by
    rw [show depthLimit - 1 = 78 + 1 from rfl, keyParts?, hblank, simpleKey?_append hk hc]
    dsimp only [bind, Option.bind]
    split
    · next heq => exact absurd heq (hdot _)
    · rfl
  rw [key?, hparts]
  rfl

/-! Lines. -/

/-- A pair is read up to the end of its line. -/
theorem line?_pair {k : String} (hk : IsBareKey k) {d : Document} {v : List Char}
    (hv : scalarText? d = some v) (r : List Char) :
    line? (k.toList ++ ' ' :: '=' :: ' ' :: (v ++ '\n' :: r)) = some (.pair ([], k, d), r) := by
  obtain ⟨c, cs, hcons, hc⟩ := hk.cons
  obtain ⟨x, xs, hx, hblank⟩ := scalarText?_cons hv
  have hopen : c ≠ '[' := ne_of_isBareKeyChar hc (by decide)
  have hequals : ∀ r, dropBlanks (' ' :: '=' :: r) = '=' :: r := fun r => by
    rw [dropBlanks_space, dropBlanks_cons (by decide)]
  have hkey := key?_append hk (c := ' ') (r := '=' :: ' ' :: (v ++ '\n' :: r)) (by decide)
    (by simp [hequals])
  rw [hequals] at hkey
  have hvalue : dropBlanks (' ' :: (v ++ '\n' :: r)) = v ++ '\n' :: r := by
    rw [dropBlanks_space, hx, List.cons_append, dropBlanks_cons hblank]
  have hread := value?_scalarText hv (v ++ '\n' :: r).length (depthLimit - 2) r
  rw [hcons, List.cons_append] at hkey ⊢
  rw [line?]
  · simp only [hkey, Option.bind_eq_bind, Option.bind_some, behind?, if_true, hvalue]
    rw [show depthLimit - 1 = depthLimit - 2 + 1 from rfl, hread]
    rfl
  · exact fun _ h => absurd (List.cons.inj h).1 hopen
  · exact fun _ h => absurd (List.cons.inj h).1 hopen

/-- The header of a list of tables is read up to the end of its line. -/
theorem line?_tables {k : String} (hk : IsBareKey k) (r : List Char) :
    line? ('[' :: '[' :: (k.toList ++ [']', ']']) ++ '\n' :: r) = some (.tables [] k, r) := by
  have hkey : key? (k.toList ++ ([']', ']'] ++ '\n' :: r)) = _ :=
    key?_append hk (c := ']') (r := ']' :: '\n' :: r) (by decide)
      (by simp [dropBlanks_cons (show isBlank ']' = false by decide)])
  rw [List.cons_append, List.cons_append, List.append_assoc, line?, hkey]
  rfl

/-- The header of a table is read up to the end of its line. -/
theorem line?_table {k : String} (hk : IsBareKey k) (r : List Char) :
    line? ('[' :: (k.toList ++ [']']) ++ '\n' :: r) = some (.table [] k, r) := by
  obtain ⟨c, cs, hcons, hc⟩ := hk.cons
  have hopen : c ≠ '[' := ne_of_isBareKeyChar hc (by decide)
  have hkey := key?_append hk (c := ']') (r := '\n' :: r) (by decide)
    (by simp [dropBlanks_cons (show isBlank ']' = false by decide)])
  rw [List.cons_append, List.append_assoc, List.singleton_append]
  rw [hcons, List.cons_append] at hkey ⊢
  rw [line?]
  · rw [hkey]
    rfl
  · exact fun _ h => absurd (List.cons.inj h).1 hopen

/-- What a line begins with: neither a blank nor a comment. -/
def BeginsLine (cs : List Char) : Prop :=
  ∃ c r, cs = c :: r ∧ isBlank c = false ∧ c ≠ '#' ∧ c ≠ '\n' ∧ c ≠ '\r'

private theorem beginsLine_open (r : List Char) : BeginsLine ('[' :: r) := ⟨'[', r, rfl, by decide⟩

private theorem IsBareKey.beginsLine {k : String} (hk : IsBareKey k) (r : List Char) :
    BeginsLine (k.toList ++ r) := by
  obtain ⟨c, cs, hcons, hc⟩ := hk.cons
  refine ⟨c, cs ++ r, by rw [hcons, List.cons_append], isBlank_of_isBareKeyChar hc, ?_, ?_, ?_⟩
  · exact ne_of_isBareKeyChar hc (by decide)
  · exact ne_of_isBareKeyChar hc (by decide)
  · exact ne_of_isBareKeyChar hc (by decide)

private theorem BeginsLine.dropLines {cs : List Char} (h : BeginsLine cs) (fuel : Nat) :
    dropLines fuel cs = cs := by
  obtain ⟨c, r, rfl, hblank, hcomment, hn, hr⟩ := h
  cases fuel with
  | zero => rfl
  | succ fuel =>
    have hdrop : dropComment (dropBlanks (c :: r)) = c :: r := by
      rw [dropBlanks_cons hblank, dropComment]
      exact fun _ h => absurd (List.cons.inj h).1 hcomment
    rw [Toml.dropLines, hdrop]
    split
    · next heq => exact absurd (List.cons.inj heq).1 hn
    · next heq => exact absurd (List.cons.inj heq).1 hr
    · rfl

/-- A line comes before the lines of what follows it. -/
private theorem lines?_cons {cs r : List Char} {l : Line} (hb : BeginsLine cs) (hl : line? cs = some (l, r))
    (fuel : Nat) : lines? (fuel + 1) cs = (lines? fuel r).map (l :: ·) := by
  obtain ⟨c, cs, rfl, -⟩ := id hb
  rw [lines?, hb.dropLines]
  simp only [hl, Option.bind_eq_bind, Option.bind_some]

/-- An empty line before a line is passed over. -/
private theorem lines?_newLine {cs : List Char} (hb : BeginsLine cs) (fuel : Nat) :
    lines? fuel ('\n' :: cs) = lines? fuel cs := by
  cases fuel with
  | zero => rfl
  | succ fuel =>
    have hdrop : Toml.dropLines ('\n' :: cs).length ('\n' :: cs) = cs := hb.dropLines cs.length
    rw [lines?, lines?, hb.dropLines, hdrop]

/-- A text spells lines if they are what is read of it, whatever follows. -/
structure Spells (cs : List Char) (ls : List Line) : Prop where
  length_le : ls.length ≤ cs.length
  lines : ∀ fuel r, lines? (fuel + ls.length) (cs ++ r) = (lines? fuel r).map (ls ++ ·)

namespace Spells

variable {cs cs' : List Char} {ls ls' : List Line} {l : Line}

theorem nil : Spells [] [] := ⟨Nat.le_refl _, fun fuel r => by simp⟩

theorem append (h : Spells cs ls) (h' : Spells cs' ls') : Spells (cs ++ cs') (ls ++ ls') where
  length_le := by
    have := h.length_le
    have := h'.length_le
    simp only [List.length_append]
    omega
  lines fuel r := by
    rw [List.append_assoc, List.length_append, Nat.add_comm ls.length, ← Nat.add_assoc, h.lines, h'.lines,
      Option.map_map]
    simp only [Function.comp_def, List.append_assoc]

/-- A line on its own. -/
theorem line (hb : ∀ r, BeginsLine (cs ++ r)) (hl : ∀ r, line? (cs ++ '\n' :: r) = some (l, r)) :
    Spells (cs ++ ['\n']) [l] where
  length_le := by simp
  lines fuel r := by
    rw [List.append_assoc, List.singleton_append, List.length_singleton]
    exact lines?_cons (hb _) (hl r) fuel

/-- A line behind an empty one. -/
theorem newLine (hb : ∀ r, BeginsLine (cs ++ r)) (h : Spells cs ls) : Spells ('\n' :: cs) ls where
  length_le := Nat.le_succ_of_le h.length_le
  lines fuel r := by
    rw [List.cons_append, lines?_newLine (hb r), h.lines]

/-- What a whole text spells is all that is read of it. -/
theorem lines?_eq (h : Spells cs ls) : lines? (cs.length + 1) cs = some ls := by
  obtain ⟨n, hn⟩ := Nat.exists_eq_add_of_le h.length_le
  have hread := h.lines (n + 1) []
  have hend : lines? (n + 1) [] = some [] := by simp [lines?, Toml.dropLines]
  rw [List.append_nil, hend] at hread
  rw [hn, show ls.length + n + 1 = n + 1 + ls.length by omega, hread]
  simp

end Spells

/-- A pair as a line. -/
def pairLine (f : String × Document) : Line := .pair ([], f.1, f.2)

/-- Pairs come back line by line. -/
theorem spells_pairLines {fields : List (String × Document)} {cs : List Char}
    (hcs : pairLines? fields = some cs) (hk : ∀ f ∈ fields, IsBareKey f.1) :
    Spells cs (fields.map pairLine) := by
  induction fields generalizing cs with
  | nil =>
    cases hcs
    exact .nil
  | cons f fields ih =>
    obtain ⟨k, d⟩ := f
    rw [List.forall_mem_cons] at hk
    simp only [pairLines?, Option.bind_eq_bind, Option.bind_eq_some_iff, Option.pure_def] at hcs
    obtain ⟨v, hv, rest, hrest, hcs⟩ := hcs
    cases hcs
    have hfirst : Spells (k.toList ++ ' ' :: '=' :: ' ' :: v ++ ['\n']) [pairLine (k, d)] := by
      refine .line (fun r => ?_) (fun r => ?_)
      · rw [List.append_assoc]
        exact hk.1.beginsLine _
      · rw [List.append_assoc]
        exact line?_pair hk.1 hv r
    simpa using hfirst.append (ih hrest hk.2)

/-- The header of a list of tables comes back from behind an empty line. -/
theorem spells_tablesHeader {k : String} (hk : IsBareKey k) :
    Spells ('\n' :: ('[' :: '[' :: (k.toList ++ [']', ']']) ++ ['\n'])) [.tables [] k] :=
  .newLine (fun _ => beginsLine_open _) (.line (fun _ => beginsLine_open _) (line?_tables hk))

/-- The header of a table comes back from behind an empty line. -/
theorem spells_tableHeader {k : String} (hk : IsBareKey k) :
    Spells ('\n' :: ('[' :: (k.toList ++ [']']) ++ ['\n'])) [.table [] k] :=
  .newLine (fun _ => beginsLine_open _) (.line (fun _ => beginsLine_open _) (line?_table hk))

end ImageRecipe.Toml
