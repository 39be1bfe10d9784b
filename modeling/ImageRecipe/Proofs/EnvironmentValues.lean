import ImageRecipe.Plan.Directive
import ImageRecipe.Proofs.TextPieces

/-! A variable of the environment is read back from its directive, whatever characters its value has. Every quote and
every backslash of a quoted value is escaped, so that the first quote without an escape is the closing one, and a value
that is written without quotes has none that could be taken for the opening one. -/

namespace ImageRecipe

namespace Text

/-- A text in which each occurrence of a character gives way to other characters. -/
def replaced (c : Char) (instead cs : List Char) : List Char := cs.flatMap fun d => if d = c then instead else [d]

/-- Whether the character behind a text is escaped: a backslash escapes what is behind it, unless it is escaped
itself. -/
def escapesNext (cs : List Char) : Bool := cs.foldl (fun escaped c => !escaped && c = '\\') false

end Text

namespace Directive

open Text

/-! ### Reading -/

/-- The text that an escaped text stands for. A backslash in front of any other character stands for itself. -/
def unescapeEnv : List Char → List Char
  | '\\' :: '\\' :: r => '\\' :: unescapeEnv r
  | '\\' :: '\x22' :: r => '\x22' :: unescapeEnv r
  | c :: r => c :: unescapeEnv r
  | [] => []

/-- What stands before the first quote that is not escaped, and behind it. -/
def cutAtQuote : List Char → Option (List Char × List Char)
  | [] => none
  | '\x22' :: r => some ([], r)
  | '\\' :: c :: r => (cutAtQuote r).map fun p => ('\\' :: c :: p.1, p.2)
  | c :: r => (cutAtQuote r).map fun p => (c :: p.1, p.2)

/-- The value that stands behind the equals sign, between quotes or as it is. -/
def readEnvValue? : List Char → Option (List Char)
  | '\x22' :: r => if r.getLast? = some '\x22' then some (unescapeEnv r.dropLast) else none
  | r => some r

/-- The key and the value of an environment directive. The key ends at the first equals sign. -/
def readEnv? (directive : String) : Option (String × String) := do
  let assignment ← dropStart? "ENV ".toList directive.toList
  let (key, r) ← cutFirst '=' assignment
  let value ← readEnvValue? r
  pure (String.ofList key, String.ofList value)

/-! ### Escaped texts -/

theorem escapeEnv_cases (c : Char) : escapeEnv c = ['\\', c] ∧ (c = '\\' ∨ c = '\x22') ∨
    escapeEnv c = [c] ∧ c ≠ '\\' ∧ c ≠ '\x22' := by
  unfold escapeEnv
  by_cases hb : c = '\\'
  · simp [hb]
  · by_cases hq : c = '\x22' <;> simp [hb, hq]

/-- Escaping is putting two backslashes for each one first, and then a backslash in front of each quote. -/
theorem flatMap_escapeEnv (cs : List Char) :
    cs.flatMap escapeEnv = replaced '\x22' ['\\', '\x22'] (replaced '\\' ['\\', '\\'] cs) := by
  unfold replaced
  rw [List.flatMap_assoc]
  refine List.flatMap_congr fun c _ => ?_
  obtain ⟨h, rfl | rfl⟩ | ⟨h, hb, hq⟩ := escapeEnv_cases c
  · rfl
  · rfl
  · simp [h, hb, hq]

theorem unescapeEnv_cons {c : Char} (h : c ≠ '\\') (r : List Char) : unescapeEnv (c :: r) = c :: unescapeEnv r := by
  rw [unescapeEnv.eq_def]
  split <;> simp_all

theorem unescapeEnv_flatMap (cs : List Char) : unescapeEnv (cs.flatMap escapeEnv) = cs := by
  induction cs with
  | nil => rfl
  | cons c cs ih =>
    rw [List.flatMap_cons]
    obtain ⟨h, rfl | rfl⟩ | ⟨h, hb, -⟩ := escapeEnv_cases c
    · simp [h, unescapeEnv, ih]
    · simp [h, unescapeEnv, ih]
    · rw [h, List.singleton_append, unescapeEnv_cons hb, ih]

theorem cutAtQuote_cons {c : Char} (hb : c ≠ '\\') (hq : c ≠ '\x22') (r : List Char) :
    cutAtQuote (c :: r) = (cutAtQuote r).map fun p => (c :: p.1, p.2) := by
  rw [cutAtQuote.eq_def]
  split <;> simp_all

/-- No quote of an escaped text ends it. -/
theorem cutAtQuote_flatMap (cs r : List Char) :
    cutAtQuote (cs.flatMap escapeEnv ++ '\x22' :: r) = some (cs.flatMap escapeEnv, r) := by
  induction cs with
  | nil => rfl
  | cons c cs ih =>
    rw [List.flatMap_cons, List.append_assoc]
    obtain ⟨h, -⟩ | ⟨h, hb, hq⟩ := escapeEnv_cases c
    · simp [h, cutAtQuote, ih]
    · rw [h, List.singleton_append, cutAtQuote_cons hb hq, ih]
      rfl

/-- Every quote of an escaped text is escaped. -/
theorem escapesNext_of_flatMap {cs a b : List Char} (h : cs.flatMap escapeEnv = a ++ '\x22' :: b) :
    escapesNext a = true := by
  induction cs generalizing a with
  | nil => simp at h
  | cons c cs ih =>
    rw [List.flatMap_cons] at h
    obtain ⟨hc, -⟩ | ⟨hc, hb, hq⟩ := escapeEnv_cases c
    · -- the pair stands before the quote, or the quote is the second of it
      rw [hc] at h
      match a, h with
      | [], h => simp at h
      | [d], h =>
        obtain rfl : d = '\\' := by simpa using (List.cons.inj h).1.symm
        rfl
      | d :: e :: a, h =>
        simp only [List.cons_append, List.nil_append, List.cons.injEq] at h
        obtain ⟨rfl, rfl, h⟩ := h
        have := ih h
        simpa [escapesNext] using this
    · rw [hc] at h
      match a, h with
      | [], h => exact absurd (List.cons.inj h).1 hq
      | d :: a, h =>
        simp only [List.cons_append, List.nil_append, List.cons.injEq] at h
        obtain ⟨rfl, h⟩ := h
        have := ih h
        simpa [escapesNext, hb] using this

/-! ### Directives -/

variable {key value : String}

theorem toList_render_env (key value : String) : (env key value).render.toList =
    "ENV ".toList ++ (key.toList ++ '=' :: if needsQuotes value then
      '\x22' :: (value.toList.flatMap escapeEnv ++ ['\x22']) else value.toList) := by
  dsimp only [render]
  split <;> simp

/-- A value that needs no quotes does not begin with one. -/
theorem ne_quote_of_needsQuotes (h : needsQuotes value = false) (r : List Char) : value.toList ≠ '\x22' :: r := by
  intro heq
  simp [needsQuotes, heq] at h

theorem readEnvValue?_quoted (cs : List Char) :
    readEnvValue? ('\x22' :: (cs.flatMap escapeEnv ++ ['\x22'])) = some cs := by
  rw [readEnvValue?, List.getLast?_concat, if_pos rfl, List.dropLast_concat, unescapeEnv_flatMap]

theorem readEnvValue?_plain (h : needsQuotes value = false) : readEnvValue? value.toList = some value.toList := by
  rw [readEnvValue?.eq_def]
  split
  · next r heq => exact absurd heq (ne_quote_of_needsQuotes h r)
  · rfl

/-- The key and the value of an environment directive are read as they were. -/
theorem readEnv?_env (hkey : '=' ∉ key.toList) (value : String) : readEnv? (env key value).render = some (key, value) := by
  unfold readEnv?
  rw [toList_render_env, dropStart?_append, Option.bind_eq_bind, Option.bind_some, cutFirst_append hkey]
  cases hq : needsQuotes value with
  | true => simp [readEnvValue?_quoted]
  | false => simp [readEnvValue?_plain hq]

/-- What a quoted value is written as. -/
theorem quotes_of_render {r : List Char} (hkey : '=' ∉ key.toList)
    (h : (env key value).render.toList = "ENV ".toList ++ (key.toList ++ '=' :: '\x22' :: r)) :
    r = value.toList.flatMap escapeEnv ++ ['\x22'] := by
  rw [toList_render_env] at h
  have hr := (append_cons_inj hkey hkey (List.append_cancel_left h)).2
  cases hq : needsQuotes value with
  | true =>
    rw [hq, if_pos rfl] at hr
    exact (List.cons.inj hr).2.symm
  | false =>
    rw [hq, if_neg nofun] at hr
    exact absurd hr (ne_quote_of_needsQuotes hq r)

/-- A variable whose key has no equals sign is read back from its directive with its value. If the value is quoted, each
of its backslashes is doubled and then each of its quotes escaped, and the first quote that is not escaped is the last
character of the directive. So no other variable has the same directive. -/
theorem env_lossless (hkey : '=' ∉ key.toList) (value : String) :
    readEnv? (env key value).render = some (key, value) ∧
      (∀ r, (env key value).render.toList = "ENV ".toList ++ (key.toList ++ '=' :: '\x22' :: r) →
        ∃ body, r = body ++ ['\x22'] ∧ cutAtQuote r = some (body, []) ∧
          body = replaced '\x22' ['\\', '\x22'] (replaced '\\' ['\\', '\\'] value.toList) ∧
          ∀ a b, body = a ++ '\x22' :: b → escapesNext a = true) ∧
      ∀ key' value' : String, '=' ∉ key'.toList → (env key value).render = (env key' value').render →
        key = key' ∧ value = value' := by
  refine ⟨readEnv?_env hkey value, fun r hr => ?_, fun key' value' hkey' heq => ?_⟩
  · obtain rfl := quotes_of_render hkey hr
    exact ⟨_, rfl, cutAtQuote_flatMap _ [], flatMap_escapeEnv _, fun a b => escapesNext_of_flatMap⟩
  · have hback := readEnv?_env hkey value
    rw [heq, readEnv?_env hkey' value'] at hback
    exact (Prod.mk.inj (Option.some.inj hback)).imp Eq.symm Eq.symm

/-- A value with a quote in front of a backslash, told from the value with the two the other way round. -/
theorem env_lossless_sample :
    '=' ∉ "A".toList ∧ (env "A" "\x22\\").render = "ENV A=\x22\\\x22\\\\\x22" ∧
      readEnv? (env "A" "\x22\\").render = some ("A", "\x22\\") ∧
      cutAtQuote ['\\', '\x22', '\\', '\\', '\x22'] = some (['\\', '\x22', '\\', '\\'], []) ∧
      (env "A" "\x22\\").render ≠ (env "A" "\\\x22").render := by
  have hkey : '=' ∉ "A".toList := by decide
  obtain ⟨hread, hquoted, hinj⟩ := env_lossless hkey "\x22\\"
  obtain ⟨body, hbody, hcut, -⟩ := hquoted ['\\', '\x22', '\\', '\\', '\x22'] (by decide)
  obtain rfl : ['\\', '\x22', '\\', '\\'] = body := List.append_cancel_right hbody
  exact ⟨hkey, by decide, hread, hcut, fun h => absurd (hinj "A" "\\\x22" hkey h).2 (by decide)⟩

end Directive

end ImageRecipe
