import ImageRecipe.Json.Numeral
import ImageRecipe.Text.Hex

/-! The parts of JSON texts that hold no other values, and how whole values are passed over. What is
passed over has the right form, but numbers of any size may stand in it and half a surrogate pair. -/

namespace ImageRecipe.Json

def isSpace (c : Char) : Bool := c = ' ' || c = '\n' || c = '\t' || c = '\r'

def dropSpace (cs : List Char) : List Char := cs.dropWhile isSpace

/-- The UTF-16 unit of four hexadecimal digits. -/
def unit? (a b c d : Char) : Option Nat := do
  let a ← Text.hexValue? a
  let b ← Text.hexValue? b
  let c ← Text.hexValue? c
  let d ← Text.hexValue? d
  pure (4096 * a + 256 * b + 16 * c + d)

def isHighHalf (n : Nat) : Bool := 0xD800 ≤ n && n < 0xDC00

def isLowHalf (n : Nat) : Bool := 0xDC00 ≤ n && n < 0xE000

/-- The character of a surrogate pair. -/
def ofHalves (high low : Nat) : Char := Char.ofNat (0x10000 + (high - 0xD800) * 0x400 + (low - 0xDC00))

/-- The character of an escape of one letter. -/
def plainEscape? : Char → Option Char
  | '\x22' => some '\x22'
  | '\\' => some '\\'
  | '/' => some '/'
  | 'b' => some '\x08'
  | 'f' => some '\x0c'
  | 'n' => some '\n'
  | 'r' => some '\r'
  | 't' => some '\t'
  | _ => none

/-- The unit at the beginning of a text. -/
def unit (cs : List Char) : Except Refusal Nat :=
  if byteCount (cs.take 4) < 4 then refuse .endOfText 0 []
  else match cs with
    | a :: b :: c :: d :: _ =>
      match unit? a b c d with
      | some n => .ok n
      | none => refuse .badEscape 4 cs
    | _ => refuse .badEscape 4 cs

/-- Refuse what stands where the second half of a surrogate pair should be. -/
def refuseHalf {α : Type} : List Char → Except Refusal α
  | [] => refuse .endOfText 0 []
  | cs => refuse .cutPair 1 cs

/-- The character of an escape behind its backslash, and how many characters the escape takes. Halves of
surrogate pairs are joined in what is taken in. -/
def escaped (u : Use) (cs : List Char) : Except Refusal (Char × Nat) :=
  match cs with
  | [] => refuse .endOfText 0 []
  | 'u' :: r => do
    let n ← unit r
    if u = .passed then pure (Char.ofNat n, 5)
    else if isLowHalf n then refuse .loneHalf 4 r
    else if isHighHalf n then
      match r.drop 4 with
      | '\\' :: 'u' :: r => do
        let m ← unit r
        if isLowHalf m then pure (ofHalves n m, 11) else refuse .loneHalf 4 r
      | '\\' :: r => refuseHalf r
      | r => refuseHalf r
    else pure (Char.ofNat n, 5)
  | c :: _ =>
    match plainEscape? c with
    | some x => .ok (x, 1)
    | none => refuse .badEscape 1 cs

/-- The characters of a text up to its closing quote, and what follows the quote. -/
def quoted (u : Use) : List Char → Except Refusal (List Char × List Char)
  | [] => refuse .endOfText 0 []
  | '\x22' :: r => .ok ([], r)
  | '\\' :: r => do
    let (x, n) ← escaped u r
    let (xs, rest) ← quoted u (r.drop n)
    pure (x :: xs, rest)
  | c :: r =>
    if c.toNat < 32 then refuse .controlCharacter (match u with | .taken => 1 | .passed => 0) (c :: r)
    else (quoted u r).map fun p => (c :: p.1, p.2)
termination_by cs => cs.length
decreasing_by all_goals simp only [List.length_drop, List.length_cons]; omega

/-- What follows a word. -/
def word : List Char → List Char → Except Refusal (List Char)
  | [], cs => .ok cs
  | _ :: _, [] => refuse .endOfValue 0 []
  | w :: ws, c :: r => if c = w then word ws r else refuse .noWord 1 (c :: r)

/-- Refuse a text that goes on wrong, or for another reason if it does not go on. -/
def refuseNext {α : Type} (atEnd complaint : Complaint) : List Char → Except Refusal α
  | [] => refuse atEnd 0 []
  | cs => refuse complaint 1 cs

/-- What follows the colon between a key and its value. -/
def colon (cs : List Char) : Except Refusal (List Char) :=
  match dropSpace cs with
  | ':' :: r => .ok r
  | r => refuseNext .endOfTable .noColon r

/-- What follows a number, a word or a text. -/
def passScalar (cs : List Char) : Except Refusal (List Char) :=
  match cs with
  | 'n' :: r => word ['u', 'l', 'l'] r
  | 't' :: r => word ['r', 'u', 'e'] r
  | 'f' :: r => word ['a', 'l', 's', 'e'] r
  | '\x22' :: r => (quoted .passed r).map Prod.snd
  | c :: _ =>
    if c = '-' || Text.isDigit c then (Numeral.read .passed cs).map Prod.snd else refuse .noValue 1 cs
  | [] => refuse .endOfValue 0 []

/-- What follows a key with its colon. -/
def passKey (cs : List Char) : Except Refusal (List Char) :=
  match dropSpace cs with
  | '\x22' :: r => do
    let (_, r) ← quoted .passed r
    colon r
  | r => refuseNext .endOfTable .keyIsNoText r

/-- What is to come while a value is passed over: the value itself or the end of the innermost list or
table that is open. -/
inductive Expect where
  | value
  | tail

/-- What follows a value, given for each open list or table whether it is a table. Each step takes a
character, so that the length of the text is fuel enough. -/
def pass : Nat → Expect → List Bool → List Char → Except Refusal (List Char)
  | 0, _, _, cs => refuse .endOfValue 0 cs
  | _ + 1, .tail, [], cs => .ok cs
  | fuel + 1, .tail, true :: opened, cs =>
    match dropSpace cs with
    | ',' :: r => do pass fuel .value (true :: opened) (← passKey r)
    | '\x7d' :: r => pass fuel .tail opened r
    | r => refuseNext .endOfTable .noTableComma r
  | fuel + 1, .tail, false :: opened, cs =>
    match dropSpace cs with
    | ',' :: r => pass fuel .value (false :: opened) r
    | ']' :: r => pass fuel .tail opened r
    | r => refuseNext .endOfList .noListComma r
  | fuel + 1, .value, opened, cs =>
    match dropSpace cs with
    | '[' :: r =>
      match dropSpace r with
      | ']' :: r => pass fuel .tail opened r
      | [] => refuse .endOfList 0 []
      | r => pass fuel .value (false :: opened) r
    | '\x7b' :: r =>
      match dropSpace r with
      | '\x7d' :: r => pass fuel .tail opened r
      | r => do pass fuel .value (true :: opened) (← passKey r)
    | r => do pass fuel .tail opened (← passScalar r)

/-- What follows a value of any kind. -/
def passValue (cs : List Char) : Except Refusal (List Char) := pass (cs.length + 2) .value [] cs

end ImageRecipe.Json
