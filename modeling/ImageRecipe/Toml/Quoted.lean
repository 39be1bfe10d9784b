import ImageRecipe.Text.Hex

/-! The four quoted forms of TOML texts: basic and literal, each on one line or over several. -/

namespace ImageRecipe.Toml

/-- Blanks within a line. -/
def isBlank (c : Char) : Bool := c = ' ' || c = '\t'

/-- Characters that may stand in comments and quoted texts: all but control characters. A tab is
allowed. -/
def isPlain (c : Char) : Bool := c = '\t' || (32 ≤ c.toNat && c.toNat ≠ 127)

/-- The text after an end of line, if it begins with one. -/
def newLine? : List Char → Option (List Char)
  | '\n' :: r => some r
  | '\r' :: '\n' :: r => some r
  | _ => none

/-- The character of a number, unless it is half of a surrogate pair or too great. -/
def scalar? (n : Nat) : Option Char :=
  if n < 0xD800 || (0xDFFF < n && n ≤ 0x10FFFF) then some (Char.ofNat n) else none

/-- The character that a letter behind a backslash stands for. -/
def shortEscape? : Char → Option Char
  | 'b' => some '\x08'
  | 't' => some '\t'
  | 'n' => some '\n'
  | 'f' => some '\x0c'
  | 'r' => some '\r'
  | '\x22' => some '\x22'
  | '\\' => some '\\'
  | _ => none

def consChar (c : Char) (p : List Char × List Char) : List Char × List Char := (c :: p.1, p.2)

/-- A basic text behind its opening quote, and what follows its closing quote. -/
def basic? : List Char → Option (List Char × List Char)
  | [] => none
  | '\x22' :: r => some ([], r)
  | '\\' :: 'u' :: a :: b :: c :: d :: r => do
    let c ← scalar? (← Text.ofHexDigits [a, b, c, d])
    (basic? r).map (consChar c)
  | '\\' :: 'U' :: a :: b :: c :: d :: e :: f :: g :: h :: r => do
    let c ← scalar? (← Text.ofHexDigits [a, b, c, d, e, f, g, h])
    (basic? r).map (consChar c)
  | '\\' :: e :: r => do
    let c ← shortEscape? e
    (basic? r).map (consChar c)
  | c :: r => if isPlain c && c ≠ '\\' then (basic? r).map (consChar c) else none

/-- A basic text over several lines, behind its opening quotes. An end of line behind a backslash is left
out together with all blanks and ends of lines after it, which are being `passed`. -/
def multiBasic? (passed : Bool) : List Char → Option (List Char × List Char)
  | [] => none
  | '\x22' :: '\x22' :: '\x22' :: '\x22' :: '\x22' :: r => some (['\x22', '\x22'], r)
  | '\x22' :: '\x22' :: '\x22' :: '\x22' :: r => some (['\x22'], r)
  | '\x22' :: '\x22' :: '\x22' :: r => some ([], r)
  | '\r' :: '\n' :: r =>
    if passed then multiBasic? true r else (multiBasic? false r).map (consChar '\n')
  | '\\' :: 'u' :: a :: b :: c :: d :: r => do
    let c ← scalar? (← Text.ofHexDigits [a, b, c, d])
    (multiBasic? false r).map (consChar c)
  | '\\' :: 'U' :: a :: b :: c :: d :: e :: f :: g :: h :: r => do
    let c ← scalar? (← Text.ofHexDigits [a, b, c, d, e, f, g, h])
    (multiBasic? false r).map (consChar c)
  | '\\' :: e :: r =>
    if (newLine? ((e :: r).dropWhile isBlank)).isSome then
      if e = '\n' || isBlank e then multiBasic? true r
      else match r with
        | _ :: r => multiBasic? true r
        | [] => none
    else do
      let c ← shortEscape? e
      (multiBasic? false r).map (consChar c)
  | c :: r =>
    if passed && (isBlank c || c = '\n') then multiBasic? true r
    else if (isPlain c && c ≠ '\\') || c = '\n' then (multiBasic? false r).map (consChar c)
    else none

/-- A literal text behind its opening quote. -/
def literal? : List Char → Option (List Char × List Char)
  | [] => none
  | '\x27' :: r => some ([], r)
  | c :: r => if isPlain c then (literal? r).map (consChar c) else none

/-- A literal text over several lines, behind its opening quotes. -/
def multiLiteral? : List Char → Option (List Char × List Char)
  | [] => none
  | '\x27' :: '\x27' :: '\x27' :: '\x27' :: '\x27' :: r => some (['\x27', '\x27'], r)
  | '\x27' :: '\x27' :: '\x27' :: '\x27' :: r => some (['\x27'], r)
  | '\x27' :: '\x27' :: '\x27' :: r => some ([], r)
  | '\r' :: '\n' :: r => (multiLiteral? r).map (consChar '\n')
  | c :: r => if isPlain c || c = '\n' then (multiLiteral? r).map (consChar c) else none

/-- A quoted text in any of its forms. An end of line right behind three opening quotes is left out. -/
def quoted? : List Char → Option (List Char × List Char)
  | '\x22' :: '\x22' :: '\x22' :: r => multiBasic? false ((newLine? r).getD r)
  | '\x22' :: r => basic? r
  | '\x27' :: '\x27' :: '\x27' :: r => multiLiteral? ((newLine? r).getD r)
  | '\x27' :: r => literal? r
  | _ => none

end ImageRecipe.Toml
