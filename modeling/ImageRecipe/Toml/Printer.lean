import ImageRecipe.Document.Basic
import ImageRecipe.Text.Number
import ImageRecipe.Text.Hex

/-! TOML texts of documents. A text is quoted in the plainest form that can hold it. -/

namespace ImageRecipe.Toml

/-- The form in which a text is quoted. -/
inductive Quotation where
  | basic
  | literal
  | multiBasic
  | multiLiteral
  deriving DecidableEq, Repr

/-- Control characters, which only an escape can give; a tab and an end of line are none of them. -/
def isControl (c : Char) : Bool := (c.toNat < 32 && c ≠ '\t' && c ≠ '\n') || c.toNat = 127

/-- Whether a character occurs three times in a row. -/
def occursThrice (c : Char) (cs : List Char) : Bool :=
  match cs with
  | [] => false
  | d :: r => [c, c, c].isPrefixOf (d :: r) || occursThrice c r

namespace Quotation

/-- Whether a form can hold a text without an escape, except that basic forms write a tab as one. -/
def fits (cs : List Char) : Quotation → Bool
  | basic => !cs.any fun c => isControl c || c = '\n' || c = '\\' || c = '\x22'
  | literal => !cs.any fun c => isControl c || c = '\n' || c = '\x27'
  | multiBasic => !cs.any (fun c => isControl c || c = '\\') && !occursThrice '\x22' cs
  | multiLiteral => !cs.any isControl && !occursThrice '\x27' cs

/-- The form that a text is quoted in. -/
def choose (cs : List Char) : Quotation :=
  if basic.fits cs then basic
  else if literal.fits cs then literal
  else if multiBasic.fits cs then multiBasic
  else if multiLiteral.fits cs then multiLiteral
  else if cs.contains '\n' then multiBasic
  else basic

end Quotation

/-- The escape of a character of a basic text. A quote is not among them, and an end of line stands for
itself where the text goes over `several` lines. -/
def escape? (several : Bool) (c : Char) : Option (List Char) :=
  if c = '\x08' then some ['\\', 'b']
  else if c = '\t' then some ['\\', 't']
  else if c = '\n' then if several then none else some ['\\', 'n']
  else if c = '\x0c' then some ['\\', 'f']
  else if c = '\r' then some ['\\', 'r']
  else if c = '\\' then some ['\\', '\\']
  else if isControl c then
    some ['\\', 'u', '0', '0', Text.upperHexDigit (c.toNat / 16), Text.upperHexDigit (c.toNat % 16)]
  else none

/-- The body of a basic text, given how many quotes stand right before it. Over several lines the third
quote in a row is escaped, else every one. -/
def basicBody (several : Bool) : Nat → List Char → List Char
  | _, [] => []
  | quotes, c :: r =>
    if c = '\x22' then
      if several && quotes < 2 then c :: basicBody several (quotes + 1) r
      else '\\' :: c :: basicBody several 0 r
    else
      match escape? several c with
      | some e => e ++ basicBody several 0 r
      | none => c :: basicBody several 0 r

/-- An end of line before a text that has one itself. -/
def openingLine (cs : List Char) : List Char := if cs.contains '\n' then ['\n'] else []

def quoteAs (q : Quotation) (cs : List Char) : List Char :=
  match q with
  | .basic => '\x22' :: (basicBody false 0 cs ++ ['\x22'])
  | .literal => '\x27' :: (cs ++ ['\x27'])
  | .multiBasic =>
    List.replicate 3 '\x22' ++ openingLine cs ++ basicBody true 0 cs ++ List.replicate 3 '\x22'
  | .multiLiteral => List.replicate 3 '\x27' ++ openingLine cs ++ cs ++ List.replicate 3 '\x27'

def quote (s : String) : List Char := quoteAs (Quotation.choose s.toList) s.toList

/-- The greatest integer that a text can hold. -/
def integerLimit : Int := 9223372036854775807

/-- The text of a value that stands on one line with its key. -/
def scalarText? : Document → Option (List Char)
  | .text s => some (quote s)
  | .int (.ofNat n) => if Int.ofNat n ≤ integerLimit then some (Text.digits n) else none
  | .list [] => some ['[', ']']
  | _ => none

/-- Pairs of a key and a value, each on a line of its own. -/
def pairLines? : List (String × Document) → Option (List Char)
  | [] => some []
  | (k, d) :: r => do
    let value ← scalarText? d
    let rest ← pairLines? r
    pure (k.toList ++ ' ' :: '=' :: ' ' :: (value ++ '\n' :: rest))

/-- A table with its header, behind an empty line. -/
def tableText? (header : List Char) : Document → Option (List Char)
  | .table fields => (pairLines? fields).map fun body => '\n' :: (header ++ '\n' :: body)
  | _ => none

def tableTexts? (header : List Char) : List Document → Option (List Char)
  | [] => some []
  | d :: r => do
    let first ← tableText? header d
    let rest ← tableTexts? header r
    pure (first ++ rest)

/-- Tables and lists of tables, one after the other. -/
def sectionTexts? : List (String × Document) → Option (List Char)
  | [] => some []
  | (k, d) :: r => do
    let name := k.toList
    let first ← match d with
      | .list l => tableTexts? ('[' :: '[' :: (name ++ [']', ']'])) l
      | d => tableText? ('[' :: (name ++ [']'])) d
    let rest ← sectionTexts? r
    pure (first ++ rest)

/-- Whether a value has a section of its own. -/
def isSection : Document → Bool
  | .table _ => true
  | .list (_ :: _) => true
  | _ => false

/-- The text of a table whose keys are plain words: first the values, then the tables and lists of tables.
There is none for a number that the format cannot hold. -/
def render? (fields : List (String × Document)) : Option String := do
  let pairs ← pairLines? (fields.filter fun f => !isSection f.2)
  let sections ← sectionTexts? (fields.filter fun f => isSection f.2)
  pure (String.ofList (pairs ++ sections))

end ImageRecipe.Toml
