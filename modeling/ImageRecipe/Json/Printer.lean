import ImageRecipe.Document.Basic
import ImageRecipe.Text.Number
import ImageRecipe.Text.Hex

/-! JSON texts of documents, compact and indented. -/

namespace ImageRecipe.Json

/-- Quotes, backslashes and control characters are escaped; all else stands for itself. -/
def escape (c : Char) : List Char :=
  if c = '\x22' then ['\\', '\x22']
  else if c = '\\' then ['\\', '\\']
  else if c = '\x08' then ['\\', 'b']
  else if c = '\x09' then ['\\', 't']
  else if c = '\x0a' then ['\\', 'n']
  else if c = '\x0c' then ['\\', 'f']
  else if c = '\x0d' then ['\\', 'r']
  else if c.toNat < 32 then
    ['\\', 'u', '0', '0', Text.hexDigit (c.toNat / 16), Text.hexDigit (c.toNat % 16)]
  else [c]

def quote (s : String) : List Char := '\x22' :: (s.toList.flatMap escape ++ ['\x22'])

def ofInt : Int → List Char
  | .ofNat n => Text.digits n
  | .negSucc n => '-' :: Text.digits (n + 1)

mutual

/-- A document without any space. -/
def compactChars : Document → List Char
  | .null | .real | .moment | .skipped => ['n', 'u', 'l', 'l']
  | .bool true => ['t', 'r', 'u', 'e']
  | .bool false => ['f', 'a', 'l', 's', 'e']
  | .int i => ofInt i
  | .text s => quote s
  | .list items => '[' :: compactItems items
  | .table fields => '\x7b' :: compactFields fields

def compactItems : List Document → List Char
  | [] => [']']
  | [d] => compactChars d ++ [']']
  | d :: r => compactChars d ++ ',' :: compactItems r

def compactFields : List (String × Document) → List Char
  | [] => ['\x7d']
  | [(k, d)] => quote k ++ ':' :: (compactChars d ++ ['\x7d'])
  | (k, d) :: r => quote k ++ ':' :: (compactChars d ++ ',' :: compactFields r)

end

/-- A new line with two spaces for each level. -/
def newLine (level : Nat) : List Char := '\n' :: List.replicate (2 * level) ' '

mutual

/-- A document with each item and each field on a line of its own. -/
def prettyChars (level : Nat) : Document → List Char
  | .null | .real | .moment | .skipped => ['n', 'u', 'l', 'l']
  | .bool true => ['t', 'r', 'u', 'e']
  | .bool false => ['f', 'a', 'l', 's', 'e']
  | .int i => ofInt i
  | .text s => quote s
  | .list [] => ['[', ']']
  | .list (d :: r) => '[' :: (newLine (level + 1) ++ (prettyChars (level + 1) d ++ prettyItems level r))
  | .table [] => ['\x7b', '\x7d']
  | .table ((k, d) :: r) =>
    '\x7b' :: (newLine (level + 1) ++ (quote k ++ ':' :: ' ' :: (prettyChars (level + 1) d ++ prettyFields level r)))

def prettyItems (level : Nat) : List Document → List Char
  | [] => newLine level ++ [']']
  | d :: r => ',' :: (newLine (level + 1) ++ (prettyChars (level + 1) d ++ prettyItems level r))

def prettyFields (level : Nat) : List (String × Document) → List Char
  | [] => newLine level ++ ['\x7d']
  | (k, d) :: r =>
    ',' :: (newLine (level + 1) ++ (quote k ++ ':' :: ' ' :: (prettyChars (level + 1) d ++ prettyFields level r)))

end

def compact (d : Document) : String := String.ofList (compactChars d)

def pretty (d : Document) : String := String.ofList (prettyChars 0 d)

end ImageRecipe.Json
