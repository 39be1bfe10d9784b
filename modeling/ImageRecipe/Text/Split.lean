import ImageRecipe.Text.Blank

/-! Cutting a text at a character, into lines, into words and at blank lines. -/

namespace ImageRecipe.Text

/-- What stands before and after the first occurrence of a character. -/
def cutFirst (c : Char) : List Char → Option (List Char × List Char)
  | [] => none
  | d :: r => if d = c then some ([], r) else (cutFirst c r).map fun p => (d :: p.1, p.2)

/-- What stands before and after the last occurrence of a character. -/
def cutLast (c : Char) (cs : List Char) : Option (List Char × List Char) :=
  (cutFirst c cs.reverse).map fun p => (p.2.reverse, p.1.reverse)

/-- The text after a given beginning. -/
def dropStart? : List Char → List Char → Option (List Char)
  | [], cs => some cs
  | _ :: _, [] => none
  | p :: ps, c :: cs => if p = c then dropStart? ps cs else none

/-- The lines of a text whose first line begins with the characters of `line`, last first. -/
def linesFrom (line : List Char) : List Char → List (List Char)
  | [] => if line.isEmpty then [] else [line.reverse]
  | '\n' :: r =>
    (match line with
      | '\r' :: l => l.reverse
      | l => l.reverse) :: linesFrom [] r
  | c :: r => linesFrom (c :: line) r

/-- The lines of a text. A line ends at a line feed, which may follow a carriage return; the last line
may lack its end. -/
def lines (cs : List Char) : List (List Char) := linesFrom [] cs

/-- The words of a text whose first word begins with the characters of `word`, last first. -/
def wordsFrom (word : List Char) : List Char → List (List Char)
  | [] => if word.isEmpty then [] else [word.reverse]
  | c :: r =>
    if isBlank c then
      if word.isEmpty then wordsFrom [] r else word.reverse :: wordsFrom [] r
    else wordsFrom (c :: word) r

/-- The runs of characters between blanks. -/
def words (cs : List Char) : List (List Char) := wordsFrom [] cs

/-- The pieces of a text whose first piece begins with the characters of `stanza`, last first. -/
def stanzasFrom (stanza : List Char) : List Char → List (List Char)
  | [] => [stanza.reverse]
  | '\n' :: '\n' :: r => stanza.reverse :: stanzasFrom [] r
  | c :: r => stanzasFrom (c :: stanza) r

/-- The pieces of a text between pairs of line feeds. -/
def stanzas (cs : List Char) : List (List Char) := stanzasFrom [] cs

/-- Whether a text stands somewhere inside another. -/
def occursIn (part : List Char) : List Char → Bool
  | [] => part.isEmpty
  | c :: r => part.isPrefixOf (c :: r) || occursIn part r

end ImageRecipe.Text
