/-! White space and its removal from the ends of a text. -/

namespace ImageRecipe.Text

/-- White space: the characters of the Unicode property White_Space. -/
def isBlank (c : Char) : Bool :=
  let n := c.toNat
  (9 ≤ n && n ≤ 13) || n == 0x20 || n == 0x85 || n == 0xA0 || n == 0x1680 ||
    (0x2000 ≤ n && n ≤ 0x200A) || n == 0x2028 || n == 0x2029 || n == 0x202F || n == 0x205F ||
    n == 0x3000

/-- The text without the blanks in front. -/
def trimStart (cs : List Char) : List Char := cs.dropWhile isBlank

/-- The text without the blanks behind. -/
def trimEnd (cs : List Char) : List Char := (cs.reverse.dropWhile isBlank).reverse

/-- The text without blanks at either end. -/
def trim (s : String) : String := String.ofList (trimEnd (trimStart s.toList))

/-- A text of blanks alone. -/
def isBlankText (s : String) : Bool := s.toList.all isBlank

end ImageRecipe.Text
