import ImageRecipe.Text.Number

/-! Texts in double quotes, as they are shown in messages. -/

namespace ImageRecipe.Text

/-- Ranges of characters that have no shape of their own: control characters, blanks but for the plain
one, marks that join the character before them in the more common scripts, and characters for private
use. -/
def shapeless : List (Nat × Nat) := [
  (0x00, 0x1F), (0x7F, 0xA0), (0xAD, 0xAD), (0x300, 0x36F), (0x378, 0x379), (0x483, 0x489),
  (0x591, 0x5BD), (0x600, 0x605), (0x610, 0x61A), (0x61C, 0x61C), (0x64B, 0x65F), (0x6DD, 0x6DD),
  (0x70F, 0x70F), (0x1680, 0x1680), (0x180B, 0x180F), (0x1AB0, 0x1ACE), (0x1DC0, 0x1DFF),
  (0x2000, 0x200F), (0x2028, 0x202F), (0x205F, 0x206F), (0x20D0, 0x20F0), (0x3000, 0x3000),
  (0x302A, 0x302F), (0x3099, 0x309A), (0xE000, 0xF8FF), (0xFE00, 0xFE0F), (0xFE20, 0xFE2F),
  (0xFEFF, 0xFEFF), (0xFFF0, 0xFFFB), (0xFFFE, 0xFFFF), (0xE0000, 0x10FFFF)]

def isShapeless (c : Char) : Bool := shapeless.any fun r => r.1 ≤ c.toNat && c.toNat ≤ r.2

/-- A character as it is shown between double quotes: what would end the text or not be seen is
escaped. -/
def shown (c : Char) : List Char :=
  match c with
  | '\x22' => ['\\', '\x22']
  | '\\' => ['\\', '\\']
  | '\n' => ['\\', 'n']
  | '\r' => ['\\', 'r']
  | '\t' => ['\\', 't']
  | '\x00' => ['\\', '0']
  | c => if isShapeless c then ['\\', 'u', '\x7b'] ++ Nat.toDigits 16 c.toNat ++ ['\x7d'] else [c]

def quoted (s : String) : String := String.ofList ('\x22' :: (s.toList.flatMap shown ++ ['\x22']))

end ImageRecipe.Text
