/-! Texts as UTF-8 bytes. -/

namespace ImageRecipe.Text

/-- The UTF-8 form of a text. -/
def bytes (s : String) : ByteArray := s.toUTF8

/-- The text that bytes spell, if they are well-formed UTF-8. -/
def ofBytes? (b : ByteArray) : Option String := String.fromUTF8? b

/-- The number of bytes after a first byte and the range of the byte that follows it. -/
def continuation (lead : UInt8) : Option (Nat × UInt8 × UInt8) :=
  if 0xC2 ≤ lead && lead ≤ 0xDF then some (1, 0x80, 0xBF)
  else if lead == 0xE0 then some (2, 0xA0, 0xBF)
  else if lead == 0xED then some (2, 0x80, 0x9F)
  else if 0xE1 ≤ lead && lead ≤ 0xEF then some (2, 0x80, 0xBF)
  else if lead == 0xF0 then some (3, 0x90, 0xBF)
  else if 0xF1 ≤ lead && lead ≤ 0xF3 then some (3, 0x80, 0xBF)
  else if lead == 0xF4 then some (3, 0x80, 0x8F)
  else none

/-- Whether a byte can follow the second byte of a character. -/
def isTail (b : UInt8) : Bool := 0x80 ≤ b && b ≤ 0xBF

/-- The longest well-formed beginning of a character of several bytes: how many bytes it takes, and the
character if it is whole. -/
def character (lead : UInt8) (rest : List UInt8) : Nat × Option Char :=
  match continuation lead with
  | none => (1, none)
  | some (n, low, high) =>
    match rest with
    | b :: r =>
      if low ≤ b && b ≤ high then
        let tail := (r.take (n - 1)).takeWhile isTail
        let value := fun (top : Nat) => (b :: tail).foldl (fun v x => 64 * v + (x.toNat - 128)) top
        if tail.length = n - 1 then
          let top := if n = 1 then lead.toNat - 0xC0 else if n = 2 then lead.toNat - 0xE0
            else lead.toNat - 0xF0
          (n + 1, some (Char.ofNat (value top)))
        else (2 + tail.length, none)
      else (1, none)
    | [] => (1, none)

/-- The characters that bytes spell, with U+FFFD in place of what spells none. One unit of fuel a byte is
enough, since each step takes at least one. -/
def lossyFrom : Nat → List UInt8 → List Char
  | 0, _ => []
  | _, [] => []
  | fuel + 1, b :: r =>
    if b < 0x80 then Char.ofNat b.toNat :: lossyFrom fuel r
    else
      let (taken, char) := character b r
      char.getD '\uFFFD' :: lossyFrom fuel (r.drop (taken - 1))

/-- The text that bytes spell, each longest beginning of a character that is not whole, and each byte
that begins none, replaced by U+FFFD. -/
def ofBytesLossy (b : ByteArray) : String :=
  match ofBytes? b with
  | some s => s
  | none => String.ofList (lossyFrom b.size b.toList)

end ImageRecipe.Text
