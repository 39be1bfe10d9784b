/-! Hexadecimal digits. -/

namespace ImageRecipe.Text

/-- The lower-case hexadecimal digit of a value below sixteen. -/
def hexDigit (n : Nat) : Char := Nat.digitChar n

/-- The upper-case hexadecimal digit of a value below sixteen. -/
def upperHexDigit (n : Nat) : Char :=
  if n < 10 then Char.ofNat (48 + n) else Char.ofNat (55 + n)

/-- The value of a hexadecimal digit of either case. -/
def hexValue? (c : Char) : Option Nat :=
  if '0' ≤ c && c ≤ '9' then some (c.toNat - 48)
  else if 'a' ≤ c && c ≤ 'f' then some (c.toNat - 87)
  else if 'A' ≤ c && c ≤ 'F' then some (c.toNat - 55)
  else none

/-- Two digits for each byte, the high half first. -/
def hexOfBytes (bs : List UInt8) : List Char :=
  bs.flatMap fun b => [hexDigit (b.toNat / 16), hexDigit (b.toNat % 16)]

def hex (bytes : ByteArray) : String := String.ofList (hexOfBytes bytes.toList)

/-- The value of a text of hexadecimal digits. -/
def ofHexDigits (cs : List Char) : Option Nat :=
  cs.foldl (fun acc c => do
    let n ← acc
    let d ← hexValue? c
    pure (16 * n + d)) (some 0)

/-- The bytes written by pairs of hexadecimal digits. -/
def bytesOfHex : List Char → Option (List UInt8)
  | [] => some []
  | [_] => none
  | a :: b :: r => do
    let hi ← hexValue? a
    let lo ← hexValue? b
    let rest ← bytesOfHex r
    pure (UInt8.ofNat (16 * hi + lo) :: rest)

end ImageRecipe.Text
