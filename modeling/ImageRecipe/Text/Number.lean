/-! Unsigned numbers in decimal and octal digits. -/

namespace ImageRecipe.Text

def isDigit (c : Char) : Bool := '0' ≤ c && c ≤ '9'

/-- The value of a text of decimal digits. -/
def ofDigits (cs : List Char) : Nat := Nat.ofDigitChars 10 cs 0

/-- The decimal digits of a number. -/
def digits (n : Nat) : List Char := Nat.toDigits 10 n

def decimal (n : Nat) : String := String.ofList (digits n)

/-- A text without a plus sign in front. -/
def withoutPlus : List Char → List Char
  | '+' :: r => r
  | r => r

/-- Decimal digits, behind a plus sign or none, of a value below a bound. -/
def parseUnsigned (bound : Nat) (cs : List Char) : Option Nat :=
  let ds := withoutPlus cs
  if ds.isEmpty || !ds.all isDigit then none
  else
    let n := ofDigits ds
    if n < bound then some n else none

/-- The octal digits of a number. -/
def octal (n : Nat) : List Char := Nat.toDigits 8 n

/-- Octal digits, behind a plus sign or none, of a value below a bound. -/
def parseOctal (bound : Nat) (cs : List Char) : Option Nat :=
  let ds := withoutPlus cs
  if ds.isEmpty || !ds.all (fun c => '0' ≤ c && c ≤ '7') then none
  else
    let n := Nat.ofDigitChars 8 ds 0
    if n < bound then some n else none

/-- A text filled up with zeros in front to a width. -/
def padZeros (width : Nat) (cs : List Char) : List Char :=
  List.replicate (width - cs.length) '0' ++ cs

/-- Bound of an unsigned 32-bit number. -/
def limit32 : Nat := 4294967296

/-- Bound of an unsigned 64-bit number. -/
def limit64 : Nat := 18446744073709551616

end ImageRecipe.Text
