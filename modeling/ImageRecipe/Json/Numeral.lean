import ImageRecipe.Json.Misfit

/-! Numbers in JSON: how they are written and what they mean. -/

namespace ImageRecipe.Json

/-- Whether a value is taken in or only passed over. -/
inductive Use where
  | taken
  | passed
  deriving DecidableEq, Repr

/-- A number as it is written. -/
structure Numeral where
  negative : Bool
  whole : List Char
  /-- The digits behind the point, none if there is no point. -/
  fraction : List Char
  /-- Whether the exponent is negative, and its digits. -/
  exponent : Option (Bool × List Char)
  deriving DecidableEq, Repr

namespace Numeral

/-- Refuse a number that goes on wrong, or not at all. -/
def refuseDigit {α : Type} (u : Use) : List Char → Except Refusal α
  | [] => refuse (match u with | .taken => .endOfValue | .passed => .badNumber) 0 []
  | cs => refuse .badNumber 1 cs

/-- One digit or more. -/
def digits (u : Use) (cs : List Char) : Except Refusal (List Char × List Char) :=
  match cs.takeWhile Text.isDigit with
  | [] => refuseDigit u cs
  | ds => .ok (ds, cs.dropWhile Text.isDigit)

/-- Digits without a leading zero, or a single zero. -/
def wholeDigits (u : Use) (cs : List Char) : Except Refusal (List Char × List Char) := do
  match ← digits u cs with
  | ('0' :: _ :: _, _) => refuse .badNumber 2 cs
  | p => pure p

/-- A fraction with its point, or nothing. -/
def fractionDigits (u : Use) : List Char → Except Refusal (List Char × List Char)
  | '.' :: r => digits u r
  | r => .ok ([], r)

/-- An exponent with its letter, or nothing. -/
def exponentDigits (u : Use) (cs : List Char) : Except Refusal (Option (Bool × List Char) × List Char) :=
  let signed := fun (negative : Bool) (r : List Char) =>
    (digits u r).map fun p => (some (negative, p.1), p.2)
  match cs with
  | c :: r =>
    if c = 'e' || c = 'E' then
      match r with
      | '+' :: r => signed false r
      | '-' :: r => signed true r
      | r => signed false r
    else .ok (none, c :: r)
  | [] => .ok (none, [])

/-- A number without its sign. -/
def unsigned (u : Use) (negative : Bool) (cs : List Char) : Except Refusal (Numeral × List Char) := do
  let (whole, r) ← wholeDigits u cs
  let (fraction, r) ← fractionDigits u r
  let (exponent, r) ← exponentDigits u r
  pure (⟨negative, whole, fraction, exponent⟩, r)

def read (u : Use) : List Char → Except Refusal (Numeral × List Char)
  | '-' :: r => unsigned u true r
  | r => unsigned u false r

/-- Take in digits behind a number as long as the number stays below a bound, and leave the others. -/
def takeDigits (bound : Nat) : Nat → List Char → Nat × List Char
  | n, [] => (n, [])
  | n, c :: r =>
    let m := 10 * n + (c.toNat - '0'.toNat)
    if m < bound then takeDigits bound m r else (n, c :: r)

/-- A number that is not whole, or too great for 64 bits, or a negative zero. It has as many of the
digits as fit in 64 bits, and is scaled by a power of ten. The error is the count of the digits that need
not be read to see that the number is too great. -/
def real (x : Numeral) (significand : Nat) (scale : Int) : Except Nat Found :=
  let finish := fun (scale : Int) =>
    match (Binary64.ofNat significand).bind fun y => y.scaled scale with
    | some y => .ok (.real x.negative y)
    | none => .error 0
  match x.exponent with
  | none => finish scale
  | some (negative, ds) =>
    match takeDigits (Nat.pow 2 31) 0 ds with
    | (n, []) => finish (if negative then scale - n else scale + n)
    | (_, left) =>
      if significand = 0 || negative then .ok (.real x.negative Binary64.zero)
      else .error (left.length - 1)

/-- What a numeral means: an integer of 64 bits, or a floating-point number. -/
def value (x : Numeral) : Except Nat Found :=
  let (n, cut) := takeDigits Text.limit64 0 x.whole
  if cut.isEmpty && x.fraction.isEmpty && x.exponent.isNone then
    if !x.negative then .ok (.int n)
    else if n = 0 || 9223372036854775808 < n then x.real n 0
    else .ok (.int (-Int.ofNat n))
  else
    let (m, left) := takeDigits Text.limit64 n x.fraction
    x.real m (Int.ofNat cut.length - Int.ofNat (x.fraction.length - left.length))

end Numeral

end ImageRecipe.Json
