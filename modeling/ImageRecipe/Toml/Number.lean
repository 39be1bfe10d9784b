import ImageRecipe.Document.Basic
import ImageRecipe.Binary64.Decimal
import ImageRecipe.Text.Hex
import ImageRecipe.Time.Instant

/-! Numbers, dates and times of day in TOML. -/

namespace ImageRecipe.Toml

/-- Further digits, with single underscores between digits. -/
def moreDigits (isDigit : Char → Bool) : List Char → Option (List Char × List Char)
  | '_' :: c :: r => if isDigit c then (moreDigits isDigit r).map fun p => (c :: p.1, p.2) else none
  | ['_'] => none
  | c :: r => if isDigit c then (moreDigits isDigit r).map fun p => (c :: p.1, p.2) else some ([], c :: r)
  | [] => some ([], [])

/-- One digit or more. -/
def digitRun (isDigit : Char → Bool) : List Char → Option (List Char × List Char)
  | c :: r => if isDigit c then (moreDigits isDigit r).map fun p => (c :: p.1, p.2) else none
  | [] => none

/-- Digits of a number without a leading zero, or a single zero. -/
def wholeDigits : List Char → Option (List Char × List Char)
  | '0' :: r => some (['0'], r)
  | cs => digitRun Text.isDigit cs

/-- An integer that fits in 64 bits with its sign. -/
def integer? (negative : Bool) (n : Nat) : Option Document :=
  let i := if negative then -Int.ofNat n else Int.ofNat n
  if -9223372036854775808 ≤ i && i ≤ 9223372036854775807 then some (.int i) else none

/-- The value of digits in a base. -/
def ofDigitsInBase (base : Nat) (ds : List Char) : Nat :=
  ds.foldl (fun n c => base * n + (Text.hexValue? c).getD 0) 0

/-- An integer in a base of which it gives the digits. -/
def based? (base : Nat) (isDigit : Char → Bool) (cs : List Char) : Option (Document × List Char) := do
  let (ds, r) ← digitRun isDigit cs
  pure (← integer? false (ofDigitsInBase base ds), r)

/-- The exponent of a floating-point number behind its letter. -/
def exponent? : List Char → Option (Int × List Char)
  | '-' :: r => (digitRun Text.isDigit r).map fun p => (-Int.ofNat (Text.ofDigits p.1), p.2)
  | '+' :: r => (digitRun Text.isDigit r).map fun p => (Int.ofNat (Text.ofDigits p.1), p.2)
  | r => (digitRun Text.isDigit r).map fun p => (Int.ofNat (Text.ofDigits p.1), p.2)

/-- A floating-point number. One too great is refused if it is positive. -/
def float? (negative : Bool) (ds : List Char) (exponent : Int) : Option Document :=
  if !negative && (Binary64.ofDecimal ds exponent).isNone then none else some .real

/-- A number in base ten behind its sign. -/
def unsigned? (negative : Bool) (cs : List Char) : Option (Document × List Char) := do
  let (whole, r) ← wholeDigits cs
  match r with
  | '.' :: r =>
    let (fraction, r) ← digitRun Text.isDigit r
    let (exponent, r) ← match r with
      | c :: t => if c = 'e' || c = 'E' then exponent? t else pure (0, c :: t)
      | [] => pure (0, [])
    pure (← float? negative (whole ++ fraction) (exponent - Int.ofNat fraction.length), r)
  | c :: t =>
    if c = 'e' || c = 'E' then
      let (exponent, r) ← exponent? t
      pure (← float? negative whole exponent, r)
    else pure (← integer? negative (Text.ofDigits whole), c :: t)
  | [] => pure (← integer? negative (Text.ofDigits whole), [])

/-- The words for infinity and for no number. -/
def special? : List Char → Option (Document × List Char)
  | 'i' :: 'n' :: 'f' :: r => some (.real, r)
  | 'n' :: 'a' :: 'n' :: r => some (.real, r)
  | _ => none

/-- Two digits of a value within bounds. -/
def twoDigits? (low high : Nat) : List Char → Option (List Char)
  | a :: b :: r =>
    let n := Text.ofDigits [a, b]
    if Text.isDigit a && Text.isDigit b && low ≤ n && n ≤ high then some r else none
  | _ => none

/-- What follows a date that the calendar has. -/
def date? : List Char → Option (List Char)
  | y :: y' :: y'' :: y''' :: '-' :: m :: m' :: '-' :: d :: d' :: r =>
    let date : Date :=
      ⟨Int.ofNat (Text.ofDigits [y, y', y'', y''']), Text.ofDigits [m, m'], Text.ofDigits [d, d']⟩
    if [y, y', y'', y''', m, m', d, d'].all Text.isDigit && date.valid then some r else none
  | _ => none

def colon? : List Char → Option (List Char)
  | ':' :: r => some r
  | _ => none

/-- What follows a time of day. -/
def time? (cs : List Char) : Option (List Char) := do
  let r ← twoDigits? 0 23 cs
  let r ← twoDigits? 0 59 (← colon? r)
  let r ← twoDigits? 0 60 (← colon? r)
  match r with
  | '.' :: t => if t.head?.any Text.isDigit then pure (t.dropWhile Text.isDigit) else none
  | r => pure r

/-- What follows an offset from UTC, if there is one. -/
def offset? : List Char → Option (List Char)
  | c :: r =>
    if c = 'Z' || c = 'z' then some r
    else if c = '+' || c = '-' then do
      let r ← twoDigits? 0 23 r
      twoDigits? 0 59 (← colon? r)
    else some (c :: r)
  | [] => some []

/-- Whether a date stands here, or a time of day, and no number. -/
def beginsMoment : List Char → Bool
  | a :: b :: ':' :: _ => Text.isDigit a && Text.isDigit b
  | a :: b :: c :: d :: '-' :: _ => [a, b, c, d].all Text.isDigit
  | _ => false

/-- What follows a date, a time of day or both. -/
def moment? (cs : List Char) : Option (List Char) :=
  match cs with
  | _ :: _ :: ':' :: _ => time? cs
  | _ => do
    let r ← date? cs
    match r with
    | c :: t =>
      if c = 't' || c = 'T' || c = ' ' then
        match time? t with
        | some r => offset? r
        | none => pure r
      else pure r
    | [] => pure []

/-- A number, a date or a time of day. -/
def number? (cs : List Char) : Option (Document × List Char) :=
  if beginsMoment cs then (moment? cs).map fun r => (.moment, r)
  else
    match cs with
    | '0' :: 'x' :: r => based? 16 (fun c => (Text.hexValue? c).isSome) r
    | '0' :: 'o' :: r => based? 8 (fun c => '0' ≤ c && c ≤ '7') r
    | '0' :: 'b' :: r => based? 2 (fun c => c = '0' || c = '1') r
    | '+' :: r => (special? r).or (unsigned? false r)
    | '-' :: r => (special? r).or (unsigned? true r)
    | r => (special? r).or (unsigned? false r)

end ImageRecipe.Toml
