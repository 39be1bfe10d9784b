import ImageRecipe.Time.Instant
import ImageRecipe.Text.Blank

/-! Reading an instant from its text. Blanks may stand before every part, numbers may be short, and the
offset from UTC may be written in several ways. -/

namespace ImageRecipe

namespace Instant

/-- A number of at least one digit and at most so many, behind any blanks. -/
def number? (width : Nat) (cs : List Char) : Option (Nat × List Char) :=
  let cs := Text.trimStart cs
  let ds := (cs.take width).takeWhile Text.isDigit
  if ds.isEmpty then none else some (Text.ofDigits ds, cs.drop ds.length)

/-- A year: four digits at most, or any number of them behind a sign. -/
def year? (cs : List Char) : Option (Int × List Char) :=
  match Text.trimStart cs with
  | '-' :: r =>
    let ds := r.takeWhile Text.isDigit
    if ds.isEmpty then none else some (-Int.ofNat (Text.ofDigits ds), r.drop ds.length)
  | '+' :: r =>
    let ds := r.takeWhile Text.isDigit
    if ds.isEmpty then none else some (Int.ofNat (Text.ofDigits ds), r.drop ds.length)
  | r => (number? 4 r).map fun p => (Int.ofNat p.1, p.2)

/-- A character behind any blanks. -/
def mark? (c : Char) (cs : List Char) : Option (List Char) :=
  match Text.trimStart cs with
  | d :: r => if d = c then some r else none
  | [] => none

/-- A fraction of a second, of which nine digits count, or none. -/
def fraction? (cs : List Char) : Option (Nat × List Char) :=
  match cs with
  | '.' :: r =>
    let ds := r.takeWhile Text.isDigit
    let kept := ds.take 9
    if ds.isEmpty then none
    else some (Text.ofDigits kept * Nat.pow 10 (9 - kept.length), r.drop ds.length)
  | r => some (0, r)

/-- Two digits of an offset, the first of them below a bound. -/
def pair? (bound : Nat) : List Char → Option (Nat × List Char)
  | a :: b :: r =>
    if Text.isDigit a && Text.isDigit b && Text.ofDigits [a] < bound then some (Text.ofDigits [a, b], r)
    else none
  | _ => none

/-- A signed offset as a number of minutes below a day. -/
def signedOffset? (negative : Bool) (cs : List Char) : Option (Int × List Char) := do
  let (hours, r) ← pair? 10 cs
  let (minutes, r) ← pair? 6 (r.dropWhile fun c => c = ':' || Text.isBlank c)
  let total := 60 * hours + minutes
  if total < 1440 then pure (if negative then -Int.ofNat total else Int.ofNat total, r) else none

/-- An offset from UTC in minutes: `Z`, `UTC` or a signed number of hours and minutes. -/
def offset? (cs : List Char) : Option (Int × List Char) :=
  if (cs.take 3).map Char.toLower = ['u', 't', 'c'] then some (0, cs.drop 3)
  else
    match cs with
    | '+' :: r => signedOffset? false r
    | '-' :: r => signedOffset? true r
    | '\u2212' :: r => signedOffset? true r
    | c :: r => if c = 'Z' || c = 'z' then some (0, r) else none
    | [] => none

/-- The instant that a text denotes. -/
def parse (s : String) : Option Instant := do
  let (year, r) ← year? s.toList
  let r ← mark? '-' r
  let (month, r) ← number? 2 r
  let r ← mark? '-' r
  let (day, r) ← number? 2 r
  let r ← match r with
    | c :: r => if c = 't' || c = 'T' || c = ' ' then some r else none
    | [] => none
  let (hour, r) ← number? 2 r
  let r ← mark? ':' r
  let (minute, r) ← number? 2 r
  let r ← mark? ':' r
  let (second, r) ← number? 2 r
  let (nano, r) ← fraction? r
  let (offset, r) ← offset? (Text.trimStart r)
  let shown : Instant := { date := ⟨year, month, day⟩, hour, minute, second, nano }
  let i := shown.ofOffset offset
  let known := fun (year : Int) => -262143 ≤ year && year ≤ 262142
  if (Text.trimStart r).isEmpty && shown.valid && known year && known i.date.year then some i else none

end Instant

end ImageRecipe
