import ImageRecipe.Text.Number

/-! Instants of time in UTC, as a date and a time of day to the nanosecond. -/

namespace ImageRecipe

def isLeapYear (year : Int) : Bool := year % 4 = 0 && (year % 100 ≠ 0 || year % 400 = 0)

/-- The number of days of a month; none for a month that does not exist. -/
def daysInMonth (year : Int) (month : Nat) : Nat :=
  if month = 2 then if isLeapYear year then 29 else 28
  else if month = 4 || month = 6 || month = 9 || month = 11 then 30
  else if 1 ≤ month && month ≤ 12 then 31
  else 0

structure Date where
  year : Int
  month : Nat
  day : Nat
  deriving DecidableEq, Repr

namespace Date

/-- Whether the calendar has the date. -/
def valid (d : Date) : Bool := 1 ≤ d.day && d.day ≤ daysInMonth d.year d.month

/-- The day after. -/
def next (d : Date) : Date :=
  if d.day < daysInMonth d.year d.month then { d with day := d.day + 1 }
  else if d.month < 12 then { d with month := d.month + 1, day := 1 }
  else ⟨d.year + 1, 1, 1⟩

/-- The day before. -/
def previous (d : Date) : Date :=
  if 1 < d.day then { d with day := d.day - 1 }
  else if 1 < d.month then ⟨d.year, d.month - 1, daysInMonth d.year (d.month - 1)⟩
  else ⟨d.year - 1, 12, 31⟩

end Date

/-- An instant. The second may be 60, a leap second. -/
structure Instant where
  date : Date
  hour : Nat
  minute : Nat
  second : Nat
  nano : Nat
  deriving DecidableEq, Repr

namespace Instant

/-- Whether calendar and clock have the instant. -/
def valid (i : Instant) : Bool :=
  i.date.valid && i.hour < 24 && i.minute < 60 && i.second ≤ 60 && i.nano < 1000000000

/-- The instant so many seconds and nanoseconds after the beginning of 1970. -/
def ofSeconds (seconds nano : Nat) : Instant :=
  let minutes := seconds / 60
  { date := Nat.repeat Date.next (minutes / 1440) ⟨1970, 1, 1⟩
    hour := minutes % 1440 / 60
    minute := minutes % 60
    second := seconds % 60
    nano }

/-- The instant that a clock shows which is ahead of UTC by some minutes, less than a day. -/
def ofOffset (i : Instant) (ahead : Int) : Instant :=
  let minutes := Int.ofNat (60 * i.hour + i.minute) - ahead
  let (date, minutes) :=
    if minutes < 0 then (i.date.previous, (minutes + 1440).toNat)
    else if minutes < 1440 then (i.date, minutes.toNat)
    else (i.date.next, (minutes - 1440).toNat)
  { i with date, hour := minutes / 60, minute := minutes % 60 }

/-- Four digits, and a sign for a year that four digits cannot hold. -/
def yearText (year : Int) : List Char :=
  match year with
  | .ofNat n => if n ≤ 9999 then Text.padZeros 4 (Text.digits n) else '+' :: Text.digits n
  | .negSucc n => '-' :: Text.padZeros 4 (Text.digits (n + 1))

def twoDigits (n : Nat) : List Char := Text.padZeros 2 (Text.digits n)

/-- Nothing, or three, six or nine digits, the fewest that lose nothing. -/
def fractionText (nano : Nat) : List Char :=
  if nano = 0 then []
  else if nano % 1000000 = 0 then '.' :: Text.padZeros 3 (Text.digits (nano / 1000000))
  else if nano % 1000 = 0 then '.' :: Text.padZeros 6 (Text.digits (nano / 1000))
  else '.' :: Text.padZeros 9 (Text.digits nano)

/-- The text of an instant, such as `2024-01-02T03:04:05.678Z`. -/
def render (i : Instant) : String :=
  String.ofList
    (yearText i.date.year ++ '-' :: twoDigits i.date.month ++ '-' :: twoDigits i.date.day ++
      'T' :: twoDigits i.hour ++ ':' :: twoDigits i.minute ++ ':' :: twoDigits i.second ++
      fractionText i.nano ++ ['Z'])

end Instant

end ImageRecipe
