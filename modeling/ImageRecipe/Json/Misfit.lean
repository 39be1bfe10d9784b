import ImageRecipe.Binary64.Shortest
import ImageRecipe.Text.Quoted

/-! What is wrong with a text that should be JSON of some form, and where in the text. -/

namespace ImageRecipe.Json

/-- A value as far as a message tells of it. -/
inductive Found where
  | null
  | bool (b : Bool)
  | int (i : Int)
  | real (negative : Bool) (size : Binary64)
  | text (s : String)
  | list
  | table
  deriving DecidableEq, Repr

def Found.describe : Found → String
  | null => "null"
  | bool b => "boolean `" ++ (if b then "true" else "false") ++ "`"
  | int i => "integer `" ++ (if i < 0 then "-" else "") ++ Text.decimal i.natAbs ++ "`"
  | real negative size =>
    "floating point `" ++ (if negative then "-" else "") ++ String.ofList size.text ++ "`"
  | text s => "string " ++ Text.quoted s
  | list => "sequence"
  | table => "map"

/-- What is wrong with a text. -/
inductive Complaint where
  | endOfList
  | endOfTable
  | endOfText
  | endOfValue
  | noColon
  | noListComma
  | noTableComma
  | noWord
  | noValue
  | badEscape
  | badNumber
  | numberTooGreat
  | controlCharacter
  | keyIsNoText
  /-- Half of a surrogate pair that does not go with its neighbour. -/
  | loneHalf
  /-- The first half of a surrogate pair with no escape behind it. -/
  | cutPair
  | trailingComma
  | trailing
  | wrongType (found : Found) (expected : String)
  | wrongValue (found : Found) (expected : String)
  | missing (field : String)
  | repeated (field : String)
  /-- A list that ends before all fields are given. -/
  | tooShort (length : Nat) (expected : String)
  deriving DecidableEq, Repr

def Complaint.message : Complaint → String
  | endOfList => "EOF while parsing a list"
  | endOfTable => "EOF while parsing an object"
  | endOfText => "EOF while parsing a string"
  | endOfValue => "EOF while parsing a value"
  | noColon => "expected `:`"
  | noListComma => "expected `,` or `]`"
  | noTableComma => "expected `,` or `\x7d`"
  | noWord => "expected ident"
  | noValue => "expected value"
  | badEscape => "invalid escape"
  | badNumber => "invalid number"
  | numberTooGreat => "number out of range"
  | controlCharacter => "control character (\\u0000-\\u001F) found while parsing a string"
  | keyIsNoText => "key must be a string"
  | loneHalf => "lone leading surrogate in hex escape"
  | cutPair => "unexpected end of hex escape"
  | trailingComma => "trailing comma"
  | trailing => "trailing characters"
  | wrongType found expected => "invalid type: " ++ found.describe ++ ", expected " ++ expected
  | wrongValue found expected => "invalid value: " ++ found.describe ++ ", expected " ++ expected
  | missing field => "missing field `" ++ field ++ "`"
  | repeated field => "duplicate field `" ++ field ++ "`"
  | tooShort length expected => "invalid length " ++ Text.decimal length ++ ", expected " ++ expected

/-- A complaint about a text and how many bytes of the text are left where it arises. -/
structure Refusal where
  complaint : Complaint
  left : Nat
  deriving DecidableEq, Repr

/-- How many bytes a text takes. -/
def byteCount (cs : List Char) : Nat := cs.foldl (fun n c => n + c.utf8Size) 0

/-- Refuse a text for what stands in it some bytes from here, if it goes on so far. -/
def refuse {α : Type} (complaint : Complaint) (beyond : Nat) (cs : List Char) : Except Refusal α :=
  .error ⟨complaint, byteCount cs - beyond⟩

/-- A complaint and where it arises: in which line, and after how many bytes of the line. -/
structure Misfit where
  complaint : Complaint
  line : Nat
  column : Nat
  deriving DecidableEq, Repr

/-- The line and the column behind so many bytes of a text. -/
def place : Nat → Nat → Nat → List Char → Nat × Nat
  | line, column, _, [] => (line, column)
  | line, column, n, c :: r =>
    if n = 0 then (line, column)
    else if c = '\n' then place (line + 1) 0 (n - 1) r
    else place line (column + min n c.utf8Size) (n - c.utf8Size) r

/-- A refusal of a text with its place. -/
def Refusal.locate (r : Refusal) (text : List Char) : Misfit :=
  let (line, column) := place 1 0 (byteCount text - r.left) text
  ⟨r.complaint, line, column⟩

def Misfit.message (m : Misfit) : String :=
  m.complaint.message ++ " at line " ++ Text.decimal m.line ++ " column " ++ Text.decimal m.column

end ImageRecipe.Json
