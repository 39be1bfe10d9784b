/-! Structured documents, the common ground of the text formats: what a JSON or TOML text says before
it is taken for a value of some type. -/

namespace ImageRecipe

/-- A structured document. -/
inductive Document where
  | null
  | bool (b : Bool)
  | int (i : Int)
  /-- A number that is no integer of 64 bits. -/
  | real
  | text (s : String)
  /-- A date, a time of day or both. -/
  | moment
  | list (items : List Document)
  | table (fields : List (String × Document))
  /-- Something well-formed that can be passed over but not read, such as a text with half a surrogate
  pair. -/
  | skipped
  deriving Repr, Inhabited

namespace Document

mutual

/-- Whether every part of a document can be read. -/
def readable : Document → Bool
  | .skipped => false
  | .list items => readableItems items
  | .table fields => readableFields fields
  | _ => true

def readableItems : List Document → Bool
  | [] => true
  | d :: r => readable d && readableItems r

def readableFields : List (String × Document) → Bool
  | [] => true
  | (_, d) :: r => readable d && readableFields r

end

/-- A text, a number and a list of texts as documents. -/
def ofNat (n : Nat) : Document := .int (Int.ofNat n)

def ofTexts (l : List String) : Document := .list (l.map .text)

/-- A value that may be missing, written as null when it is. -/
def ofOption {α : Type} (write : α → Document) : Option α → Document
  | none => .null
  | some a => write a

/-- A field that is left out when it has no value. -/
def optionalField {α : Type} (name : String) (write : α → Document) : Option α → List (String × Document)
  | none => []
  | some a => [(name, write a)]

end Document

end ImageRecipe
