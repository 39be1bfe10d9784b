import ImageRecipe.Document.Basic
import ImageRecipe.Sorted.Set
import ImageRecipe.Sorted.Map

/-! Reading values out of documents. A record is read from a table by the names of its fields or from a
list by their order; a variant is chosen by a tag, which a list gives first. -/

namespace ImageRecipe

/-- The text formats that documents come from. -/
inductive Format where
  | json
  | toml
  deriving DecidableEq, Repr

/-- What a document gives for a declared field of a record. -/
inductive Field where
  | given (d : Document)
  /-- A table without the field's name. -/
  | absent
  /-- A list that ends before the field. -/
  | cut

namespace Field

variable {α : Type}

/-- A field that must be given. -/
def required (read : Document → Option α) : Field → Option α
  | given d => read d
  | _ => none

/-- A field that a table may leave out or give as null. -/
def optional (read : Document → Option α) : Field → Option (Option α)
  | given .null => some none
  | given d => (read d).map some
  | absent => some none
  | cut => none

/-- A field that a table or a list may leave out for a default. -/
def defaulted (read : Document → Option α) (value : α) : Field → Option α
  | given d => read d
  | _ => some value

/-- A field that may be left out of a table or a list, or given as null. -/
def omissible (read : Document → Option α) : Field → Option (Option α)
  | given .null => some none
  | given d => (read d).map some
  | _ => some none

end Field

namespace Document

variable {α : Type}

/-- How often a name is given in a table. -/
def occurrences (name : String) (fields : List (String × Document)) : Nat :=
  (fields.filter fun f => f.1 == name).length

/-- The fields that a list gives by their order. -/
def positional : List String → List Document → List Field
  | [], _ => []
  | _ :: names, [] => .cut :: positional names []
  | _ :: names, d :: r => .given d :: positional names r

/-- The declared fields of a record, in their order. A table may hold other names unless the record is
`closed`, but no declared name twice. A list may hold more items than fields only in TOML. -/
def fields? (format : Format) (closed : Bool) (names : List String) : Document → Option (List Field)
  | .table fields =>
    if names.any (fun n => 1 < occurrences n fields) then none
    else if closed && fields.any (fun f => !names.contains f.1) then none
    else some (names.map fun n => match fields.lookup n with
      | some d => .given d
      | none => .absent)
  | .list items =>
    if format = .json && names.length < items.length then none else some (positional names items)
  | .moment => if closed then none else some (names.map fun _ => .absent)
  | _ => none

def text? : Document → Option String
  | .text s => some s
  | _ => none

def bool? : Document → Option Bool
  | .bool b => some b
  | _ => none

/-- A natural number below a bound. -/
def nat? (bound : Nat) : Document → Option Nat
  | .int (.ofNat n) => if n < bound then some n else none
  | _ => none

/-- A list whose items are all read. -/
def list? (read : Document → Option α) : Document → Option (List α)
  | .list items => items.mapM read
  | _ => none

def texts? (d : Document) : Option (List String) := d.list? text?

/-- A list of two texts. -/
def textPair? : Document → Option (String × String)
  | .list [.text a, .text b] => some (a, b)
  | _ => none

/-- A table of texts; of two entries with one name the later counts. -/
def textMap? : Document → Option (SortedMap String String)
  | .table fields =>
    (fields.mapM fun f => (text? f.2).map fun s => (f.1, s)).map SortedMap.ofList
  | _ => none

/-- A value known by its name alone. Besides the name it may be written as a table with the name as its
only key, whose value is null in JSON and an empty table or list in TOML. -/
def name? (format : Format) : Document → Option String
  | .text s => some s
  | .table [(s, d)] =>
    match format, d with
    | .json, .null => some s
    | .toml, .table [] => some s
    | .toml, .list [] => some s
    | _, _ => none
  | _ => none

def tagName? (nested : Bool) (names : List String) : Document → Option String
  | .text s => if names.contains s then some s else none
  | .int (.ofNat n) => if nested then names[n]? else none
  | _ => none

/-- The name of a variant and the rest of the document, which holds its fields. The tag is a field of a
table, given once, or the first item of a list. In a variant `nested` in another the tag may also be the
number of the variant. Since the whole value is taken in before its variant is known, every part of it
must be readable. -/
def tagged? (nested : Bool) (tag : String) (names : List String) (d : Document) :
    Option (String × Document) :=
  if !d.readable then none
  else match d with
    | .table fields =>
      if 1 < occurrences tag fields then none
      else do
        let name ← tagName? nested names (← fields.lookup tag)
        pure (name, .table (fields.filter fun f => f.1 != tag))
    | .list (first :: rest) => do
      let name ← tagName? nested names first
      pure (name, .list rest)
    | _ => none

/-- The fields of a variant. Here a list never holds more items than fields. -/
def variantFields? (names : List String) (d : Document) : Option (List Field) :=
  d.fields? .json false names

/-- A variant without fields: any table, or a list without items. -/
def isBare : Document → Bool
  | .table _ => true
  | .list [] => true
  | _ => false

end Document

end ImageRecipe
