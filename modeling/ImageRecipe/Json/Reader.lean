import ImageRecipe.Document.Basic
import ImageRecipe.Json.Token

/-! Reading JSON texts. Lists and tables may be nested 127 deep; what lies deeper, a text with half a
surrogate pair and a number beyond all floating-point numbers are well-formed but unreadable. -/

namespace ImageRecipe.Json

/-- A text behind its opening quote, with its characters if they can be told. -/
def text? (cs : List Char) : Option (Option String × List Char) :=
  match quoted .taken cs with
  | .ok (s, r) => some (some (String.ofList s), r)
  | .error _ => (quoted .passed cs).toOption.map fun p => (none, p.2)

/-- The document of a number. -/
def Numeral.document (x : Numeral) : Document :=
  match x.value with
  | .ok (.int i) => .int i
  | .ok _ => .real
  | .error _ => .skipped

/-- A text, a number or a word. -/
def scalar? (cs : List Char) : Option (Document × List Char) :=
  match cs with
  | 'n' :: r => (word ['u', 'l', 'l'] r).toOption.map fun r => (.null, r)
  | 't' :: r => (word ['r', 'u', 'e'] r).toOption.map fun r => (.bool true, r)
  | 'f' :: r => (word ['a', 'l', 's', 'e'] r).toOption.map fun r => (.bool false, r)
  | '\x22' :: r => (text? r).map fun p => ((p.1.map Document.text).getD .skipped, p.2)
  | cs => (Numeral.read .passed cs).toOption.map fun p => (p.1.document, p.2)

/-- The name of a field with its colon. -/
def key? (cs : List Char) : Option (Option String × List Char) :=
  match cs with
  | '\x22' :: r => do
    let (name, r) ← text? r
    pure (name, ← (colon r).toOption)
  | _ => none

mutual

/-- A value, with room for so many further levels. -/
def value? : Nat → Nat → List Char → Option (Document × List Char)
  | 0, _, _ => none
  | fuel + 1, room, cs =>
    match dropSpace cs with
    | '[' :: r =>
      match room with
      | 0 => (passValue ('[' :: r)).toOption.map fun r => (.skipped, r)
      | room + 1 =>
        match dropSpace r with
        | ']' :: r => some (.list [], r)
        | r => (items? fuel room r).map fun p => (.list p.1, p.2)
    | '\x7b' :: r =>
      match room with
      | 0 => (passValue ('\x7b' :: r)).toOption.map fun r => (.skipped, r)
      | room + 1 =>
        match dropSpace r with
        | '\x7d' :: r => some (.table [], r)
        | r => do
          let (fields, r) ← fields? fuel room r
          pure (match fields with
            | some fields => .table fields
            | none => .skipped, r)
    | r => scalar? r

/-- The items of a list from the first on. -/
def items? : Nat → Nat → List Char → Option (List Document × List Char)
  | 0, _, _ => none
  | fuel + 1, room, cs => do
    let (d, r) ← value? fuel room cs
    match dropSpace r with
    | ',' :: r => (items? fuel room r).map fun p => (d :: p.1, p.2)
    | ']' :: r => pure ([d], r)
    | _ => none

/-- The fields of a table from the first on, none of them readable if one of the names is not. -/
def fields? : Nat → Nat → List Char → Option (Option (List (String × Document)) × List Char)
  | 0, _, _ => none
  | fuel + 1, room, cs => do
    let (k, r) ← key? (dropSpace cs)
    let (d, r) ← value? fuel room r
    let field := k.map fun k => (k, d)
    match dropSpace r with
    | ',' :: r =>
      (fields? fuel room r).map fun p => (do pure ((← field) :: (← p.1)), p.2)
    | '\x7d' :: r => pure (field.map fun f => [f], r)
    | _ => none

end

/-- The document of a JSON text. -/
def parse (s : String) : Option Document :=
  let cs := s.toList
  match value? (cs.length + 1) 127 cs with
  | some (d, rest) => if (dropSpace rest).isEmpty then some d else none
  | none => none

end ImageRecipe.Json
