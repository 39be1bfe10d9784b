import ImageRecipe.Json.Token

/-! Why a JSON text is no record of a form. The text is gone through from its beginning, and the first
thing that is wrong with it counts. -/

namespace ImageRecipe.Json

/-- The kinds of values that the fields of a record have. -/
inductive Kind where
  /-- A natural number of 32 bits. -/
  | number
  | text
  deriving DecidableEq, Repr

def Kind.describe : Kind → String
  | number => "u32"
  | text => "a string"

/-- The form of a record: its name and its fields in their order, all of which have to be given. -/
structure Form where
  name : String
  fields : List (String × Kind)
  deriving DecidableEq, Repr

namespace Form

def describe (f : Form) : String := "struct " ++ f.name

/-- The form with the count of its fields. -/
def describeAll (f : Form) : String :=
  f.describe ++ " with " ++ Text.decimal f.fields.length ++
    (if f.fields.length = 1 then " element" else " elements")

end Form

/-- The value that stands at the beginning of a text, and what follows it. Of a list or a table nothing
is read. -/
def found (cs : List Char) : Except Refusal (Found × List Char) :=
  match cs with
  | [] => refuse .endOfValue 0 []
  | '[' :: _ => .ok (.list, cs)
  | '\x7b' :: _ => .ok (.table, cs)
  | 'n' :: r => (word ['u', 'l', 'l'] r).map fun r => (.null, r)
  | 't' :: r => (word ['r', 'u', 'e'] r).map fun r => (.bool true, r)
  | 'f' :: r => (word ['a', 'l', 's', 'e'] r).map fun r => (.bool false, r)
  | '\x22' :: r => (quoted .taken r).map fun p => (.text (String.ofList p.1), p.2)
  | c :: _ =>
    if c = '-' || Text.isDigit c then do
      let (x, r) ← Numeral.read .taken cs
      match x.value with
      | .ok f => pure (f, r)
      | .error unread => .error ⟨.numberTooGreat, byteCount r + unread⟩
    else refuse .noValue 1 cs

namespace Kind

/-- What follows a value of a kind. -/
def pass (k : Kind) (cs : List Char) : Except Refusal (List Char) := do
  let (f, r) ← found (dropSpace cs)
  match k, f with
  | number, .int i =>
    if 0 ≤ i && i < Text.limit32 then pure r else refuse (.wrongValue f k.describe) 0 r
  | text, .text _ => pure r
  | _, _ => refuse (.wrongType f k.describe) 0 r

end Kind

namespace Form

/-- What is left of a text behind the end of a table, if the end is what stands next. -/
def pastEnd (cs : List Char) : List Char :=
  match dropSpace cs with
  | '\x7d' :: r => r
  | r => r

/-- What follows a table that has the fields, behind its bracket or a field. It is given the fields
that were there already. Each field takes a character, so that the length of the text is fuel enough. -/
def passFields (f : Form) : Nat → Bool → List String → List Char → Except Refusal (List Char)
  | 0, _, _, cs => refuse .endOfTable 0 cs
  | fuel + 1, first, seen, cs =>
    let field := fun (cs : List Char) => do
      match cs with
      | '\x22' :: r =>
        let (name, r) ← quoted .taken r
        let name := String.ofList name
        match f.fields.lookup name with
        | some k =>
          if seen.contains name then refuse (.repeated name) 0 (pastEnd r)
          else passFields f fuel false (name :: seen) (← k.pass (← colon r))
        | none => passFields f fuel false seen (← passValue (← colon r))
      | '\x7d' :: _ => refuse .trailingComma 1 cs
      | _ => refuseNext .endOfValue .keyIsNoText cs
    match dropSpace cs with
    | '\x7d' :: r =>
      match f.fields.find? fun p => !seen.contains p.1 with
      | some p => refuse (.missing p.1) 0 r
      | none => .ok r
    | ',' :: r => if first then refuse .keyIsNoText 1 (',' :: r) else field (dropSpace r)
    | [] => refuse .endOfTable 0 []
    | r => if first then field r else refuse .noTableComma 1 r

/-- What follows the end of a list whose items have all been read. -/
def passEnd (cs : List Char) : Except Refusal (List Char) :=
  match dropSpace cs with
  | ']' :: r => .ok r
  | ',' :: r =>
    match dropSpace r with
    | ']' :: r => refuse .trailingComma 1 (']' :: r)
    | r => refuse .trailing 1 r
  | r => refuseNext .endOfList .trailing r

/-- What follows a list of items of some kinds, behind so many items. -/
def passItems (f : Form) : Nat → List Kind → List Char → Except Refusal (List Char)
  | _, [], cs => passEnd cs
  | n, k :: ks, cs => do
    match dropSpace cs with
    | [] => refuse .endOfList 0 []
    | ']' :: r => refuse (.tooShort n f.describeAll) 0 r
    | c :: r =>
      if n = 0 then passItems f (n + 1) ks (← k.pass (c :: r))
      else if c = ',' then
        match dropSpace r with
        | ']' :: r => refuse .trailingComma 1 (']' :: r)
        | r => passItems f (n + 1) ks (← k.pass r)
      else refuse .noListComma 1 (c :: r)

/-- What follows a record of the form. -/
def pass (f : Form) (cs : List Char) : Except Refusal (List Char) := do
  match dropSpace cs with
  | '[' :: r => f.passItems 0 (f.fields.map Prod.snd) r
  | '\x7b' :: r => f.passFields (r.length + 1) true [] r
  | r =>
    let (found, r) ← found r
    refuse (.wrongType found f.describe) 0 r

/-- What is wrong with a text that should be a record of the form and no more. -/
def misfit? (f : Form) (text : String) : Option Misfit :=
  let cs := text.toList
  let outcome := do
    match dropSpace (← f.pass cs) with
    | [] => pure ()
    | r => refuse .trailing 1 r
  match outcome with
  | .ok () => none
  | .error r => some (r.locate cs)

end Form

end ImageRecipe.Json
