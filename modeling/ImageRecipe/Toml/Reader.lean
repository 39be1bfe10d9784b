import ImageRecipe.Toml.Quoted
import ImageRecipe.Toml.Number
import ImageRecipe.Toml.Table

/-! Reading TOML texts: a text is cut into sections, each a header with pairs of a key and a value, and the
sections are put together to one table. -/

namespace ImageRecipe.Toml

/-- How deep lists, tables in braces and dotted keys may go, less one. -/
def depthLimit : Nat := 80

def dropBlanks (cs : List Char) : List Char := cs.dropWhile isBlank

/-- The text behind a comment, if one stands here. -/
def dropComment (cs : List Char) : List Char :=
  match cs with
  | '#' :: r => r.dropWhile isPlain
  | r => r

/-- The text behind the end of the line, which may have blanks and a comment before it. -/
def lineEnd? (cs : List Char) : Option (List Char) :=
  match dropComment (dropBlanks cs) with
  | [] => some []
  | r => newLine? r

/-- The text behind all blanks, comments and ends of lines. -/
def dropLines : Nat → List Char → List Char
  | 0, cs => cs
  | fuel + 1, cs =>
    match dropComment (dropBlanks cs) with
    | '\n' :: r => dropLines fuel r
    | '\r' :: '\n' :: r => dropLines fuel r
    | r => r

def isBareKeyChar (c : Char) : Bool := c.isAlphanum || c = '_' || c = '-'

/-- One part of a key. -/
def simpleKey? (cs : List Char) : Option (String × List Char) :=
  match cs with
  | '\x22' :: r => (basic? r).map fun p => (String.ofList p.1, p.2)
  | '\x27' :: r => (literal? r).map fun p => (String.ofList p.1, p.2)
  | r =>
    let name := r.takeWhile isBareKeyChar
    if name.isEmpty then none else some (String.ofList name, r.dropWhile isBareKeyChar)

/-- The parts of a key, which points and blanks divide. -/
def keyParts? : Nat → List Char → Option (List String × List Char)
  | 0, _ => none
  | fuel + 1, cs => do
    let (name, r) ← simpleKey? (dropBlanks cs)
    match dropBlanks r with
    | '.' :: r => (keyParts? fuel r).map fun p => (name :: p.1, p.2)
    | r => pure ([name], r)

/-- A key: the path to a table and a name in it. -/
def key? (cs : List Char) : Option ((List String × String) × List Char) := do
  let (parts, r) ← keyParts? (depthLimit - 1) cs
  pure ((parts.dropLast, ← parts.getLast?), r)

/-- The text behind a given character. -/
def behind? (c : Char) (cs : List Char) : Option (List Char) :=
  match cs with
  | d :: r => if d = c then some r else none
  | [] => none

/-- A pair of a key and a value. -/
abbrev Pair := List String × String × Document

mutual

/-- A value, with room for so many further levels. -/
def value? : Nat → Nat → List Char → Option (Document × List Char)
  | 0, _, _ => none
  | fuel + 1, room, cs =>
    match cs with
    | [] => none
    | '[' :: r =>
      match room with
      | 0 => none
      | room + 1 =>
        match dropLines r.length r with
        | ']' :: r => some (.list [], r)
        | r => (items? fuel room r).map fun p => (.list p.1, p.2)
    | '\x7b' :: r =>
      match room with
      | 0 => none
      | room + 1 =>
        match dropBlanks r with
        | '\x7d' :: r => some (.table [], r)
        | r => do
          let (pairs, r) ← pairs? fuel room r
          pure ((← Entries.addPairs pairs []).toDocument, r)
    | 't' :: 'r' :: 'u' :: 'e' :: r => some (.bool true, r)
    | 'f' :: 'a' :: 'l' :: 's' :: 'e' :: r => some (.bool false, r)
    | c :: r =>
      if c = '\x22' || c = '\x27' then
        (quoted? (c :: r)).map fun p => (.text (String.ofList p.1), p.2)
      else number? (c :: r)

/-- The items of a list from the first on. The last one may have a comma behind it. -/
def items? : Nat → Nat → List Char → Option (List Document × List Char)
  | 0, _, _ => none
  | fuel + 1, room, cs => do
    let (d, r) ← value? fuel room cs
    match dropLines r.length r with
    | ']' :: r => pure ([d], r)
    | ',' :: r =>
      match dropLines r.length r with
      | ']' :: r => pure ([d], r)
      | r => (items? fuel room r).map fun p => (d :: p.1, p.2)
    | _ => none

/-- The pairs of a table in braces from the first on. -/
def pairs? : Nat → Nat → List Char → Option (List Pair × List Char)
  | 0, _, _ => none
  | fuel + 1, room, cs => do
    let ((path, name), r) ← key? cs
    let (d, r) ← value? fuel room (dropBlanks (← behind? '=' r))
    match dropBlanks r with
    | '\x7d' :: r => pure ([(path, name, d)], r)
    | ',' :: r => (pairs? fuel room r).map fun p => ((path, name, d) :: p.1, p.2)
    | _ => none

end

/-- A line of a text, unless it is empty. -/
inductive Line where
  | pair (p : Pair)
  | table (path : List String) (name : String)
  | tables (path : List String) (name : String)

/-- A line that holds more than a comment, with the rest of the text. -/
def line? (cs : List Char) : Option (Line × List Char) :=
  match cs with
  | '[' :: '[' :: r => do
    let ((path, name), r) ← key? r
    pure (.tables path name, ← lineEnd? (← behind? ']' (← behind? ']' r)))
  | '[' :: r => do
    let ((path, name), r) ← key? r
    pure (.table path name, ← lineEnd? (← behind? ']' r))
  | r => do
    let ((path, name), r) ← key? r
    let r := dropBlanks (← behind? '=' r)
    let (d, r) ← value? (r.length + 1) (depthLimit - 1) r
    pure (.pair (path, name, d), ← lineEnd? r)

/-- The lines of a text. -/
def lines? : Nat → List Char → Option (List Line)
  | 0, _ => none
  | fuel + 1, cs =>
    match dropLines cs.length cs with
    | [] => some []
    | cs => do
      let (l, r) ← line? cs
      (lines? fuel r).map (l :: ·)

/-- The pairs before the next header, and the lines from it on. -/
def leadingPairs : List Line → List Pair × List Line
  | .pair p :: r =>
    let (pairs, rest) := leadingPairs r
    (p :: pairs, rest)
  | r => ([], r)

theorem length_leadingPairs (l : List Line) : (leadingPairs l).2.length ≤ l.length := by
  induction l with
  | nil => simp [leadingPairs]
  | cons a r ih =>
    cases a <;> simp [leadingPairs]
    omega

/-- Put the sections of a text together, the pairs before the first header being in place already. -/
def sections? (entries : Entries) (lines : List Line) : Option Entries :=
  match lines with
  | [] => some entries
  | .pair _ :: _ => none
  | .table path name :: r =>
    match entries.defineTable path name (leadingPairs r).1 with
    | some entries => sections? entries (leadingPairs r).2
    | none => none
  | .tables path name :: r =>
    match entries.appendTable path name (leadingPairs r).1 with
    | some entries => sections? entries (leadingPairs r).2
    | none => none
termination_by lines.length
decreasing_by
  all_goals
    have := length_leadingPairs r
    simp only [List.length_cons]
    omega

/-- The document of a TOML text, which may begin with a byte-order mark. -/
def parse (s : String) : Option Document := do
  let cs := match s.toList with
    | '\uFEFF' :: r => r
    | r => r
  let lines ← lines? (cs.length + 1) cs
  let (pairs, rest) := leadingPairs lines
  let entries ← sections? (← Entries.addPairs pairs []) rest
  pure entries.toDocument

end ImageRecipe.Toml
