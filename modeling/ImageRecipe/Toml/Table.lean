import ImageRecipe.Document.Basic

/-! Tables of a TOML text while they are put together. How a table came about decides what may still be
added to it: a table defined by a header or by braces is never extended by dotted keys. -/

namespace ImageRecipe.Toml

/-- How a table came about. -/
inductive Origin where
  /-- By a header of its own, or by braces. -/
  | defined
  /-- By the header of a table inside it. -/
  | implied
  /-- By a dotted key. -/
  | dotted
  deriving DecidableEq, Repr

/-- What a name of a table under construction stands for. -/
inductive Node where
  | value (d : Document)
  | table (origin : Origin) (entries : List (String × Node))
  /-- A list of tables, each with a header of its own; the last one comes first. -/
  | tables (reversed : List (List (String × Node)))

namespace Node

mutual

def toDocument : Node → Document
  | value d => d
  | table _ entries => .table (entriesToDocument entries)
  | tables reversed => .list (tablesToDocuments reversed).reverse

def entriesToDocument : List (String × Node) → List (String × Document)
  | [] => []
  | (k, n) :: r => (k, toDocument n) :: entriesToDocument r

def tablesToDocuments : List (List (String × Node)) → List Document
  | [] => []
  | t :: r => .table (entriesToDocument t) :: tablesToDocuments r

end

end Node

/-- The entries of a table in the order in which their names were first given. -/
abbrev Entries := List (String × Node)

namespace Entries

/-- Change what a name stands for; a name that is not there yet comes last. -/
def change (name : String) (f : Option Node → Option Node) : Entries → Option Entries
  | [] => (f none).map fun n => [(name, n)]
  | (k, n) :: r =>
    if k = name then (f (some n)).map fun n => (k, n) :: r
    else (change name f r).map ((k, n) :: ·)

/-- Change the entries of the table at the end of a path. Tables that are missing come about as
`made` says. -/
def changeAt (made : Origin) (f : Origin → Entries → Option Entries) :
    List String → Origin → Entries → Option Entries
  | [], origin, entries => f origin entries
  | name :: path, _, entries =>
    entries.change name fun
      | none => (changeAt made f path made []).map (Node.table made)
      | some (.value _) => none
      | some (.table origin inner) =>
        if made = .dotted && origin = .defined then none
        else (changeAt made f path origin inner).map (Node.table origin)
      | some (.tables []) => none
      | some (.tables (last :: r)) =>
        (changeAt made f path .defined last).map fun t => Node.tables (t :: r)

/-- Give a name that is not there yet a value. -/
def addNew (name : String) (d : Document) (entries : Entries) : Option Entries :=
  entries.change name fun
    | none => some (.value d)
    | some _ => none

/-- Give a dotted key a value. A key with a path may only end in a table made by dotted keys. -/
def addPair (path : List String) (name : String) (d : Document) (entries : Entries) : Option Entries :=
  changeAt .dotted
    (fun origin inner =>
      if !path.isEmpty && origin ≠ .dotted then none else addNew name d inner)
    path .defined entries

/-- Give several dotted keys their values. -/
def addPairs : List (List String × String × Document) → Entries → Option Entries
  | [], entries => some entries
  | (path, name, d) :: r, entries => do addPairs r (← entries.addPair path name d)

/-- Define a table by its header and its pairs. It must not be there yet, unless headers of tables inside it
implied it. -/
def defineTable (path : List String) (name : String) (pairs : List (List String × String × Document))
    (entries : Entries) : Option Entries :=
  changeAt .implied
    (fun _ inner => inner.change name fun
      | none => (addPairs pairs []).map (Node.table .defined)
      | some (.table .implied t) => (addPairs pairs t).map (Node.table .defined)
      | some _ => none)
    path .defined entries

/-- Add a table to a list of tables by its header and its pairs. -/
def appendTable (path : List String) (name : String) (pairs : List (List String × String × Document))
    (entries : Entries) : Option Entries :=
  changeAt .implied
    (fun _ inner => inner.change name fun
      | none => (addPairs pairs []).map fun t => Node.tables [t]
      | some (.tables l) => (addPairs pairs []).map fun t => Node.tables (t :: l)
      | some _ => none)
    path .defined entries

/-- The document of a whole table. -/
def toDocument (entries : Entries) : Document := .table (Node.entriesToDocument entries)

end Entries

end ImageRecipe.Toml
