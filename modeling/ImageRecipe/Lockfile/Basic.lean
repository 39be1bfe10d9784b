import ImageRecipe.Pin
import ImageRecipe.Sorted.Map
import ImageRecipe.Sorted.Set
import ImageRecipe.Files.Fault
import ImageRecipe.Digest.Blake3
import ImageRecipe.Text.Number

/-! Lockfiles: for each distribution the pins that installs are restricted to. No two pins of one
distribution speak for the same package on the same architecture. -/

namespace ImageRecipe

namespace Distribution

/-- The place of a distribution in the order in which lockfiles list them. -/
def rank : Distribution → Nat
  | ubuntu => 0
  | debian => 1
  | centos => 2
  | alpine => 3

instance : LT Distribution := ⟨fun d e => d.rank < e.rank⟩

instance : DecidableLT Distribution := fun d e => inferInstanceAs (Decidable (d.rank < e.rank))

theorem rank_injective {d e : Distribution} (h : d.rank = e.rank) : d = e := by
  cases d <;> cases e <;> simp_all [rank]

instance : StrictOrder Distribution := StrictOrder.ofKey rank rank_injective fun _ _ => Iff.rfl

end Distribution

/-- The pins of each distribution that has ever been pinned; its set may have become empty. -/
structure Lockfile where
  sections : SortedMap Distribution (SortedSet Pin)
  deriving DecidableEq

inductive LockError where
  | io (fault : Fault)
  /-- A text that is not the document of a lockfile. -/
  | malformed
  | unsupportedVersion (version : Nat)
  | conflict (distribution : Distribution) (incoming existing : Pin)
  | unresolved (distribution : Distribution) (architecture : Architecture) (packages : List String)
  deriving DecidableEq, Repr

namespace Lockfile

/-- The version of the lockfile format. -/
def formatVersion : Nat := 1

def empty : Lockfile := ⟨SortedMap.empty⟩

/-- The pins of a distribution, in their order. -/
def pins (l : Lockfile) (d : Distribution) : SortedSet Pin := (l.sections.get? d).getD SortedSet.empty

def setPins (l : Lockfile) (d : Distribution) (s : SortedSet Pin) : Lockfile :=
  ⟨l.sections.insert d s⟩

/-- Add a pin. One that is already there changes nothing; a different one for the same package and
architecture is refused. -/
def insert (l : Lockfile) (d : Distribution) (p : Pin) : Lockfile × Except LockError Unit :=
  let s := l.pins d
  if p ∈ s then (l, .ok ())
  else
    match s.toList.find? fun q => q.overlaps p with
    | some existing => (l, .error (.conflict d p existing))
    | none => (l.setPins d (s.insert p), .ok ())

/-- Add pins one after the other up to the first that is refused. -/
def insertAll (l : Lockfile) (d : Distribution) : List Pin → Lockfile × Except LockError Unit
  | [] => (l, .ok ())
  | p :: r =>
    match l.insert d p with
    | (l, .ok ()) => insertAll l d r
    | (l, .error e) => (l, .error e)

/-- The lockfile without the pins of a distribution that can be installed on an architecture. -/
def withoutPartition (l : Lockfile) (d : Distribution) (a : Architecture) : Lockfile :=
  match l.sections.get? d with
  | some s => l.setPins d (s.filter fun p => !p.installableOn d a)
  | none => l

/-- Put new pins in the place of those that can be installed on an architecture. -/
def replacePartition (l : Lockfile) (d : Distribution) (a : Architecture) (pins : List Pin) :
    Lockfile × Except LockError Unit :=
  (l.withoutPartition d a).insertAll d pins

/-- The pin of a package for an architecture. -/
def lookup (l : Lockfile) (name : String) (d : Distribution) (a : Architecture) : Option Pin :=
  (l.pins d).toList.find? fun p => p.name == name && p.installableOn d a

/-- The pins of packages in the order of their names given, or every package that has none, sorted. -/
def pinsFor (l : Lockfile) (names : List String) (d : Distribution) (a : Architecture) :
    Except LockError (List Pin) :=
  let missing := names.filter fun n => (l.lookup n d a).isNone
  if missing.isEmpty then .ok (names.filterMap fun n => l.lookup n d a)
  else .error (.unresolved d a (missing.mergeSort fun s t => decide (s ≤ t)))

/-- The distributions that have pins. -/
def distributions (l : Lockfile) : List Distribution :=
  (l.sections.entries.filter fun e => !e.2.isEmpty).map Prod.fst

/-- The number of pins. -/
def size (l : Lockfile) : Nat := l.sections.values.foldr (fun s n => s.size + n) 0

/-- Every pin beside its distribution, in order. -/
def entries (l : Lockfile) : List (Distribution × Pin) :=
  l.sections.entries.flatMap fun e => e.2.toList.map fun p => (e.1, p)

/-- The line that stands for a pin in the text that identifies a lockfile's content. -/
def contentLine (e : Distribution × Pin) : String :=
  "pin:" ++ e.1.name ++ ":" ++ e.2.name ++ ":" ++ e.2.version ++ ":" ++ e.2.release ++ ":" ++
    e.2.architecture ++ "\n"

/-- The text that identifies a lockfile's content: one line for each pin. -/
def contentText (l : Lockfile) : String := String.join (l.entries.map contentLine)

/-- The digest of the pins. -/
def contentHash (l : Lockfile) : String := Blake3.hexOfText l.contentText

end Lockfile

namespace LockError

/-- The word for one package or for any other number of them. -/
def noun (packages : List String) : String :=
  match packages with
  | [_] => "package"
  | _ => "packages"

def message : LockError → String
  | io f => "lock file I/O error: " ++ f.message
  | malformed => "lock file parse error"
  | unsupportedVersion v => "unsupported lock_version: " ++ Text.decimal v ++ ", expected " ++
      Text.decimal Lockfile.formatVersion
  | conflict d p q => "conflicting pins for '" ++ p.name ++ "' (" ++ p.architecture ++ ") on " ++ d.name ++
      ": '" ++ q.render d ++ "' and '" ++ p.render d ++ "'"
  | unresolved d a packages => "no pin for " ++ noun packages ++ " on " ++ d.name ++ "/" ++ a.name ++ ": " ++
      ", ".intercalate packages ++ ". Regenerate the lockfile with 'kiln lock'."

end LockError

end ImageRecipe
