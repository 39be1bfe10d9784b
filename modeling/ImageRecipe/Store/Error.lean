import ImageRecipe.Files.Fault
import ImageRecipe.Json.Misfit
import ImageRecipe.Text.Number

/-! What can go wrong with a store or a work directory. -/

namespace ImageRecipe

/-- The version of the store's format. -/
def storeFormatVersion : Nat := 1

inductive StoreError where
  | io (fault : Fault)
  /-- A content does not have the digest that it goes by. -/
  | integrity (hash actual : String)
  | objectNotFound (hash : String)
  | imageNotFound (id : String)
  | versionMismatch (found : Nat)
  /-- A file that does not hold the document it should, and what is wrong with it if that is known. -/
  | unreadable (misfit : Option Json.Misfit)
  | missingWorkDirectory (path : String)
  | missingLayer (ordinal : Nat) (path : String)
  | invalidOwnership (spec : String)
  deriving DecidableEq, Repr

def StoreError.message : StoreError → String
  | io f => "store I/O error: " ++ f.message
  | integrity hash actual => "integrity check failed for object '" ++ hash ++ "': got " ++ actual
  | objectNotFound hash => "object not found: " ++ hash
  | imageNotFound id => "image not found: " ++ id
  | versionMismatch found => "store format version mismatch: expected " ++
      Text.decimal storeFormatVersion ++ ", found " ++ Text.decimal found
  | unreadable misfit => "serialization error" ++ ((misfit.map fun m => ": " ++ m.message).getD "")
  | missingWorkDirectory path => "work directory does not exist: " ++ path
  | missingLayer ordinal path =>
    "layer " ++ Text.decimal ordinal ++ " has no source directory at " ++ path
  | invalidOwnership spec =>
    "invalid ownership '" ++ spec ++ "', expected 'user[:group]' or 'uid[:gid]'"

end ImageRecipe
