import ImageRecipe.Store.Basic
import ImageRecipe.Store.CacheKey
import ImageRecipe.Image.Result

/-! The cache of build results. An entry that cannot be read is no entry. -/

namespace ImageRecipe.Store

variable (s : Store)

/-- Where the result of a key lies. -/
def resultPath (key : String) : String := Path.join s.cache (key ++ ".json")

/-- The result that was put under a key. -/
def getResult (key : String) : StoreM (Option BuildResult) := do
  let path := s.resultPath key
  if !(← Host.pathExists path) then return none
  match (Json.parse (← onFiles (Host.readText path))).bind BuildResult.ofDocument? with
  | some r => pure (some r)
  | none =>
    onFiles (Host.remove path)
    pure none

def putResult (key : String) (r : BuildResult) : StoreM Unit :=
  writeDocument (s.resultPath key) r.toDocument

/-- Forget the result of a key. -/
def dropResult (key : String) : StoreM Unit := do
  let path := s.resultPath key
  if ← Host.pathExists path then onFiles (Host.remove path)

end ImageRecipe.Store
