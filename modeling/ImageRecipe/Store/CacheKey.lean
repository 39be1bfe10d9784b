import ImageRecipe.Plan.Basic
import ImageRecipe.Digest.Blake3

/-! The keys under which build results are remembered. -/

namespace ImageRecipe

/-- The text that a cache key is the digest of. -/
def cacheKeyText (plan : String) (builder : Builder) (tag : String) : String :=
  "plan:" ++ plan ++ "\nbuilder:" ++ builder.name ++ "\ntag:" ++ tag ++ "\n"

/-- The key of a build: what is built, by whom and under which tag. -/
def cacheKey (plan : String) (builder : Builder) (tag : String) : String :=
  Blake3.hexOfText (cacheKeyText plan builder tag)

end ImageRecipe
