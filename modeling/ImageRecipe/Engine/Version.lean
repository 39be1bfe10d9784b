import ImageRecipe.Text.Blank
import ImageRecipe.Text.Number
import ImageRecipe.Text.Split

/-! Versions of container engines. -/

namespace ImageRecipe

/-- The first number of a version such as `24.0.7`. -/
def majorVersion? (version : String) : Option Nat :=
  let cs := version.toList
  let first := ((Text.cutFirst '.' cs).map Prod.fst).getD cs
  Text.parseUnsigned Text.limit32 (Text.trimEnd (Text.trimStart first))

end ImageRecipe
