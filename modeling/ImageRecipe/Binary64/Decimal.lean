import ImageRecipe.Binary64.Basic
import ImageRecipe.Text.Number

/-! Numbers in decimal notation. -/

namespace ImageRecipe.Binary64

/-- The number nearest to digits times a power of ten, if that is not beyond them all. -/
def ofDecimal (digits : List Char) (e : Int) : Option Binary64 :=
  let significant := digits.dropWhile (· = '0')
  let size := Int.ofNat significant.length + e
  if significant.isEmpty || size < -400 then some zero
  else if 400 < size then none
  else
    let (p, q) := power 10 e
    ofRatio (Text.ofDigits significant * p) q

end ImageRecipe.Binary64
