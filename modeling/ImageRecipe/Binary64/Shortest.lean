import ImageRecipe.Binary64.Basic
import ImageRecipe.Text.Number

/-! The fewest decimal digits that lead back to a number, and the text that is written with them. -/

namespace ImageRecipe.Binary64

/-- The number `digits * 10 ^ exponent`. -/
structure Decimal where
  digits : Nat
  exponent : Int
  deriving DecidableEq, Repr

/-- How many digits a number has in front of its decimal point; below one tenth, less the zeros behind
the point. -/
def decimalSize (x : Binary64) : Int :=
  let (a, b) := x.ratio
  Int.ofNat (Text.digits (a * Nat.pow 10 400 / b)).length - 400

/-- The multiple of a power of ten that is nearest to a number, if it is rounded to that number. What is
rounded to a number lies between the two middles to its neighbours; a middle itself is, if the mantissa
is even. -/
def onGrid? (x : Binary64) (k : Int) : Option Decimal :=
  let quarter := power 2 (x.exponent - 2)
  let step := power 10 k
  let real := fun n => n * quarter.1 * step.2
  let point := fun c => c * step.1 * quarter.2
  let isLowest := x.mantissa = fullMantissa && leastExponent < x.exponent
  let low := real (if isLowest then 4 * x.mantissa - 1 else 4 * x.mantissa - 2)
  let high := real (4 * x.mantissa + 2)
  let value := real (4 * x.mantissa)
  let isInside := fun c =>
    if x.mantissa % 2 = 0 then low ≤ point c && point c ≤ high else low < point c && point c < high
  let below := value / point 1
  let twice := point below + point (below + 1)
  let belowIsNearer := 2 * value < twice || (2 * value = twice && below % 2 = 0)
  match isInside below, isInside (below + 1) with
  | true, true => some ⟨if belowIsNearer then below else below + 1, k⟩
  | true, false => some ⟨below, k⟩
  | false, true => some ⟨below + 1, k⟩
  | false, false => none

/-- A decimal number without zeros at the end of its digits, as far as so many steps lead. -/
def Decimal.trimmed : Nat → Decimal → Decimal
  | 0, d => d
  | n + 1, d => if d.digits % 10 = 0 then trimmed n ⟨d.digits / 10, d.exponent + 1⟩ else d

/-- The decimal number with the fewest digits that is rounded to a number, and of these the nearest.
Seventeen digits always suffice. -/
def shortest (x : Binary64) : Decimal :=
  let size := x.decimalSize
  let found := (List.range 17).findSome? fun n => x.onGrid? (size - 1 - Int.ofNat n)
  (found.getD ⟨0, 0⟩).trimmed 17

/-- The text of a number. Up to sixteen digits in front of the point and four zeros behind it are
written out; beyond that there is an exponent. -/
def text (x : Binary64) : List Char :=
  if x.isZero then ['0', '.', '0']
  else
    let d := x.shortest
    let ds := Text.digits d.digits
    let size := Int.ofNat ds.length + d.exponent
    let zeros := fun (n : Int) => List.replicate n.toNat '0'
    if 16 < size || size ≤ -5 then
      let e := size - 1
      let fraction := if ds.tail.isEmpty then [] else '.' :: ds.tail
      let sign := if e < 0 then '-' else '+'
      ds.take 1 ++ fraction ++ 'e' :: sign :: Text.digits e.natAbs
    else if 0 ≤ d.exponent then ds ++ zeros d.exponent ++ ['.', '0']
    else if 0 < size then ds.take size.toNat ++ '.' :: ds.drop size.toNat
    else '0' :: '.' :: (zeros (-size) ++ ds)

end ImageRecipe.Binary64
