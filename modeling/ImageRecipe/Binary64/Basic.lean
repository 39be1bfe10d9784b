/-! Floating-point numbers of 64 bits, without their signs. All arithmetic is exact, and one rounding
comes last: to the nearest of these numbers, of two to the one with an even mantissa. -/

namespace ImageRecipe

/-- The number `mantissa * 2 ^ exponent`. A mantissa below `2 ^ 52` stands only with the least exponent. -/
structure Binary64 where
  mantissa : Nat
  exponent : Int
  deriving DecidableEq, Repr

namespace Binary64

def leastExponent : Int := -1074

def greatestExponent : Int := 971

/-- The least mantissa that has all its bits. -/
def fullMantissa : Nat := Nat.pow 2 52

def zero : Binary64 := ⟨0, leastExponent⟩

def isZero (x : Binary64) : Bool := x.mantissa = 0

/-- A power as a ratio, which is an integer for one sign of the exponent and its inverse for the other. -/
def power (base : Nat) (e : Int) : Nat × Nat := (Nat.pow base e.toNat, Nat.pow base (-e).toNat)

/-- The quotient nearest to a ratio, of two the even one. -/
def roundedQuotient (a b : Nat) : Nat :=
  let q := a / b
  let r := 2 * (a % b)
  if r < b || (r = b && q % 2 = 0) then q else q + 1

/-- The exponent of the greatest power of two that is not above a ratio. -/
def binarySize (a b : Nat) : Int :=
  let e := Int.ofNat a.log2 - Int.ofNat b.log2
  let (p, q) := power 2 e
  if b * p ≤ a * q then e else e - 1

/-- The number nearest to a ratio, if the ratio is not beyond them all. -/
def ofRatio (a b : Nat) : Option Binary64 :=
  if a = 0 then some zero
  else
    let e := max (binarySize a b - 52) leastExponent
    let (p, q) := power 2 e
    let m := roundedQuotient (a * q) (b * p)
    let x : Binary64 := if m = 2 * fullMantissa then ⟨fullMantissa, e + 1⟩ else ⟨m, e⟩
    if greatestExponent < x.exponent then none else some x

def ofNat (n : Nat) : Option Binary64 := ofRatio n 1

/-- A number as a ratio. -/
def ratio (x : Binary64) : Nat × Nat :=
  let (p, q) := power 2 x.exponent
  (x.mantissa * p, q)

def mul (x y : Binary64) : Option Binary64 :=
  ofRatio (x.ratio.1 * y.ratio.1) (x.ratio.2 * y.ratio.2)

def div (x y : Binary64) : Option Binary64 :=
  ofRatio (x.ratio.1 * y.ratio.2) (x.ratio.2 * y.ratio.1)

/-- The greatest power of ten that is one of these numbers after rounding. -/
def greatestPowerOfTen : Int := 308

/-- A number times a power of ten, in steps of which each is rounded: one step where the power of ten
is one of these numbers, and otherwise first as many divisions by the greatest as bring it there. -/
def scaled (x : Binary64) (e : Int) : Option Binary64 :=
  if x.isZero then some x
  else if greatestPowerOfTen < e then none
  else if 0 ≤ e then do x.mul (← ofNat (Nat.pow 10 e.toNat))
  else if -greatestPowerOfTen ≤ e then do x.div (← ofNat (Nat.pow 10 (-e).toNat))
  else do
    let y ← x.div (← ofNat (Nat.pow 10 greatestPowerOfTen.toNat))
    scaled y (e + greatestPowerOfTen)
termination_by (-e).toNat
decreasing_by simp only [greatestPowerOfTen] at *; omega

end Binary64

end ImageRecipe
