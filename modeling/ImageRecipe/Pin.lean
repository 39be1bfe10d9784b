import ImageRecipe.Distribution.Basic
import ImageRecipe.Sorted.Order

/-! Package pins: one package at one exact version, for one architecture or for all of them. -/

namespace ImageRecipe

/-- A package at an exact version. Its architecture is spelled as the package manager spells it. -/
structure Pin where
  name : String
  version : String
  release : String
  architecture : String
  deriving DecidableEq, Repr

namespace Pin

/-- The parts of a pin, in the order in which pins are compared. -/
def parts (p : Pin) : List String := [p.name, p.version, p.release, p.architecture]

theorem parts_injective {p q : Pin} (h : p.parts = q.parts) : p = q := by
  cases p; cases q
  simp_all [parts]

instance : LT Pin := ⟨fun p q => p.parts < q.parts⟩

instance : DecidableLT Pin := fun p q => inferInstanceAs (Decidable (p.parts < q.parts))

instance : StrictOrder Pin := StrictOrder.ofKey parts parts_injective fun _ _ => Iff.rfl

/-- The reference by which a distribution's installer finds the package. -/
def render (d : Distribution) (p : Pin) : String :=
  match d.packageManager with
  | .yum => p.name ++ "-" ++ p.version ++ "-" ++ p.release ++ "." ++ p.architecture
  | .apt | .apk =>
    if p.release.isEmpty then p.name ++ "=" ++ p.version
    else p.name ++ "=" ++ p.version ++ "-" ++ p.release

/-- Whether the package can be installed on an architecture of a distribution. -/
def installableOn (d : Distribution) (a : Architecture) (p : Pin) : Bool :=
  isArchIndependent p.architecture || p.architecture == a.packageName d.packageManager

/-- Whether two pins speak for one package on one architecture. -/
def overlaps (p q : Pin) : Bool :=
  p.name == q.name &&
    (p.architecture == q.architecture || isArchIndependent p.architecture ||
      isArchIndependent q.architecture)

end Pin

end ImageRecipe
