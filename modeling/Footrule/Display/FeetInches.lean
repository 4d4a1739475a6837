import Footrule.Display.Fraction

/-!
# Feet and inches in writing

A length in inches is divided into whole feet and the inches that remain. Only the remaining inches
are rounded; if they round up to twelve, they make one more foot. The sign is that of the rounded
length, so a length that rounds to zero has none.
-/

namespace Footrule

/-- A length in feet and inches, without sign. -/
structure FeetInches where
  feet : Nat
  inches : Rat
  deriving DecidableEq, Repr

namespace FeetInches

/-- The inches in a foot. -/
def inchesPerFoot : Nat := 12

/-- A length in inches, not negative, as feet and inches at a precision. -/
def ofInches (p : Precision) (length : Rat) : FeetInches :=
  let feet := (length / inchesPerFoot).floor.toNat
  let inches := p.reduce (length - inchesPerFoot * feet)
  if inches = inchesPerFoot then ⟨feet + 1, 0⟩ else ⟨feet, inches⟩

/-- The length in inches. -/
def toInches (l : FeetInches) : Rat := inchesPerFoot * l.feet + l.inches

end FeetInches

namespace Display

/-- The feet and inches shown for a length in inches. -/
def feetInches (p : Precision) (length : Rat) : String :=
  let l := FeetInches.ofInches p (magnitude length)
  sign (p.snap length) ++ toString l.feet ++ "ft " ++ mixedMagnitude l.inches ++ "in"

end Display

end Footrule
