import Footrule.Mode
import Footrule.OutputUnit
import Footrule.Precision

/-!
# Settings

What the user chooses for a calculation beside the expression.
-/

namespace Footrule

/-- The settings of a calculation. -/
structure Settings where
  mode : Mode
  outputUnit : OutputUnit
  /-- Whether values are shown at the precision of `denominator`. -/
  precisionOn : Bool
  denominator : Nat
  deriving DecidableEq, Repr

namespace Settings

/-- The settings to begin with. -/
def initial : Settings := ⟨.basic, .feetInches, true, 32⟩

/-- The denominators that are offered. -/
def denominators : List Nat := [16, 32, 64, 128]

/-- The precision at which values are shown when none is asked for. -/
def finest : Precision := ⟨1000000, by decide⟩

/-- The precision at which values are shown. -/
def precision (s : Settings) : Except CalcError Precision :=
  if s.precisionOn then Precision.ofInt s.denominator else .ok finest

end Settings

end Footrule
