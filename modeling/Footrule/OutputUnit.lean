import Footrule.LengthUnit

/-!
# Output units

The form in which a length is shown: one of the units of length, or feet and inches together. A
length shown in feet and inches is kept in inches and divided only when it is written. Converting
from meters and back loses nothing (`toMeters_ofMeters`).
-/

namespace Footrule

/-- The forms in which a length is shown. -/
inductive OutputUnit
  | feetInches
  | single (u : LengthUnit)
  deriving DecidableEq, Repr

namespace OutputUnit

/-- All output units, in the order in which they are offered. -/
def all : List OutputUnit :=
  [feetInches, single .inch, single .foot, single .meter, single .centimeter, single .millimeter]

/-- The unit in which the length is kept. -/
def base : OutputUnit → LengthUnit
  | feetInches => .inch
  | single u => u

/-- The name of an output unit. -/
def label : OutputUnit → String
  | feetInches => "Feet-In"
  | single u => u.label

/-- The name under which an output unit is offered. -/
def description : OutputUnit → String
  | feetInches => "Feet & Inches"
  | single .inch => "Inches"
  | single .foot => "Feet (Decimal)"
  | single .meter => "Meters"
  | single .centimeter => "Centimeters"
  | single .millimeter => "Millimeters"

/-- The output unit with the given name; blanks around it do not count. -/
def ofLabel (name : String) : Except CalcError OutputUnit :=
  match all.find? (·.label.toList = trim name.toList) with
  | some u => .ok u
  | none => .error (.unknownUnit name)

/-- A length in meters, in the output unit. -/
def ofMeters (u : OutputUnit) (length : Rat) : Rat := length / u.base.meters

/-- A length in the output unit, in meters. -/
def toMeters (u : OutputUnit) (length : Rat) : Rat := length * u.base.meters

/-- The conversions are inverse to each other. -/
theorem toMeters_ofMeters (u : OutputUnit) (length : Rat) :
    u.toMeters (u.ofMeters length) = length :=
  Rat.div_mul_cancel (Rat.ne_of_gt u.base.meters_pos)

end OutputUnit

end Footrule
