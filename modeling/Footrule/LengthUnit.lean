import Footrule.CalcError
import Footrule.Text.Blank

/-!
# Units of length

The units a length may be written in, their names and their exact lengths in meters. A name is read
without regard to letter case and to blanks around it.
-/

namespace Footrule

/-- The units of length. -/
inductive LengthUnit
  | foot
  | inch
  | meter
  | centimeter
  | millimeter
  deriving DecidableEq, Repr

namespace LengthUnit

/-- All units. -/
def all : List LengthUnit := [foot, inch, meter, centimeter, millimeter]

/-- The name under which a unit is shown. -/
def label : LengthUnit → String
  | foot => "Feet"
  | inch => "Inch"
  | meter => "Meter"
  | centimeter => "Centimeter"
  | millimeter => "Millimeter"

/-- The names by which a unit is written, in lower case, longer ones first. -/
def aliases : LengthUnit → List String
  | foot => ["feet", "foot", "ft"]
  | inch => ["inches", "inch", "in"]
  | meter => ["meters", "meter", "m"]
  | centimeter => ["centimeters", "centimeter", "cm"]
  | millimeter => ["millimeters", "millimeter", "mm"]

/-- The length of a unit in meters. -/
def meters : LengthUnit → Rat
  | foot => 3048 / 10000
  | inch => 254 / 10000
  | meter => 1
  | centimeter => 1 / 100
  | millimeter => 1 / 1000

/-- The unit with the given name; its letters may be of either case. -/
def ofName (name : List Char) : Except CalcError LengthUnit :=
  let lower := String.ofList ((trim name).map Char.toLower)
  match all.find? (·.aliases.contains lower) with
  | some u => .ok u
  | none => .error (.unknownUnit (String.ofList name))

theorem foot_eq_twelve_inches : foot.meters = 12 * inch.meters := by decide +kernel

theorem meters_pos (u : LengthUnit) : 0 < u.meters := by
  cases u <;> decide +kernel

end LengthUnit

end Footrule
