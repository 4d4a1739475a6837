import Footrule.Display.Fraction
import Footrule.Literal.Reader
import Footrule.OutputUnit
import Footrule.Token

/-!
# Quantities

A quantity is a plain number or a length in meters. Lengths are added to lengths and numbers to
numbers; a length may be multiplied by a number or divided by one, or a number by a length, and the
outcome is a length.
-/

namespace Footrule

/-- A number, or a length by its number of meters. -/
structure Quantity where
  magnitude : Rat
  isLength : Bool
  deriving DecidableEq, Repr

namespace Quantity

/-- A quantity in a note. -/
def noted (q : Quantity) : String :=
  Display.plain q.magnitude ++ " (" ++ toString q.isLength ++ ")"

/-- The opposite quantity. -/
protected def neg (q : Quantity) : Quantity := { q with magnitude := -q.magnitude }

/-- The outcome of an operation on two quantities. -/
def combine (o : Operator) (l r : Quantity) : Except CalcError Quantity :=
  match o with
  | .add =>
    if l.isLength = r.isLength then .ok ⟨l.magnitude + r.magnitude, l.isLength⟩
    else .error .unitMismatch
  | .sub =>
    if l.isLength = r.isLength then .ok ⟨l.magnitude - r.magnitude, l.isLength⟩
    else .error .unitMismatch
  | .mul =>
    if l.isLength && r.isLength then .error .unitProduct
    else .ok ⟨l.magnitude * r.magnitude, l.isLength || r.isLength⟩
  | .div =>
    if l.isLength && r.isLength then .error .unitProduct
    else if r.magnitude = 0 then .error .divisionByZero
    else .ok ⟨l.magnitude / r.magnitude, l.isLength || r.isLength⟩

/-- An operation on two quantities, noted before it is done. -/
def operate (o : Operator) (l r : Quantity) : Traced Quantity := do
  .note ("Operation: " ++ l.noted ++ " " ++ o.sign.toString ++ " " ++ r.noted)
  combine o l r

/-- The quantity of a number token: a length if it carries the name of a unit. -/
def read (text : List Char) (name : Option (List Char)) : Traced Quantity := do
  let number ← readNumber text
  match name with
  | none => return ⟨number, false⟩
  | some name =>
    let u ← LengthUnit.ofName name
    let length := number * u.meters
    .note ("Converted " ++ Display.plain number ++ " " ++ u.label ++ " -> " ++
      Display.plain length ++ " Meters")
    return ⟨length, true⟩

/-- A length, converted from meters to an output unit; a number is left as it is. -/
def convert (u : OutputUnit) (q : Quantity) : Traced Quantity :=
  if q.isLength then do
    let length := u.ofMeters q.magnitude
    .note ("Converted to " ++ u.label ++ ": " ++ Display.plain length)
    return ⟨length, true⟩
  else return q

end Quantity

end Footrule
