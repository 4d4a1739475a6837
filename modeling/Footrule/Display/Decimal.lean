import Footrule.Display.Fraction
import Footrule.Text.Blank

/-!
# Decimals in writing

A number is shown to four decimal places, without the zeros at the end of the fraction and without a
point that nothing follows. A number that rounds to zero has no sign.
-/

namespace Footrule.Display

/-- The number of decimal places shown. -/
def decimalPlaces : Nat := 4

/-- The number of units of the last decimal place in one. -/
def decimalScale : Nat := Nat.pow 10 decimalPlaces

/-- The decimal places of a fraction given in units of the last one, without zeros at the end. -/
def decimalDigits (units : Nat) : List Char :=
  dropTrailing (· = '0') ((Nat.toDigits 10 units).leftpad decimalPlaces '0')

/-- The decimal shown for a number. -/
def decimal (v : Rat) : String :=
  let scaled := roundEven (v * decimalScale)
  let digits := decimalDigits (scaled.natAbs % decimalScale)
  let point := if digits = [] then "" else "." ++ String.ofList digits
  (if scaled < 0 then "-" else "") ++ toString (scaled.natAbs / decimalScale) ++ point

end Footrule.Display
