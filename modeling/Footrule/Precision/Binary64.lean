import Footrule.Precision.Nearest

/-!
# Binary floating point

A double is given by its 64 bits: a sign, eleven bits of exponent and fifty-two of fraction. Every
finite double is a whole number times a power of two, hence an exact rational number.
-/

namespace Footrule

/-- A floating-point number of double precision, by its bits. -/
structure Binary64 where
  bits : UInt64
  deriving DecidableEq, Repr

namespace Binary64

/-- Whether the sign bit is set. -/
def isNegative (x : Binary64) : Bool := decide (x.bits.toNat / Nat.pow 2 63 = 1)

/-- The exponent field. -/
def exponent (x : Binary64) : Nat := x.bits.toNat / Nat.pow 2 52 % Nat.pow 2 11

/-- The fraction field. -/
def fraction (x : Binary64) : Nat := x.bits.toNat % Nat.pow 2 52

/-- The whole number of units `2⁻¹⁰⁷⁴` in the magnitude of a finite number. -/
def scaled (x : Binary64) : Nat :=
  if x.exponent = 0 then x.fraction
  else (Nat.pow 2 52 + x.fraction) * Nat.pow 2 (x.exponent - 1)

/-- The exact value of a finite number, or what the number is instead. -/
def value? (x : Binary64) : Except NonFinite Rat :=
  if x.exponent = 2047 then
    .error (if x.fraction ≠ 0 then .notANumber
      else if x.isNegative then .negativeInfinity
      else .positiveInfinity)
  else
    let units : Rat := (x.scaled : Nat) / (Nat.pow 2 1074 : Nat)
    .ok (if x.isNegative then -units else units)

/-- The exact value of a finite number; other numbers are refused. -/
def exact (x : Binary64) : Except CalcError Rat :=
  match x.value? with
  | .ok v => .ok v
  | .error n => .error (.notFinite n)

/-- A fraction nearest to a finite number among those of denominator at most `d`. -/
def nearest (x : Binary64) (d : Int) : Except CalcError Rat := do
  let v ← x.exact
  let p ← Precision.ofInt d
  return p.nearest v

end Binary64

end Footrule
