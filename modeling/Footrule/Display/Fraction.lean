import Footrule.Precision.Nearest

/-!
# Fractions in writing

The written forms of a rational number, always in lowest terms: plain (`3` or `5/4`), improper
(`3/1` or `5/4`) and mixed (`3`, `5/4` as `1 1/4`). A minus sign comes first and stands only before
a negative number.
-/

namespace Footrule.Display

/-- A minus sign before a negative number. -/
def sign (v : Rat) : String := if v < 0 then "-" else ""

/-- A whole number. -/
def integer (z : Int) : String := (if z < 0 then "-" else "") ++ toString z.natAbs

/-- A number as `n`, or as `n/d` if it is not whole. -/
def plain (v : Rat) : String :=
  if v.den = 1 then integer v.num else integer v.num ++ "/" ++ toString v.den

/-- A number as `n/d`. -/
def ratio (v : Rat) : String := integer v.num ++ "/" ++ toString v.den

/-- The magnitude of a number as `w`, `n/d` or `w n/d`, whichever is shortest. -/
def mixedMagnitude (v : Rat) : String :=
  let whole := v.num.natAbs / v.den
  let part := v.num.natAbs % v.den
  if part = 0 then toString whole
  else if whole = 0 then toString part ++ "/" ++ toString v.den
  else toString whole ++ " " ++ toString part ++ "/" ++ toString v.den

/-- The improper fraction shown for a number. -/
def improper (p : Precision) (v : Rat) : String := ratio (p.reduce v)

/-- The mixed fraction shown for a number. -/
def mixed (p : Precision) (v : Rat) : String :=
  let shown := p.reduce v
  sign shown ++ mixedMagnitude shown

/-! ## Any denominator -/

/-- A form of a number at the precision of a denominator, which is looked at first. -/
def onGrid (form : Precision → Rat → String) (v : Rat) (d : Int) : Except CalcError String := do
  let p ← Precision.ofInt d
  return form p v

/-- The improper fraction shown for a number at the precision of a denominator. -/
def improperOnGrid (v : Rat) (d : Int) : Except CalcError String := onGrid improper v d

/-- The mixed fraction shown for a number at the precision of a denominator. -/
def mixedOnGrid (v : Rat) (d : Int) : Except CalcError String := onGrid mixed v d

/-- A denominator that is not positive is refused, whatever the form. -/
theorem onGrid_of_nonpos {d : Int} (h : d ≤ 0) (form : Precision → Rat → String) (v : Rat) :
    onGrid form v d = .error .invalidPrecision := by
  rw [onGrid, Precision.ofInt_eq_error_iff.2 h]
  rfl

theorem onGrid_of_ofInt {d : Int} {p : Precision} (h : Precision.ofInt d = .ok p)
    (form : Precision → Rat → String) (v : Rat) : onGrid form v d = .ok (form p v) := by
  rw [onGrid, h]
  rfl

end Footrule.Display
