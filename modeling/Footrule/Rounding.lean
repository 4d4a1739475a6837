/-!
# Rounding to a whole number

Rounding goes to the nearest whole number, and from the middle between two to the even one.
-/

namespace Footrule

/-- The whole number nearest to `v`, the even one if two are. -/
def roundEven (v : Rat) : Int :=
  let below := v.floor
  let part := v - below
  if part < 1 / 2 then below
  else if 1 / 2 < part then below + 1
  else if below % 2 = 0 then below
  else below + 1

/-- The distance of a number from zero. -/
def magnitude (v : Rat) : Rat := if v < 0 then -v else v

@[simp] theorem roundEven_intCast (z : Int) : roundEven z = z := by
  simp only [roundEven, Rat.floor_intCast, Rat.sub_self]
  exact if_pos (by decide +kernel)

theorem magnitude_neg (v : Rat) : magnitude (-v) = magnitude v := by
  unfold magnitude
  grind

theorem magnitude_nonneg (v : Rat) : 0 ≤ magnitude v := by
  unfold magnitude
  grind

end Footrule
