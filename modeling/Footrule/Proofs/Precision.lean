import Footrule.Precision.Nearest

/-!
# The grid of a precision

A number rounds to the whole number within one half of it, the even one in the middle
(`roundEven_eq`). Hence rounding is odd, keeps the order to whole numbers, and commutes with even
shifts. What is rounded to a multiple of `1/D` has a denominator that divides `D`, so that the
search for a fraction of bounded denominator changes nothing (`reduce_eq_snap`).
-/

namespace Footrule

/-! ## Rounding -/

theorem roundEven_le (v : Rat) : (roundEven v : Rat) ≤ v + 1 / 2 := by
  have hfloor := Rat.floor_le v
  have hsucc := Rat.lt_floor_add_one v
  simp only [roundEven]
  split
  · grind
  · split
    · grind
    · split <;> grind

theorem le_roundEven (v : Rat) : v - 1 / 2 ≤ roundEven v := by
  have hfloor := Rat.floor_le v
  have hsucc := Rat.lt_floor_add_one v
  simp only [roundEven]
  split
  · grind
  · split
    · grind
    · split <;> grind

/-- In the middle between two whole numbers the even one is taken. -/
theorem roundEven_even {v : Rat} (h : v = roundEven v + 1 / 2 ∨ v = roundEven v - 1 / 2) :
    roundEven v % 2 = 0 := by
  have hfloor := Rat.floor_le v
  have hsucc := Rat.lt_floor_add_one v
  revert h
  simp only [roundEven]
  split
  · grind
  · split
    · grind
    · split
      · grind
      · grind

/-- Rounding is to the whole number within one half, the even one in the middle. -/
theorem roundEven_eq {v : Rat} {z : Int} (hle : (z : Rat) ≤ v + 1 / 2) (hge : v - 1 / 2 ≤ z)
    (heven : v = z + 1 / 2 ∨ v = z - 1 / 2 → z % 2 = 0) : roundEven v = z := by
  by_cases hz : (z : Rat) ≤ v
  · have hfloor : v.floor = z := by
      have h₁ : z ≤ v.floor := Rat.le_floor_iff.2 hz
      have h₂ : v.floor < z + 1 := Rat.floor_lt_iff.2 (by grind)
      omega
    simp only [roundEven, hfloor]
    grind
  · have hfloor : v.floor = z - 1 := by
      have h₁ : z - 1 ≤ v.floor := Rat.le_floor_iff.2 (by grind)
      have h₂ : v.floor < z := Rat.floor_lt_iff.2 (by grind)
      omega
    simp only [roundEven, hfloor]
    grind

theorem roundEven_neg (v : Rat) : roundEven (-v) = -roundEven v := by
  have hle := roundEven_le v
  have hge := le_roundEven v
  refine roundEven_eq (by grind) (by grind) fun h => ?_
  have heven : roundEven v % 2 = 0 := roundEven_even (by grind)
  omega

/-- Rounding commutes with shifts by an even number. -/
theorem roundEven_add_two_mul (v : Rat) (z : Int) :
    roundEven (v + (2 * z : Int)) = roundEven v + 2 * z := by
  have hle := roundEven_le v
  have hge := le_roundEven v
  refine roundEven_eq (by grind) (by grind) fun h => ?_
  have heven : roundEven v % 2 = 0 := roundEven_even (by grind)
  omega

theorem le_roundEven_of_le {v : Rat} {z : Int} (h : (z : Rat) ≤ v) : z ≤ roundEven v := by
  have hge := le_roundEven v
  have hlt : (z : Rat) < (roundEven v + 1 : Int) := by grind
  have := Rat.intCast_lt_intCast.1 hlt
  omega

theorem magnitude_of_nonneg {v : Rat} (h : 0 ≤ v) : magnitude v = v := if_neg (Rat.not_lt.2 h)

/-! ## The grid -/

namespace Precision

variable (p : Precision)

theorem denominator_pos : (0 : Rat) < p.denominator := by exact_mod_cast p.pos

theorem snap_mul (v : Rat) : p.snap v * p.denominator = roundEven (v * p.denominator) :=
  Rat.div_mul_cancel p.denominator_ne_zero

theorem snap_neg (v : Rat) : p.snap (-v) = -p.snap v := by
  have hneg : -v * (p.denominator : Rat) = -(v * p.denominator) := Rat.neg_mul ..
  rw [snap, snap, hneg, roundEven_neg]
  grind

/-- The grid is kept by shifts by an even number. -/
theorem snap_add_two_mul (v : Rat) (z : Int) :
    p.snap (v + (2 * z : Int)) = p.snap v + (2 * z : Int) := by
  have hne := p.denominator_ne_zero
  have hcast : ((p.denominator : Int) : Rat) = p.denominator := Rat.intCast_natCast _
  have hshift : (v + (2 * z : Int)) * (p.denominator : Rat) =
      v * p.denominator + (2 * (z * p.denominator) : Int) := by
    grind
  rw [snap, snap, hshift, roundEven_add_two_mul]
  grind

theorem le_snap_of_le {v : Rat} {z : Int} (h : (z : Rat) ≤ v) : (z : Rat) ≤ p.snap v := by
  have hcast : ((p.denominator : Int) : Rat) = p.denominator := Rat.intCast_natCast _
  have hmul : ((z * p.denominator : Int) : Rat) ≤ v * p.denominator := by
    rw [Rat.intCast_mul, hcast]
    exact Rat.mul_le_mul_of_nonneg_right h (Rat.le_of_lt p.denominator_pos)
  have hround := Rat.intCast_le_intCast.2 (le_roundEven_of_le hmul)
  rw [Rat.intCast_mul, hcast, ← p.snap_mul] at hround
  exact Rat.le_of_mul_le_mul_right hround p.denominator_pos

theorem snap_le_of_le {v : Rat} {z : Int} (h : v ≤ z) : p.snap v ≤ z := by
  have hneg := p.le_snap_of_le (v := -v) (z := -z) (by grind)
  rw [p.snap_neg] at hneg
  grind

theorem snap_zero : p.snap 0 = 0 := by
  have hge : ((0 : Int) : Rat) ≤ p.snap 0 := p.le_snap_of_le Rat.le_refl
  have hle : p.snap 0 ≤ ((0 : Int) : Rat) := p.snap_le_of_le Rat.le_refl
  exact Rat.le_antisymm hle hge

theorem snap_magnitude (v : Rat) : p.snap (magnitude v) = magnitude (p.snap v) := by
  by_cases hv : v < 0
  · have hsnap : p.snap v ≤ (0 : Int) := p.snap_le_of_le (Rat.le_of_lt hv)
    rw [magnitude, if_pos hv, p.snap_neg, magnitude]
    grind
  · have hsnap : ((0 : Int) : Rat) ≤ p.snap v := p.le_snap_of_le (Rat.not_lt.1 hv)
    rw [magnitude, if_neg hv, magnitude_of_nonneg hsnap]

/-- The denominator of a multiple of `1/D` divides `D`. -/
theorem den_snap_dvd (v : Rat) : (p.snap v).den ∣ p.denominator := by
  rw [snap, ← Rat.mkRat_eq_div, Rat.den_mkRat, if_neg (Nat.ne_of_gt p.pos)]
  exact Nat.div_dvd_of_dvd (Nat.gcd_dvd_left _ _)

theorem den_snap_le (v : Rat) : (p.snap v).den ≤ p.denominator :=
  Nat.le_of_dvd p.pos (p.den_snap_dvd v)

/-- **What is shown of a number is its nearest multiple of `1/D`.** -/
theorem reduce_eq_snap (v : Rat) : p.reduce v = p.snap v := nearest_of_den_le (p.den_snap_le v)

end Precision

end Footrule
