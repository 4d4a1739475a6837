import Footrule.CalcError
import Footrule.Rounding

/-!
# Precision

A precision is a positive number `D`; the values shown at it are the multiples of `1/D`. Rounding
to a multiple is the one place where a value shown differs from the value computed.
-/

namespace Footrule

/-- A precision, by the denominator of its grid. -/
structure Precision where
  denominator : Nat
  pos : 0 < denominator
  deriving DecidableEq, Repr

namespace Precision

/-- The precision with the given denominator, which has to be positive. -/
def ofInt (d : Int) : Except CalcError Precision :=
  if h : 0 < d then .ok ⟨d.toNat, by omega⟩ else .error .invalidPrecision

/-- The multiple of `1/D` nearest to `v`; of two, the one that is an even multiple. -/
def snap (p : Precision) (v : Rat) : Rat := roundEven (v * p.denominator) / p.denominator

/-- A denominator serves exactly if it is positive. -/
theorem ofInt_eq_error_iff {d : Int} : ofInt d = .error .invalidPrecision ↔ d ≤ 0 := by
  unfold ofInt
  split <;> simp <;> omega

theorem exists_ofInt {d : Int} (h : 0 < d) :
    ∃ p, ofInt d = .ok p ∧ (p.denominator : Int) = d :=
  ⟨_, dif_pos h, Int.toNat_of_nonneg (Int.le_of_lt h)⟩

theorem denominator_ne_zero (p : Precision) : (p.denominator : Rat) ≠ 0 := by
  have := p.pos
  exact_mod_cast Nat.ne_of_gt this

/-- A multiple of `1/D` is its own nearest multiple. -/
theorem snap_div (p : Precision) (k : Int) :
    p.snap (k / p.denominator) = k / p.denominator := by
  rw [snap, Rat.div_mul_cancel p.denominator_ne_zero, roundEven_intCast]

theorem snap_snap (p : Precision) (v : Rat) : p.snap (p.snap v) = p.snap v := p.snap_div _

end Precision

end Footrule
