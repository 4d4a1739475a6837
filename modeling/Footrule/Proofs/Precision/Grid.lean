import Footrule.Proofs.Precision
import Mathlib.Algebra.Order.Field.Basic
import Mathlib.Tactic.FieldSimp
import Mathlib.Tactic.Linarith

/-!
# The laws of the grid

A number rounds to the one whole number within one half of it that is even if the distance is one
half (`roundEven_eq_iff`). This is the nearest whole number, of two the even one
(`nearestEven_iff`), and a greater number never rounds to a smaller one (`roundEven_mono`). The
same holds on a grid: what a number is rounded to is the nearest of all multiples of `1/D`
(`Precision.magnitude_sub_snap_le`), so that a grid with more multiples is never worse
(`Precision.snap_refined`).
-/

namespace Footrule

theorem magnitude_eq_abs (v : Rat) : magnitude v = |v| := by
  unfold magnitude
  split
  · next h => rw [abs_of_neg h]
  · next h => rw [abs_of_nonneg (not_lt.1 h)]

/-! ## The nearest whole number -/

/--
Of all whole numbers none is nearer to `v` than `z`, and `z` is even if there is another that is as
near.
-/
structure NearestEven (v : Rat) (z : Int) : Prop where
  nearest (y : Int) : magnitude (v - z) ≤ magnitude (v - y)
  even (y : Int) : y ≠ z → magnitude (v - y) = magnitude (v - z) → Even z

variable {v w : Rat} {z : Int}

/-- **A number rounds to the whole number within one half, the even one in the middle.** -/
theorem roundEven_eq_iff :
    roundEven v = z ↔ magnitude (v - z) ≤ 1 / 2 ∧ (magnitude (v - z) = 1 / 2 → Even z) := by
  rw [magnitude_eq_abs, abs_le]
  constructor
  · rintro rfl
    have hle := roundEven_le v
    have hge := le_roundEven v
    refine ⟨⟨by linarith, by linarith⟩, fun hmid => Int.even_iff.2 (roundEven_even ?_)⟩
    rcases (abs_eq (by norm_num)).1 hmid with h | h
    · exact .inl (by linarith)
    · exact .inr (by linarith)
  · rintro ⟨⟨hge, hle⟩, heven⟩
    refine roundEven_eq (by linarith) (by linarith) fun hmid => Int.even_iff.1 (heven ?_)
    refine (abs_eq (by norm_num)).2 ?_
    rcases hmid with h | h
    · exact .inl (by linarith)
    · exact .inr (by linarith)

theorem magnitude_sub_roundEven_le_half (v : Rat) : magnitude (v - roundEven v) ≤ 1 / 2 :=
  (roundEven_eq_iff.1 rfl).1

/-- Every whole number but the one rounded to is one half away or more. -/
theorem half_le_magnitude_sub {y : Int} (hy : y ≠ roundEven v) : 1 / 2 ≤ magnitude (v - y) := by
  have hhalf := magnitude_sub_roundEven_le_half v
  have hapart : (1 : Rat) ≤ |(roundEven v : Rat) - y| := by
    have hone : 1 ≤ |roundEven v - y| := Int.one_le_abs (sub_ne_zero.2 hy.symm)
    exact_mod_cast hone
  have htriangle := abs_sub_le (roundEven v : Rat) v y
  rw [abs_sub_comm _ v] at htriangle
  rw [magnitude_eq_abs] at hhalf ⊢
  linarith

/-- **A number rounds to the nearest whole number, of two to the even one.** -/
theorem nearestEven_iff : NearestEven v z ↔ roundEven v = z := by
  have hhalf := magnitude_sub_roundEven_le_half v
  constructor
  · intro h
    by_contra hne
    have hfar := half_le_magnitude_sub (y := z) (Ne.symm hne)
    have hnear := h.nearest (roundEven v)
    have hmid : magnitude (v - z) = 1 / 2 := le_antisymm (hnear.trans hhalf) hfar
    refine hne (roundEven_eq_iff.2 ⟨hmid.le, fun _ => ?_⟩)
    exact h.even _ hne (le_antisymm (hhalf.trans hmid.ge) hnear)
  · rintro rfl
    refine ⟨fun y => ?_, fun y hy hmid => ?_⟩
    · rcases eq_or_ne y (roundEven v) with rfl | hy
      · exact le_rfl
      · exact hhalf.trans (half_le_magnitude_sub hy)
    · refine (roundEven_eq_iff.1 rfl).2 (le_antisymm hhalf ?_)
      rw [← hmid]
      exact half_le_magnitude_sub hy

theorem roundEven_mono (h : v ≤ w) : roundEven v ≤ roundEven w := by
  by_contra! hlt
  -- Both numbers would have to lie in the middle between the two whole numbers.
  have hstep : (roundEven w : Rat) + 1 ≤ roundEven v := by exact_mod_cast hlt
  have hle := roundEven_le v
  have hge := le_roundEven w
  have heq : v = w := by linarith
  rw [heq] at hlt
  exact lt_irrefl _ hlt

/-! ## The nearest multiple -/

namespace Precision

variable (p : Precision)

theorem snap_mono (h : v ≤ w) : p.snap v ≤ p.snap w := by
  have hscaled := mul_le_mul_of_nonneg_right h p.denominator_pos.le
  have hround : (roundEven (v * p.denominator) : Rat) ≤ roundEven (w * p.denominator) := by
    exact_mod_cast roundEven_mono hscaled
  exact div_le_div_of_nonneg_right hround p.denominator_pos.le

/-- Distances on the grid are distances of whole numbers, in units of `1/D`. -/
theorem magnitude_sub_div (v : Rat) (k : Int) :
    magnitude (v - k / p.denominator) = magnitude (v * p.denominator - k) / p.denominator := by
  have hpos := p.denominator_pos
  have hscale : v - k / p.denominator = (v * p.denominator - k) / p.denominator := by
    field_simp
  rw [hscale, magnitude_eq_abs, magnitude_eq_abs, abs_div, abs_of_pos hpos]

/-- **No multiple of `1/D` is nearer than the one rounded to.** -/
theorem magnitude_sub_snap_le (v : Rat) (k : Int) :
    magnitude (v - p.snap v) ≤ magnitude (v - k / p.denominator) := by
  rw [snap, p.magnitude_sub_div, p.magnitude_sub_div]
  exact div_le_div_of_nonneg_right ((nearestEven_iff.2 rfl).nearest k) p.denominator_pos.le

/-- **A finer grid is never further away**, if it has all multiples of the coarser one. -/
theorem snap_refined {q : Precision} (h : p.denominator ∣ q.denominator) (v : Rat) :
    magnitude (v - q.snap v) ≤ magnitude (v - p.snap v) := by
  obtain ⟨m, hm⟩ := h
  have hpos := p.denominator_pos
  have hm0 : (m : Rat) ≠ 0 := by
    rintro hzero
    have hq := q.denominator_pos
    rw [hm, Nat.cast_mul, hzero, mul_zero] at hq
    exact lt_irrefl _ hq
  have hmultiple : p.snap v =
      ((roundEven (v * p.denominator) * m : Int) : Rat) / q.denominator := by
    rw [snap, hm]
    push_cast
    field_simp
  rw [hmultiple]
  exact q.magnitude_sub_snap_le v _

/--
**The laws of the grid.** With a positive denominator every number is rounded to the multiple of
`1/d` within one half of it, the even one in the middle, which is one and no other. Rounding is odd,
keeps the order and what is on the grid, and commutes with shifts by an even whole number; on a grid
that is `m` times as fine the distance is never greater.
-/
theorem snap_laws {d m : Int} (hd : 1 ≤ d) (hm : 1 ≤ m) :
    ∃ p q : Precision, ofInt d = .ok p ∧ ofInt (d * m) = .ok q ∧
      (∀ v, ∃ k : Int, p.snap v = k / d ∧ ∀ l : Int,
        magnitude (v * d - l) ≤ 1 / 2 ∧ (magnitude (v * d - l) = 1 / 2 → Even l) ↔ l = k) ∧
      (∀ v, p.snap (-v) = -p.snap v) ∧
      (∀ v w, v ≤ w → p.snap v ≤ p.snap w) ∧
      (∀ v, p.snap (p.snap v) = p.snap v) ∧
      (∀ v (z : Int), Even z → p.snap (v + z) = p.snap v + z) ∧
      ∀ v, magnitude (v - q.snap v) ≤ magnitude (v - p.snap v) := by
  obtain ⟨p, hp, hpd⟩ := exists_ofInt (d := d) (by omega)
  obtain ⟨q, hq, hqd⟩ := exists_ofInt (Int.mul_pos (a := d) (b := m) (by omega) (by omega))
  have hcast : (d : Rat) = p.denominator := by rw [← hpd, Int.cast_natCast]
  have hdvd : p.denominator ∣ q.denominator := by
    rw [← Int.natCast_dvd_natCast, hpd, hqd]
    exact dvd_mul_right d m
  refine ⟨p, q, hp, hq, fun v => ⟨roundEven (v * d), ?_, fun l => ?_⟩, p.snap_neg,
    fun v w h => p.snap_mono h, p.snap_snap, fun v z hz => ?_, p.snap_refined hdvd⟩
  · rw [hcast, snap]
  · rw [← roundEven_eq_iff, eq_comm]
  · obtain ⟨y, rfl⟩ := hz
    rw [← two_mul]
    exact p.snap_add_two_mul v y

/-- On the grid of halves −3/4 rounds to −1, the even number of halves; that of sixths is nearer. -/
theorem snap_laws_halves : ∃ p q : Precision, ofInt 2 = .ok p ∧ ofInt (2 * 3) = .ok q ∧
    p.snap (-(3 / 4)) = -p.snap (3 / 4) ∧ p.snap (-(3 / 4)) = -1 ∧
    magnitude (-(3 / 4) - q.snap (-(3 / 4))) ≤ 1 / 4 := by
  obtain ⟨p, q, hp, hq, -, hneg, -, -, -, hfine⟩ :=
    snap_laws (d := 2) (m := 3) (by decide) (by decide)
  obtain rfl : ⟨2, by decide⟩ = p := Except.ok.inj hp
  exact ⟨_, q, rfl, hq, hneg _, by decide +kernel, (hfine _).trans (by decide +kernel)⟩

end Precision

end Footrule
