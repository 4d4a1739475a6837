import Footrule.Precision.Binary64
import Footrule.Proofs.Precision.Grid
import Footrule.Proofs.Precision.Nearest

/-!
# Fractions recovered from their approximations

Two different fractions are apart by at least one over the product of their denominators
(`one_le_magnitude_sub_mul`). So a number that is nearer to a fraction of denominator at most `D`
than `1/(2·D²)` has that fraction as its only best one (`IsBest.eq_of_near`), and a double that
stands for a fraction of small denominator gives it back (`Binary64.nearest_recovers`).
-/

namespace Footrule

theorem one_le_magnitude_sub_mul {x y : Rat} (h : x ≠ y) :
    1 ≤ magnitude (x - y) * (x.den * y.den) := by
  have hx := x.mul_den_eq_num
  have hy := y.mul_den_eq_num
  have hscaled : (x - y) * (x.den * y.den) = (x.num * y.den - y.num * x.den : Int) := by
    push_cast
    linear_combination (y.den : Rat) * hx - (x.den : Rat) * hy
  have hdens : (0 : Rat) < x.den * y.den := by
    exact_mod_cast Nat.mul_pos x.den_pos y.den_pos
  have hne : x.num * y.den - y.num * x.den ≠ 0 := by
    intro hzero
    rw [hzero, Int.cast_zero] at hscaled
    exact h (sub_eq_zero.1 ((mul_eq_zero.1 hscaled).resolve_right hdens.ne'))
  have hone : (1 : Rat) ≤ |((x.num * y.den - y.num * x.den : Int) : Rat)| := by
    exact_mod_cast Int.one_le_abs hne
  rw [← hscaled, abs_mul, abs_of_pos hdens] at hone
  rw [magnitude_eq_abs]
  exact hone

/-- **A fraction within the bound that is near enough is the best one.** -/
theorem IsBest.eq_of_near {bound : Nat} {x r y : Rat} (hr : IsBest bound x r)
    (hy : y.den ≤ bound) (hnear : magnitude (x - y) < 1 / (2 * bound * bound)) : r = y := by
  by_contra hne
  have hbound : (0 : Rat) < bound := by exact_mod_cast y.den_pos.trans_le hy
  have hdens : (r.den * y.den : Rat) ≤ bound * bound := by
    exact_mod_cast Nat.mul_le_mul hr.den_le hy
  have hbest := hr.nearest y.num y.den y.den_pos hy
  have hapart := one_le_magnitude_sub_mul hne
  have htriangle := abs_sub_le r x y
  rw [Rat.num_div_den, magnitude_eq_abs, magnitude_eq_abs, abs_sub_comm y] at hbest
  rw [magnitude_eq_abs] at hnear hapart
  have hsum : |r - y| < 1 / (bound * bound) := by
    have htwice : 2 * (1 / (2 * bound * bound)) = (1 / (bound * bound) : Rat) := by field_simp
    linarith
  have hproduct : |r - y| * (r.den * y.den) < 1 := by
    calc |r - y| * (r.den * y.den) ≤ |r - y| * (bound * bound) :=
          mul_le_mul_of_nonneg_left hdens (abs_nonneg _)
      _ < 1 / (bound * bound) * (bound * bound) := by gcongr
      _ = 1 := by field_simp
  exact absurd hapart (not_le.2 hproduct)

theorem Precision.nearest_eq_of_near (p : Precision) {x y : Rat} (hy : y.den ≤ p.denominator)
    (hnear : magnitude (x - y) < 1 / (2 * p.denominator * p.denominator)) : p.nearest x = y := by
  obtain ⟨r', hflanked, hden, hbest, htie⟩ := p.exists_flanked_nearest x
  exact (hflanked.isBest hden hbest htie).eq_of_near hy hnear

/-! ## Doubles -/

/-- A fraction written with a positive denominator, in lowest terms. -/
theorem num_den_intCast_div (a : Int) {q : Int} (hq : 0 < q) :
    ((a : Rat) / q).num = a / Int.gcd a q ∧ (((a : Rat) / q).den : Int) = q / Int.gcd a q := by
  rw [← Rat.divInt_eq_div, Rat.num_divInt, Rat.den_divInt, if_neg hq.ne', Int.sign_eq_one_of_pos hq,
    one_mul, Int.gcd_comm]
  refine ⟨rfl, ?_⟩
  rw [Int.natCast_div, Int.natAbs_of_nonneg hq.le]

namespace Binary64

theorem nearest_of_value {x : Binary64} {v : Rat} (hx : x.value? = .ok v) {d : Int}
    {p : Precision} (hp : Precision.ofInt d = .ok p) : x.nearest d = .ok (p.nearest v) := by
  rw [nearest, exact, hx, hp]
  rfl

/--
**A double gives back the fraction it stands for.** If a finite double is nearer to `a/q` than
`1/(2·d²)`, where `q` is at most `d`, then what is found for it within the bound `d` is exactly
`a/q`, in lowest terms.
-/
theorem nearest_recovers {x : Binary64} {v : Rat} (hx : x.value? = .ok v) {d a q : Int}
    (hq : 1 ≤ q) (hqd : q ≤ d) (hnear : magnitude (v - a / q) < 1 / (2 * d * d)) :
    ∃ r, x.nearest d = .ok r ∧ r = a / q ∧ r.num = a / Int.gcd a q ∧
      (r.den : Int) = q / Int.gcd a q := by
  obtain ⟨p, hp, hd⟩ := Precision.exists_ofInt (d := d) (by omega)
  have hlowest := num_den_intCast_div a (q := q) (by omega)
  have hden : ((a : Rat) / q).den ≤ p.denominator := by
    have hle : (((a : Rat) / q).den : Int) ≤ q := by
      rw [hlowest.2]
      exact Int.ediv_le_self _ (by omega)
    omega
  have hcast : (d : Rat) = p.denominator := by rw [← hd, Int.cast_natCast]
  rw [hcast] at hnear
  exact ⟨a / q, by rw [nearest_of_value hx hp, p.nearest_eq_of_near hden hnear], rfl, hlowest⟩

/-- The double nearest to one tenth stands for one tenth. -/
theorem nearest_recovers_tenth :
    (⟨0x3FB999999999999A⟩ : Binary64).nearest 1000000 = .ok (1 / 10) := by
  obtain ⟨r, hr, hvalue, -, -⟩ := nearest_recovers (x := ⟨0x3FB999999999999A⟩)
    (v := 3602879701896397 / 36028797018963968) (d := 1000000) (a := 1) (q := 10)
    (by decide +kernel) (by decide) (by decide) (by decide +kernel)
  rw [hr, hvalue]
  decide +kernel

end Binary64

end Footrule
