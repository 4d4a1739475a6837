import Footrule.Proofs.Precision
import Mathlib.Data.Rat.Lemmas
import Mathlib.RingTheory.Int.Basic
import Mathlib.Tactic.Linarith
import Mathlib.Tactic.LinearCombination
import Mathlib.Tactic.Ring

/-!
# The nearest fraction of bounded denominator

The expansion of a number `x` into a continued fraction keeps two things: the number itself is found
again in the two convergents and what is still to be expanded, and the convergents are neighbours,
with determinant one (`Expansion.Expands`). It stops within the bound with `x` between the newer
convergent and the intermediate fraction (`Expansion.IsLast`). These are neighbours too, and their
denominators add up to more than the bound, so that no fraction within the bound lies strictly
between them (`le_or_le_of_neighbours`). The nearer one of the two is therefore a best fraction for
`x` (`Precision.isBest_nearest`).
-/

namespace Footrule

/--
The fraction `r` keeps within the bound, no fraction that does is nearer to `x`, and none that is as
near has a smaller denominator.
-/
structure IsBest (bound : Nat) (x r : Rat) : Prop where
  den_le : r.den ≤ bound
  nearest : ∀ (a : Int) (q : Nat), 0 < q → q ≤ bound →
    magnitude (r - x) ≤ magnitude (a / q - x)
  simplest : ∀ (a : Int) (q : Nat), 0 < q → q ≤ bound →
    magnitude (a / q - x) = magnitude (r - x) → r.den ≤ q

/-! ## Neighbouring fractions -/

section Neighbours

variable {p q p' q' : Int}

theorem intCast_div_le_iff (hq : 0 < q) {y : Rat} : (p : Rat) / q ≤ y ↔ p * y.den ≤ y.num * q := by
  have hq : (0 : Rat) < q := by exact_mod_cast hq
  have hden : (0 : Rat) < y.den := by exact_mod_cast y.den_pos
  rw [div_le_iff₀ hq, ← mul_le_mul_iff_left₀ hden, mul_right_comm, Rat.mul_den_eq_num]
  exact_mod_cast Iff.rfl

theorem le_intCast_div_iff (hq : 0 < q) {y : Rat} : y ≤ (p : Rat) / q ↔ y.num * q ≤ p * y.den := by
  have hq : (0 : Rat) < q := by exact_mod_cast hq
  have hden : (0 : Rat) < y.den := by exact_mod_cast y.den_pos
  rw [le_div_iff₀ hq, ← mul_le_mul_iff_left₀ hden, mul_right_comm, Rat.mul_den_eq_num]
  exact_mod_cast Iff.rfl

/-- **Between two neighbours lie only fractions with a denominator of at least their sum.** -/
theorem le_or_le_of_neighbours (hq : 0 < q) (hq' : 0 < q') (hdet : p' * q - p * q' = 1) {y : Rat}
    (hy : y.den < q + q') : y ≤ (p : Rat) / q ∨ (p' : Rat) / q' ≤ y := by
  rw [le_intCast_div_iff hq, intCast_div_le_iff hq']
  by_contra! hbetween
  obtain ⟨hleft, hright⟩ := hbetween
  have hden : (y.den : Int) = q * (p' * y.den - y.num * q') + q' * (y.num * q - p * y.den) := by
    linear_combination (-(y.den : Int)) * hdet
  have hfirst : q * 1 ≤ q * (p' * y.den - y.num * q') :=
    Int.mul_le_mul_of_nonneg_left (by omega) (by omega)
  have hsecond : q' * 1 ≤ q' * (y.num * q - p * y.den) :=
    Int.mul_le_mul_of_nonneg_left (by omega) (by omega)
  omega

/-- Two fractions equally far from a number are equal, or the number is midway between them. -/
theorem eq_or_midway (hq : 0 < q) (hq' : 0 < q') {x : Rat}
    (h : magnitude ((p : Rat) / q - x) = magnitude ((p' : Rat) / q' - x)) :
    p * q' = p' * q ∨
      (x.num * q - p * x.den) * q' + (x.num * q' - p' * x.den) * q = 0 := by
  have hp : (p : Rat) / q * q = p := div_mul_cancel₀ _ (by exact_mod_cast hq.ne')
  have hp' : (p' : Rat) / q' * q' = p' := div_mul_cancel₀ _ (by exact_mod_cast hq'.ne')
  have hx := x.mul_den_eq_num
  have hsum : (p : Rat) / q = p' / q' ∨ (p : Rat) / q + p' / q' = 2 * x := by
    unfold magnitude at h
    grind
  rcases hsum with hsum | hsum
  · left
    rw [← hsum] at hp'
    have heq : (p : Rat) * q' = p' * q := by linear_combination (-(q' : Rat)) * hp + q * hp'
    exact_mod_cast heq
  · right
    have heq : ((x.num : Rat) * q - p * x.den) * q' + (x.num * q' - p' * x.den) * q = 0 := by
      linear_combination (-2 * (q : Rat) * q') * hx + (x.den * (q' : Rat)) * hp +
        (x.den * (q : Rat)) * hp' - (x.den * (q : Rat) * q') * hsum
    exact_mod_cast heq

theorem coprime_of_det (hdet : p * q' - p' * q = 1 ∨ p * q' - p' * q = -1) :
    Nat.Coprime p.natAbs q.natAbs := by
  refine Int.isCoprime_iff_nat_coprime.1 ?_
  rcases hdet with h | h
  · exact ⟨q', -p', by linear_combination h⟩
  · exact ⟨-q', p', by linear_combination -h⟩

/-- The denominator of one of two neighbours is the one it is written with. -/
theorem den_div_of_det (hq : 0 < q) (hdet : p * q' - p' * q = 1 ∨ p * q' - p' * q = -1) :
    (((p : Rat) / q).den : Int) = q :=
  Rat.den_div_eq_of_coprime hq (coprime_of_det hdet)

theorem num_div_of_det (hq : 0 < q) (hdet : p * q' - p' * q = 1 ∨ p * q' - p' * q = -1) :
    ((p : Rat) / q).num = p :=
  Rat.num_div_eq_of_coprime hq (coprime_of_det hdet)

end Neighbours

/-! ## The two sides of a number -/

/-- Every fraction within the bound is one of the two, or further from `x` than one of them. -/
def Flanked (bound : Nat) (x r r' : Rat) : Prop :=
  ∀ y : Rat, y.den ≤ bound → (y = r ∨ magnitude (r - x) < magnitude (y - x)) ∨
    (y = r' ∨ magnitude (r' - x) < magnitude (y - x))

section Flanked

variable {bound : Nat} {x r r' : Rat}

theorem Flanked.symm (h : Flanked bound x r r') : Flanked bound x r' r := fun y hy => (h y hy).symm

/-- A number lies between two fractions that no fraction within the bound separates. -/
theorem flanked_of_between (hr : r ≤ x) (hr' : x ≤ r')
    (h : ∀ y : Rat, y.den ≤ bound → y ≤ r ∨ r' ≤ y) : Flanked bound x r r' := by
  intro y hy
  unfold magnitude
  rcases h y hy with hy | hy
  · left
    grind
  · right
    grind

/-- The nearer one of two fractions that flank `x` is a best one. -/
theorem Flanked.isBest (h : Flanked bound x r r') (hden : r.den ≤ bound)
    (hnear : magnitude (r - x) ≤ magnitude (r' - x))
    (htie : magnitude (r - x) = magnitude (r' - x) → r.den ≤ r'.den) : IsBest bound x r := by
  have hfraction (a : Int) {q : Nat} (hq : 0 < q) : ((a : Rat) / q).den ≤ q := by
    rw [← Rat.mkRat_eq_div, Rat.den_mkRat, if_neg (Nat.ne_of_gt hq)]
    exact Nat.div_le_self _ _
  refine ⟨hden, fun a q hq hb => ?_, fun a q hq hb heq => ?_⟩
  · rcases h _ ((hfraction a hq).trans hb) with (he | hlt) | (he | hlt)
    · exact he ▸ le_refl _
    · exact hlt.le
    · exact he ▸ hnear
    · exact hnear.trans hlt.le
  · refine le_trans ?_ (hfraction a hq)
    rcases h _ ((hfraction a hq).trans hb) with (he | hlt) | (he | hlt)
    · rw [he]
    · exact absurd heq hlt.ne'
    · rw [he] at heq ⊢
      exact htie heq.symm
    · exact absurd heq (hnear.trans_lt hlt).ne'

theorem flanked_self : Flanked bound x x x := by
  intro y _
  unfold magnitude
  grind

end Flanked

/-! ## What an expansion keeps -/

namespace Expansion

variable {bound : Nat} {x : Rat} {e : Expansion}

/-- What is kept by the expansion of `x` within a bound, once it has begun. -/
structure Expands (bound : Nat) (x : Rat) (e : Expansion) : Prop where
  num : e.n * e.p₁ + e.d * e.p₀ = x.num
  den : e.n * e.q₁ + e.d * e.q₀ = x.den
  det : e.p₁ * e.q₀ - e.p₀ * e.q₁ = 1 ∨ e.p₁ * e.q₀ - e.p₀ * e.q₁ = -1
  q₀_nonneg : 0 ≤ e.q₀
  q₀_le : e.q₀ ≤ e.q₁
  q₁_pos : 0 < e.q₁
  q₁_le : e.q₁ ≤ bound
  d_lt : e.d < e.n

theorem natCast_d_next (hd : e.d ≠ 0) : (e.next.d : Int) = e.n - e.n / e.d * e.d := by
  have hnonneg := Int.emod_nonneg e.n (b := e.d) (by omega)
  have hdiv := Int.emod_add_mul_ediv e.n e.d
  rw [next, Int.toNat_of_nonneg hnonneg]
  linear_combination hdiv

theorem expands_next_start (hb : 0 < bound) : Expands bound x (start x).next := by
  have hd : (start x).d ≠ 0 := x.den_nz
  have hrest : ((start x).next.d : Int) = x.num - x.num / x.den * x.den := natCast_d_next hd
  have hlt : ((start x).next.d : Int) < x.den := by exact_mod_cast d_next_lt hd
  refine ⟨?_, ?_, .inr ?_, ?_, ?_, ?_, ?_, hlt⟩
  · rw [hrest]
    simp only [next, start]
    ring
  · rw [hrest]
    simp only [next, start]
    ring
  all_goals simp only [next, start]; omega

/-- **One more partial quotient keeps what the expansion keeps.** -/
theorem Expands.next (h : Expands bound x e) (hd : e.d ≠ 0) (hb : e.next.q₁ ≤ bound) :
    Expands bound x e.next := by
  have hrest := natCast_d_next hd
  have hlt : (e.next.d : Int) < e.d := by exact_mod_cast d_next_lt hd
  have hquotient : 1 ≤ e.n / e.d := Int.le_ediv_of_mul_le (by omega) (by linarith [h.d_lt])
  have hgrows : e.q₁ ≤ e.next.q₁ := by
    have hmul : 1 * e.q₁ ≤ e.n / e.d * e.q₁ :=
      Int.mul_le_mul_of_nonneg_right hquotient h.q₁_pos.le
    have hnonneg := h.q₀_nonneg
    simp only [Expansion.next]
    omega
  refine ⟨?_, ?_, ?_, h.q₁_pos.le, hgrows, h.q₁_pos.trans_le hgrows, hb, hlt⟩
  · rw [hrest, ← h.num]
    simp only [Expansion.next]
    ring
  · rw [hrest, ← h.den]
    simp only [Expansion.next]
    ring
  · simp only [Expansion.next]
    rcases h.det with hdet | hdet
    · exact .inr (by linear_combination -hdet)
    · exact .inl (by linear_combination -hdet)

/-- An expansion that has come to its end is at a convergent with the denominator of the number. -/
theorem Expands.den_le_of_d_eq_zero (h : Expands bound x e) (hd : e.d = 0) : x.den ≤ bound := by
  have hnum := h.num
  have hden := h.den
  rw [hd, Nat.cast_zero, zero_mul, add_zero] at hnum hden
  have hn : e.n ∣ 1 := by
    have hgcd : (e.n : Int) ∣ Int.gcd x.num x.den :=
      Int.dvd_coe_gcd (hnum ▸ dvd_mul_right _ _) (hden ▸ dvd_mul_right _ _)
    rwa [Int.gcd, Int.natAbs_natCast, x.reduced] at hgcd
  have hlt := h.d_lt
  have hone : e.n = 1 := Int.eq_one_of_dvd_one (by omega) hn
  have hle := h.q₁_le
  rw [hone, one_mul] at hden
  omega

/-- The expansion has stopped: one more partial quotient would go beyond the bound. -/
structure IsLast (bound : Nat) (x : Rat) (e : Expansion) : Prop extends Expands bound x e where
  d_pos : 0 < e.d
  lt_next : bound < e.next.q₁

/-- **Every expansion of a number beyond the bound stops.** -/
theorem Expands.isLast_within (h : Expands bound x e) (hx : bound < x.den) :
    IsLast bound x (e.within bound) := by
  fun_induction within bound e with
  | case1 e hd => exact absurd (h.den_le_of_d_eq_zero hd) (by omega)
  | case2 e hd hlt => exact ⟨h, Nat.pos_of_ne_zero hd, hlt⟩
  | case3 e hd hle ih => exact ih (h.next hd (by omega))

theorem isLast_within_start (hb : 0 < bound) (hx : bound < x.den) :
    IsLast bound x ((start x).within bound) := by
  have hd : (start x).d ≠ 0 := x.den_nz
  have hone : (start x).next.q₁ = 1 := by simp [next, start]
  rw [within, if_neg hd, if_neg (by omega)]
  exact (expands_next_start hb).isLast_within hx

/-! ## The two candidates -/

/-- The numerator of the intermediate fraction. -/
def intermediateNum (e : Expansion) (bound : Nat) : Int := e.p₀ + e.room bound * e.p₁

/-- The denominator of the intermediate fraction. -/
def intermediateDen (e : Expansion) (bound : Nat) : Int := e.q₀ + e.room bound * e.q₁

theorem intermediate_eq :
    e.intermediate bound = e.intermediateNum bound / e.intermediateDen bound := rfl

theorem det_intermediate (e : Expansion) (bound : Nat) :
    e.p₁ * e.intermediateDen bound - e.intermediateNum bound * e.q₁ =
      e.p₁ * e.q₀ - e.p₀ * e.q₁ := by
  rw [intermediateDen, intermediateNum]
  ring

namespace IsLast

variable (h : IsLast bound x e)
include h

theorem intermediateDen_le : e.intermediateDen bound ≤ bound := by
  have hroom := Int.ediv_mul_le (bound - e.q₀) h.q₁_pos.ne'
  rw [intermediateDen, room]
  omega

theorem lt_intermediateDen_add : bound < e.intermediateDen bound + e.q₁ := by
  have hroom := Int.lt_ediv_add_one_mul_self (bound - e.q₀) h.q₁_pos
  rw [intermediateDen, room]
  linarith

theorem intermediateDen_pos : 0 < e.intermediateDen bound := by
  have hlt := h.lt_intermediateDen_add
  have hle := h.q₁_le
  omega

/-- At least one more of the newer convergent would be taken in the next partial quotient. -/
theorem d_le : (e.d : Int) ≤ e.n - e.room bound * e.d := by
  have hd : (0 : Int) < e.d := by exact_mod_cast h.d_pos
  have hlt : e.room bound < e.n / e.d := by
    have hle := h.intermediateDen_le
    have hnext := h.lt_next
    rw [intermediateDen] at hle
    simp only [next] at hnext
    refine lt_of_mul_lt_mul_right ?_ h.q₁_pos.le
    omega
  have hmul : (e.room bound + 1) * e.d ≤ e.n / e.d * e.d :=
    Int.mul_le_mul_of_nonneg_right (by omega) hd.le
  have hle := Int.ediv_mul_le e.n hd.ne'
  linarith

/-- On which side of the newer convergent the number lies. -/
theorem newer_side :
    x.num * e.q₁ - e.p₁ * x.den = -(e.d * (e.p₁ * e.q₀ - e.p₀ * e.q₁)) := by
  rw [← h.num, ← h.den]
  ring

/-- It lies on the other side of the intermediate fraction. -/
theorem intermediate_side :
    x.num * e.intermediateDen bound - e.intermediateNum bound * x.den =
      (e.n - e.room bound * e.d) * (e.p₁ * e.q₀ - e.p₀ * e.q₁) := by
  rw [← h.num, ← h.den, intermediateDen, intermediateNum]
  ring

/-- **The two candidates flank the number.** -/
theorem flanked : Flanked bound x e.newer (e.intermediate bound) := by
  have hq := h.q₁_pos
  have hq' := h.intermediateDen_pos
  have hsum := h.lt_intermediateDen_add
  have hd := h.d_pos
  have hle := h.d_le
  have hdet := det_intermediate e bound
  have hnewer := h.newer_side
  have hintermediate := h.intermediate_side
  rw [newer, intermediate_eq]
  rcases h.det with hone | hone <;> rw [hone] at hdet hnewer hintermediate
  · -- The newer convergent is the greater one.
    refine (flanked_of_between ((intCast_div_le_iff hq').2 ?_) ((le_intCast_div_iff hq).2 ?_)
      fun y hy => le_or_le_of_neighbours hq' hq hdet ?_).symm
    all_goals omega
  · refine flanked_of_between ((intCast_div_le_iff hq).2 ?_) ((le_intCast_div_iff hq').2 ?_)
      fun y hy => le_or_le_of_neighbours hq hq' (by linarith) ?_
    all_goals omega

theorem den_newer : (e.newer.den : Int) = e.q₁ := den_div_of_det h.q₁_pos h.det

theorem intermediate_neighbours :
    e.intermediateNum bound * e.q₁ - e.p₁ * e.intermediateDen bound = 1 ∨
      e.intermediateNum bound * e.q₁ - e.p₁ * e.intermediateDen bound = -1 := by
  have hdet := det_intermediate e bound
  rcases h.det with hone | hone
  · exact .inr (by linarith)
  · exact .inl (by linarith)

theorem den_intermediate : ((e.intermediate bound).den : Int) = e.intermediateDen bound :=
  den_div_of_det h.intermediateDen_pos h.intermediate_neighbours

/-- If the two candidates are equally near, the newer convergent is the simpler one. -/
theorem den_newer_le (heq : magnitude (e.newer - x) = magnitude (e.intermediate bound - x)) :
    e.newer.den ≤ (e.intermediate bound).den := by
  have hq := h.q₁_pos
  have hq' := h.intermediateDen_pos
  have hbalance : e.intermediateDen bound * e.d = e.q₁ * (e.n - e.room bound * e.d) := by
    have hdet := det_intermediate e bound
    rw [newer, intermediate_eq] at heq
    rcases eq_or_midway hq hq' heq with heq | hmid
    · rcases h.det with hone | hone <;> omega
    · rw [h.newer_side, h.intermediate_side] at hmid
      rcases h.det with hone | hone <;> rw [hone] at hmid <;> linarith
  have hle : e.q₁ * e.d ≤ e.intermediateDen bound * e.d := by
    rw [hbalance]
    exact Int.mul_le_mul_of_nonneg_left h.d_le hq.le
  have hd : (0 : Int) < e.d := by exact_mod_cast h.d_pos
  have hden := le_of_mul_le_mul_right hle hd
  rw [← h.den_newer, ← h.den_intermediate] at hden
  exact_mod_cast hden

end IsLast

end Expansion

/-- What is found is the nearer one of two fractions that flank the number. -/
theorem Precision.exists_flanked_nearest (p : Precision) (x : Rat) :
    ∃ r', Flanked p.denominator x (p.nearest x) r' ∧ (p.nearest x).den ≤ p.denominator ∧
      magnitude (p.nearest x - x) ≤ magnitude (r' - x) ∧
      (magnitude (p.nearest x - x) = magnitude (r' - x) → (p.nearest x).den ≤ r'.den) := by
  by_cases hx : x.den ≤ p.denominator
  · rw [nearest_of_den_le hx]
    exact ⟨x, flanked_self, hx, le_rfl, fun _ => le_rfl⟩
  · have hlast := Expansion.isLast_within_start p.pos (Nat.lt_of_not_le hx)
    have hnewer := hlast.den_newer
    have hintermediate := hlast.den_intermediate
    have hle := hlast.q₁_le
    have hle' := hlast.intermediateDen_le
    rw [nearest, if_neg hx]
    dsimp only
    split
    · next hnear => exact ⟨_, hlast.flanked, by omega, hnear, hlast.den_newer_le⟩
    · next hnear =>
      have hlt := lt_of_not_ge hnear
      exact ⟨_, hlast.flanked.symm, by omega, hlt.le, fun heq => absurd heq hlt.ne⟩

/-- **The fraction found is a best one**, for every number and every bound. -/
theorem Precision.isBest_nearest (p : Precision) (x : Rat) :
    IsBest p.denominator x (p.nearest x) := by
  obtain ⟨r', hflanked, hden, hnear, htie⟩ := p.exists_flanked_nearest x
  exact hflanked.isBest hden hnear htie

/-- Of one half and one, which are equally near, the whole number is taken. -/
example : (⟨2, by decide⟩ : Precision).nearest (3 / 4) = 1 := by decide +kernel

end Footrule
