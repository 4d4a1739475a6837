import Footrule.Proofs.Precision.Nearest
import Mathlib.Logic.Function.Iterate

/-!
# The expansion stops

An expansion goes on as long as the next denominator keeps within the bound, and divides by `d` at
every turn (`Expansion.StopsAfter`). For a number whose own denominator is beyond the bound it does
so a number of times and then stops (`Expansion.exists_stopsAfter_start`): every turn makes `d`
smaller, and at a `d` of zero the newer convergent would be the number itself, with a denominator
within the bound (`Expansion.Expands.den_le_of_d_eq_zero`). What is left then are two candidates in
lowest terms (`Precision.expansion_stops`).
-/

namespace Footrule

namespace Expansion

variable {bound turns : Nat} {x : Rat} {e : Expansion}

/--
From a state on, the expansion goes on for a number of turns and then stops at the bound. Every
division, the one at the turn where it stops included, is by a positive number.
-/
structure StopsAfter (bound turns : Nat) (e : Expansion) : Prop where
  d_pos : ∀ i ≤ turns, 0 < (next^[i] e).d
  q₁_le : ∀ i < turns, (next^[i + 1] e).q₁ ≤ bound
  lt_q₁ : bound < (next^[turns + 1] e).q₁

namespace StopsAfter

theorem zero (hd : 0 < e.d) (hlt : bound < e.next.q₁) : StopsAfter bound 0 e where
  d_pos i hi := by
    rw [Nat.le_zero.1 hi]
    exact hd
  q₁_le i hi := absurd hi (Nat.not_lt_zero i)
  lt_q₁ := hlt

/-- One turn more, if it keeps within the bound. -/
theorem cons (hd : 0 < e.d) (hle : e.next.q₁ ≤ bound) (h : StopsAfter bound turns e.next) :
    StopsAfter bound (turns + 1) e where
  d_pos i hi := by
    cases i with
    | zero => exact hd
    | succ i => exact h.d_pos i (Nat.le_of_succ_le_succ hi)
  q₁_le i hi := by
    cases i with
    | zero => exact hle
    | succ i => exact h.q₁_le i (Nat.lt_of_succ_lt_succ hi)
  lt_q₁ := h.lt_q₁

/-- From turn to turn the division is by a smaller number. -/
theorem d_lt (h : StopsAfter bound turns e) {i : Nat} (hi : i < turns) :
    (next^[i + 1] e).d < (next^[i] e).d := by
  rw [Function.iterate_succ_apply']
  exact d_next_lt (h.d_pos i hi.le).ne'

/-- There are fewer turns than the first division is by. -/
theorem turns_lt (h : StopsAfter bound turns e) : turns < e.d := by
  have hsum : ∀ i ≤ turns, (next^[i] e).d + i ≤ e.d := by
    intro i hi
    induction i with
    | zero => exact le_rfl
    | succ i ih =>
      have hlt := h.d_lt hi
      have hle := ih (Nat.le_of_succ_le hi)
      omega
  have hpos := h.d_pos turns le_rfl
  have hle := hsum turns le_rfl
  omega

/-- After the first turn it goes on for one turn less. -/
theorem rest (h : StopsAfter bound (turns + 1) e) :
    e.next.q₁ ≤ bound ∧ StopsAfter bound turns e.next where
  left := h.q₁_le 0 (Nat.succ_pos turns)
  right :=
    ⟨fun i hi => h.d_pos (i + 1) (Nat.succ_le_succ hi),
      fun i hi => h.q₁_le (i + 1) (Nat.succ_lt_succ hi), h.lt_q₁⟩

/-- The state at which the expansion stops is the last one within the bound. -/
theorem within_eq (h : StopsAfter bound turns e) : e.within bound = next^[turns] e := by
  have hd : e.d ≠ 0 := (h.d_pos 0 (Nat.zero_le turns)).ne'
  induction turns generalizing e with
  | zero =>
    have hlt : bound < e.next.q₁ := h.lt_q₁
    rw [within, if_neg hd, if_pos hlt]
    rfl
  | succ turns ih =>
    obtain ⟨hle, hrest⟩ := h.rest
    rw [within, if_neg hd, if_neg (not_lt.2 hle)]
    exact ih hrest (hrest.d_pos 0 (Nat.zero_le turns)).ne'

end StopsAfter

/-- **Every expansion of a number beyond the bound stops, with all its divisions possible.** -/
theorem Expands.exists_stopsAfter (h : Expands bound x e) (hx : bound < x.den) :
    ∃ turns, StopsAfter bound turns e := by
  fun_induction within bound e with
  | case1 e hd => exact absurd (h.den_le_of_d_eq_zero hd) (not_le.2 hx)
  | case2 e hd hlt => exact ⟨0, .zero (Nat.pos_of_ne_zero hd) hlt⟩
  | case3 e hd hle ih =>
    obtain ⟨turns, hstops⟩ := ih (h.next hd (not_lt.1 hle))
    exact ⟨turns + 1, hstops.cons (Nat.pos_of_ne_zero hd) (not_lt.1 hle)⟩

theorem exists_stopsAfter_start (hb : 0 < bound) (hx : bound < x.den) :
    ∃ turns, StopsAfter bound turns (start x) := by
  obtain ⟨turns, hstops⟩ := (expands_next_start hb).exists_stopsAfter hx
  -- the first convergent is a whole number, and no bound is below its denominator
  have hone : (start x).next.q₁ = 1 := by simp [next, start]
  exact ⟨turns + 1, hstops.cons x.den_pos (by omega)⟩

namespace IsLast

variable (h : IsLast bound x e)
include h

theorem room_nonneg : 0 ≤ e.room bound :=
  Int.ediv_nonneg (by linarith [h.q₀_le, h.q₁_le]) h.q₁_pos.le

theorem num_newer : e.newer.num = e.p₁ := num_div_of_det h.q₁_pos h.det

theorem num_intermediate : (e.intermediate bound).num = e.intermediateNum bound :=
  num_div_of_det h.intermediateDen_pos h.intermediate_neighbours

end IsLast

end Expansion

open Expansion

/--
**The search for a nearest fraction ends, and never divides by zero.** If the denominator of `x` is
beyond the bound, the expansion stops after a number of turns, fewer than that denominator. At each
turn it divides by a positive `d`, which is smaller from turn to turn. Where it stops the newer
convergent may be added to the older one a number of times `k` within the bound, so that both
candidates have a denominator from one to the bound; the convergents have determinant one, and both
candidates are in lowest terms as they are written.
-/
theorem Precision.expansion_stops (p : Precision) {x : Rat} (hx : p.denominator < x.den) :
    ∃ (turns : Nat) (last : Expansion) (k : Int),
      StopsAfter p.denominator turns (start x) ∧ turns < x.den ∧
      (∀ i < turns, (next^[i + 1] (start x)).d < (next^[i] (start x)).d) ∧
      last = next^[turns] (start x) ∧ last = (start x).within p.denominator ∧
      k = last.room p.denominator ∧ 0 ≤ k ∧
      1 ≤ last.q₁ ∧ last.q₁ ≤ p.denominator ∧ last.q₀ ≤ p.denominator ∧
      1 ≤ last.q₀ + k * last.q₁ ∧ last.q₀ + k * last.q₁ ≤ p.denominator ∧
      (last.p₁ * last.q₀ - last.p₀ * last.q₁ = 1 ∨ last.p₁ * last.q₀ - last.p₀ * last.q₁ = -1) ∧
      last.newer.num = last.p₁ ∧ last.newer.den = last.q₁ ∧
      (last.intermediate p.denominator).num = last.p₀ + k * last.p₁ ∧
      (last.intermediate p.denominator).den = last.q₀ + k * last.q₁ := by
  obtain ⟨turns, hstops⟩ := exists_stopsAfter_start p.pos hx
  have hlast := isLast_within_start p.pos hx
  exact ⟨turns, _, _, hstops, hstops.turns_lt, fun i => hstops.d_lt, hstops.within_eq, rfl, rfl,
    hlast.room_nonneg, hlast.q₁_pos, hlast.q₁_le, hlast.q₀_le.trans hlast.q₁_le,
    hlast.intermediateDen_pos, hlast.intermediateDen_le, hlast.det, hlast.num_newer,
    hlast.den_newer, hlast.num_intermediate, hlast.den_intermediate⟩

/-- Within ten, −3.14159 is left between −22/7 and −25/8. -/
theorem Precision.expansion_stops_ten :
    10 < (-314159 / 100000 : Rat).den ∧ ∃ turns last,
      StopsAfter 10 turns (start (-314159 / 100000)) ∧ turns < 100000 ∧
      last = next^[turns] (start (-314159 / 100000)) ∧
      last = ⟨-3, 1, -22, 7, 14159, 887⟩ ∧ last.newer.num = -22 ∧ last.newer.den = 7 ∧
      (last.intermediate 10).num = -25 ∧ (last.intermediate 10).den = 8 := by
  have hden : (-314159 / 100000 : Rat).den = 100000 := by decide +kernel
  have hx : 10 < (-314159 / 100000 : Rat).den := by omega
  obtain ⟨turns, last, k, hstops, hturns, -, hiterate, hwithin, -⟩ :=
    expansion_stops ⟨10, by decide⟩ hx
  have hlast : last = ⟨-3, 1, -22, 7, 14159, 887⟩ := hwithin.trans (by decide +kernel)
  refine ⟨hx, turns, last, hstops, hden ▸ hturns, hiterate, hlast, ?_⟩
  rw [hlast]
  decide +kernel

end Footrule
