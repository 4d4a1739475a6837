import Footrule.Precision

/-!
# The nearest fraction of bounded denominator

Among the fractions whose denominator is at most `D`, one nearest to a given number is found from
the convergents of the number's continued fraction. The expansion stops at the last convergent whose
denominator keeps within `D`. From there only two candidates are left: that convergent, and the
fraction reached from the one before it by adding that convergent, numerator to numerator and
denominator to denominator, as often as the bound allows.
-/

namespace Footrule

/--
A state of a continued fraction expansion: two consecutive convergents `p₀/q₀` and `p₁/q₁`, and the
number `n/d` that is still to be expanded.
-/
structure Expansion where
  p₀ : Int
  q₀ : Int
  p₁ : Int
  q₁ : Int
  n : Int
  d : Nat
  deriving DecidableEq, Repr

namespace Expansion

/-- Nothing of `x` is expanded: the convergents are `0/1` and the formal fraction `1/0`. -/
def start (x : Rat) : Expansion := ⟨0, 1, 1, 0, x.num, x.den⟩

/-- One more partial quotient, the whole part of `n/d`. -/
def next (e : Expansion) : Expansion where
  p₀ := e.p₁
  q₀ := e.q₁
  p₁ := e.p₀ + e.n / e.d * e.p₁
  q₁ := e.q₀ + e.n / e.d * e.q₁
  n := e.d
  d := (e.n % e.d).toNat

theorem d_next_lt {e : Expansion} (h : e.d ≠ 0) : e.next.d < e.d := by
  have := Int.emod_lt_of_pos e.n (b := e.d) (by omega)
  have := Int.emod_nonneg e.n (b := e.d) (by omega)
  simp only [next]
  omega

/--
The last state whose newer denominator is at most `bound`. An expansion that ends before ends with
the number itself as its newer convergent.
-/
def within (bound : Nat) (e : Expansion) : Expansion :=
  if e.d = 0 then e
  else if bound < e.next.q₁ then e
  else within bound e.next
termination_by e.d
decreasing_by exact d_next_lt ‹_›

/-- The newer convergent. -/
def newer (e : Expansion) : Rat := e.p₁ / e.q₁

/-- How many times the newer convergent may be added to the older one within the bound. -/
def room (e : Expansion) (bound : Nat) : Int := (bound - e.q₀) / e.q₁

/-- The fraction reached from the older convergent by adding the newer one that many times. -/
def intermediate (e : Expansion) (bound : Nat) : Rat :=
  ((e.p₀ + e.room bound * e.p₁ : Int) : Rat) / ((e.q₀ + e.room bound * e.q₁ : Int) : Rat)

end Expansion

namespace Precision

/-- A fraction nearest to `x` among those of denominator at most `D`. -/
def nearest (p : Precision) (x : Rat) : Rat :=
  if x.den ≤ p.denominator then x
  else
    let last := (Expansion.start x).within p.denominator
    let newer := last.newer
    let intermediate := last.intermediate p.denominator
    if magnitude (newer - x) ≤ magnitude (intermediate - x) then newer else intermediate

/-- The value shown for `v`: the nearest multiple of `1/D`, as a fraction within the bound. -/
def reduce (p : Precision) (v : Rat) : Rat := p.nearest (p.snap v)

theorem nearest_of_den_le {p : Precision} {x : Rat} (h : x.den ≤ p.denominator) :
    p.nearest x = x :=
  if_pos h

end Precision

end Footrule
