/-!
# Ranges of characters

A character property is a short list of ranges of code points. The listed properties are compared
through their ranges: two properties share no character when no two of their ranges meet
(`not_inRanges_of_disjoint`).
-/

namespace Footrule

/-- The characters from code point `first` to code point `last`, both included. -/
structure CharRange where
  first : Nat
  last : Nat
  deriving DecidableEq, Repr

namespace CharRange

/-- Whether a character lies in the range. -/
def contains (r : CharRange) (c : Char) : Bool :=
  decide (r.first ≤ c.toNat) && decide (c.toNat ≤ r.last)

@[simp] theorem contains_iff {r : CharRange} {c : Char} :
    r.contains c = true ↔ r.first ≤ c.toNat ∧ c.toNat ≤ r.last := by
  simp [contains]

/-- Whether two ranges share no code point. -/
def disjoint (r s : CharRange) : Bool := decide (r.last < s.first) || decide (s.last < r.first)

end CharRange

/-- Whether a character lies in one of the ranges. -/
def inRanges (rs : List CharRange) (c : Char) : Bool := rs.any (·.contains c)

/-- Lists of pairwise disjoint ranges share no character. -/
theorem not_inRanges_of_disjoint {rs ss : List CharRange} {c : Char}
    (h : (rs.all fun r => ss.all fun s => r.disjoint s) = true) (hr : inRanges rs c = true) :
    inRanges ss c = false := by
  obtain ⟨r, hrm, hrc⟩ := List.any_eq_true.1 hr
  refine Bool.eq_false_iff.2 fun hs => ?_
  obtain ⟨s, hsm, hsc⟩ := List.any_eq_true.1 hs
  have hd := List.all_eq_true.1 (List.all_eq_true.1 h r hrm) s hsm
  simp only [CharRange.disjoint, Bool.or_eq_true, decide_eq_true_eq] at hd
  rw [CharRange.contains_iff] at hrc hsc
  omega

end Footrule
