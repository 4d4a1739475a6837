import Footrule.Proofs.Shown.FeetInches

/-!
# Mixed fractions in lowest terms

A magnitude is written as a whole number, as a fraction below one, or as both, and the fraction is
in lowest terms (`MixedText`). Every number that is not negative is written so
(`Display.mixedText_mixedMagnitude`), and since the text is read as the number, no two numbers are
written alike (`MixedText.unique`). A length in feet and inches is written as a sign, a whole number
of feet, and inches below twelve in this form; together they are exactly the rounded length
(`Display.feetInches_denotes`).
-/

namespace Footrule

/--
The text is the number, written as a mixed fraction in lowest terms whose denominator is at most the
bound.
-/
inductive MixedText (bound : Nat) : String → Rat → Prop
  /-- `3` -/
  | whole (n : Nat) : MixedText bound (toString n) n
  /-- `5/8` -/
  | fraction {n d : Nat} (pos : 0 < n) (lt : n < d) (coprime : n.Coprime d) (le : d ≤ bound) :
      MixedText bound (toString n ++ "/" ++ toString d) (n / d)
  /-- `3 5/8` -/
  | mixed {w n d : Nat} (whole_pos : 0 < w) (pos : 0 < n) (lt : n < d) (coprime : n.Coprime d)
      (le : d ≤ bound) :
      MixedText bound (toString w ++ " " ++ toString n ++ "/" ++ toString d) (w + n / d)

namespace MixedText

variable {bound bound' : Nat} {text : String} {v v' : Rat}

/-- The text is a literal with the number as its value. -/
theorem exists_literal (h : MixedText bound text v) :
    ∃ l : PlainLiteral, l.text = text.toList ∧ l.literal.value? = some v := by
  cases h with
  | whole n =>
    refine ⟨⟨.whole (Nat.toDigits 10 n), plainRun_toDigits _⟩, (toList_toString n).symm, ?_⟩
    rw [Literal.value?, digitsValue_toDigits]
  | @fraction n d _ lt =>
    refine ⟨⟨.fraction (Nat.toDigits 10 n) (Nat.toDigits 10 d), plainRun_toDigits _,
      plainRun_toDigits _⟩, ?_, quotientValue?_toDigits n (Nat.ne_zero_of_lt lt)⟩
    simp [PlainLiteral.text, Literal.text]
  | @mixed w n d _ _ lt =>
    refine ⟨⟨.mixed (Nat.toDigits 10 w) [' '] (Nat.toDigits 10 n) (Nat.toDigits 10 d),
      plainRun_toDigits _, by decide, plainRun_toDigits _, plainRun_toDigits _⟩, ?_, ?_⟩
    · simp [PlainLiteral.text, Literal.text]
    · rw [Literal.value?, quotientValue?_toDigits n (Nat.ne_zero_of_lt lt), digitsValue_toDigits]
      rfl

/-- **A mixed fraction in lowest terms is read as its number.** -/
theorem result_readNumber (h : MixedText bound text v) :
    (readNumber text.toList).result = .ok v := by
  obtain ⟨l, htext, hvalue⟩ := h.exists_literal
  rw [← htext, PlainLiteral.text, Literal.result_readNumber l.plain, hvalue]
  rfl

/-- No two numbers are written alike. -/
theorem unique (h : MixedText bound text v) (h' : MixedText bound' text v') : v = v' :=
  Except.ok.inj (h.result_readNumber.symm.trans h'.result_readNumber)

end MixedText

namespace Display

/-- **A number that is not negative is written as a mixed fraction in lowest terms.** -/
theorem mixedText_mixedMagnitude {bound : Nat} {v : Rat} (hv : 0 ≤ v) (hden : v.den ≤ bound) :
    MixedText bound (mixedMagnitude v) v := by
  have hvalue :
      v = (v.num.natAbs / v.den : Nat) + (v.num.natAbs % v.den : Nat) / (v.den : Rat) := by
    rw [← natCast_div_eq _ v.den_nz, ← magnitude_eq_div, magnitude_of_nonneg hv]
  have hlt : v.num.natAbs % v.den < v.den := Nat.mod_lt _ v.den_pos
  have hcoprime : (v.num.natAbs % v.den).Coprime v.den := by
    rw [Nat.Coprime, ← Nat.gcd_rec, Nat.gcd_comm]
    exact v.reduced
  simp only [mixedMagnitude]
  split
  · next hpart =>
    have hwhole : v = (v.num.natAbs / v.den : Nat) := by
      rw [hpart] at hvalue
      grind
    conv => rhs; rw [hwhole]
    exact .whole _
  · next hpart =>
    have hpos := Nat.pos_of_ne_zero hpart
    split
    · next hzero =>
      have hfraction : v = (v.num.natAbs % v.den : Nat) / (v.den : Rat) := by
        rw [hzero] at hvalue
        grind
      conv => rhs; rw [hfraction]
      exact .fraction hpos hlt hcoprime hden
    · next hwhole =>
      conv => rhs; rw [hvalue]
      exact .mixed (Nat.pos_of_ne_zero hwhole) hpos hlt hcoprime hden

variable (p : Precision) (v : Rat)

theorem improper_eq_ratio_snap : improper p v = ratio (p.snap v) := by
  rw [improper, p.reduce_eq_snap]

/-- What rounds to zero is written without a sign. -/
theorem feetInches_of_snap_eq_zero (h : p.snap v = 0) : feetInches p v = "0ft 0in" := by
  have hshown : (⟨0, 0⟩ : FeetInches).IsShown p := ⟨Rat.le_refl, by decide, p.snap_zero⟩
  have hlength : magnitude 0 = (⟨0, 0⟩ : FeetInches).toInches := by decide +kernel
  have hzero : FeetInches.ofInches p (magnitude 0) = ⟨0, 0⟩ := by
    rw [hlength, FeetInches.ofInches_toInches p hshown]
  have htext : sign 0 ++ toString 0 ++ "ft " ++ mixedMagnitude 0 ++ "in" = "0ft 0in" := by
    decide +kernel
  rw [← feetInches_snap, h, feetInches, hzero, p.snap_zero, htext]

theorem feetInches_ne_minus_zero : feetInches p v ≠ "-0ft 0in" := by
  intro h
  have hsnap : p.snap v = 0 := by
    have hwritten : "-0ft 0in".toList = minusSign true ++ (⟨0, 0⟩ : FeetInches).compound.text := by
      decide +kernel
    have hvalue : withSign true (⟨0, 0⟩ : FeetInches).toInches = 0 := by decide +kernel
    have hread := result_feetInches p v
    rw [h, hwritten, FeetInches.result_compound Rat.le_refl, hvalue] at hread
    exact (congrArg Quantity.magnitude (Except.ok.inj hread)).symm
  have hzero := feetInches_of_snap_eq_zero p v hsnap
  rw [h] at hzero
  exact absurd hzero (by decide)

/--
**Feet and inches are exactly the rounded length.** Every length in inches is written as a sign, a
whole number of feet, and inches from zero to below twelve as a mixed fraction in lowest terms; with
the sign they make up the length rounded to the grid, which is what the improper fraction is written
from, and the sign is there exactly if that is negative.
-/
theorem feetInches_denotes : ∃ (negative : Bool) (feet : Nat) (text : String) (inches : Rat),
    feetInches p v = (if negative then "-" else "") ++ toString feet ++ "ft " ++ text ++ "in" ∧
    MixedText p.denominator text inches ∧ 0 ≤ inches ∧ inches < 12 ∧
    withSign negative (12 * feet + inches) = p.snap v ∧ improper p v = ratio (p.snap v) ∧
    (negative = true ↔ p.snap v < 0) ∧ feetInches p v ≠ "-0ft 0in" ∧ text ≠ "12" := by
  have hnonneg := magnitude_nonneg v
  have hshown := FeetInches.isShown_ofInches p hnonneg
  have hsum := FeetInches.toInches_ofInches p hnonneg
  generalize hl : FeetInches.ofInches p (magnitude v) = l at hshown hsum
  have hden : l.inches.den ≤ p.denominator := by
    rw [← hshown.snap]
    exact p.den_snap_le _
  have htext := mixedText_mixedMagnitude hshown.nonneg hden
  refine ⟨decide (p.snap v < 0), l.feet, mixedMagnitude l.inches, l.inches, ?_, htext,
    hshown.nonneg, hshown.lt, ?_, improper_eq_ratio_snap p v, decide_eq_true_iff,
    feetInches_ne_minus_zero p v, ?_⟩
  · simp only [feetInches, hl, sign, decide_eq_true_eq]
  · have hsigned := withSign_magnitude (p.snap v)
    rwa [← p.snap_magnitude, ← hsum] at hsigned
  · intro htwelve
    rw [htwelve] at htext
    have hwhole : MixedText p.denominator "12" (12 : Nat) := .whole 12
    have hinches : l.inches = (12 : Nat) := htext.unique hwhole
    exact Rat.ne_of_lt hshown.lt hinches

end Display

end Footrule
