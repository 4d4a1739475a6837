import Footrule.Proofs.Precision.Grid
import Footrule.Proofs.Shown.OnGrid

/-!
# Decimals in their shortest form

A decimal is in its shortest form if nothing can be left out of it: no zero at the beginning or at
the end, no point at the end, no sign of zero (`ShortDecimal`). What is shown of a number is in
this form, with four decimal places at most, and denotes the nearest number of ten-thousandths, of
two the even one (`Display.decimal_canonical`). So it is shown of exactly the numbers that round
to the same number of ten-thousandths (`Display.decimal_eq_iff`). It is the decimal with all its
places, taken without the zeros at the end of the text and then without the point
(`Display.toList_decimal_eq_dropTrailing`).
-/

namespace Footrule

/--
A decimal in its shortest form with at most so many decimal places: the whole part begins with no
zero unless it is zero, the decimal places do not end in zero, and zero has no sign.
-/
structure ShortDecimal (bound : Nat) where
  negative : Bool
  whole : List Char
  places : List Char
  plain_whole : PlainRun whole
  head_whole : '0' ∈ whole.head? → whole = ['0']
  digits_places : ∀ c ∈ places, c.isDigit = true
  getLast_places : '0' ∉ places.getLast?
  length_places_le : places.length ≤ bound
  ne_zero_of_negative : negative = true → whole = ['0'] → places ≠ []

namespace ShortDecimal

variable {bound : Nat} (d : ShortDecimal bound)

/-- How the decimal is written: there is a point only if there are decimal places. -/
def text : List Char :=
  minusSign d.negative ++ d.whole ++ if d.places = [] then [] else '.' :: d.places

/-- The decimal with zeros behind its places, and with a point in any case. -/
def padded (zeros : Nat) : List Char :=
  minusSign d.negative ++ d.whole ++ '.' :: (d.places ++ List.replicate zeros '0')

/-- The number that the decimal stands for. -/
def value : Rat :=
  withSign d.negative (Literal.digitsValue d.whole +
    Literal.digitsValue d.places / Nat.pow 10 d.places.length)

theorem text_ne_minus_zero : d.text ≠ ['-', '0'] := by
  intro htext
  cases hneg : d.negative with
  | false =>
    obtain ⟨c, ws, hwhole⟩ := List.exists_cons_of_ne_nil d.plain_whole.1
    rw [text, hneg, hwhole] at htext
    have hdigit := d.plain_whole.2 c (by rw [hwhole]; exact List.mem_cons_self)
    rw [(List.cons.inj htext).1] at hdigit
    exact absurd hdigit (by decide)
  | true =>
    rw [text, hneg] at htext
    rcases List.append_eq_singleton_iff.1 (List.cons.inj htext).2 with ⟨h, -⟩ | ⟨hwhole, h⟩
    · exact d.plain_whole.1 h
    · have hplaces := d.ne_zero_of_negative hneg hwhole
      rw [if_neg hplaces] at h
      exact absurd h (List.cons_ne_nil _ _)

/-- **Without the zeros at its end and then the point a decimal is in its shortest form.** -/
theorem dropTrailing_padded (zeros : Nat) :
    dropTrailing (· = '.') (dropTrailing (· = '0') (d.padded zeros)) = d.text := by
  have hlast : ∀ c ∈ ('.' :: d.places).getLast?, decide (c = '0') = false := by
    intro c hc
    rw [List.getLast?_cons] at hc
    obtain rfl := Option.some.inj hc
    cases hplaces : d.places.getLast? with
    | none => rfl
    | some c => exact decide_eq_false fun h => d.getLast_places (h ▸ hplaces)
  have hzeros : dropTrailing (· = '0') (d.padded zeros) =
      minusSign d.negative ++ d.whole ++ '.' :: d.places := by
    rw [padded, ← List.cons_append, ← List.append_assoc,
      dropTrailing_append_of_forall fun c hc => decide_eq_true (List.eq_of_mem_replicate hc)]
    refine dropTrailing_eq_self fun c hc => hlast c ?_
    rwa [List.getLast?_append_of_ne_nil _ (List.cons_ne_nil _ _)] at hc
  have hpoint {c : Char} (hc : c.isDigit = true) : decide (c = '.') = false :=
    decide_eq_false fun h => absurd (h ▸ hc) (by decide)
  rw [hzeros, text]
  by_cases hplaces : d.places = []
  · rw [hplaces, if_pos rfl, List.append_nil,
      dropTrailing_append_of_forall fun c hc => decide_eq_true (List.mem_singleton.1 hc)]
    refine dropTrailing_eq_self fun c hc => ?_
    rw [List.getLast?_append_of_ne_nil _ d.plain_whole.1] at hc
    exact hpoint (d.plain_whole.2 c (List.mem_of_getLast? hc))
  · rw [if_neg hplaces]
    refine dropTrailing_eq_self fun c hc => ?_
    rw [List.append_cons, List.getLast?_append_of_ne_nil _ hplaces] at hc
    exact hpoint (d.digits_places c (List.mem_of_getLast? hc))

end ShortDecimal

/-! ## Digits -/

/-- The digits of a number begin with no zero, unless the number is zero. -/
theorem eq_zero_of_head_toDigits {n : Nat} (h : '0' ∈ (Nat.toDigits 10 n).head?) : n = 0 := by
  induction n using Nat.strongRecOn with
  | ind n ih =>
    rw [Nat.toDigits_eq_if (by decide)] at h
    split at h
    · next hlt =>
      have hdigit : ∀ m < 10, '0' ∈ [m.digitChar].head? → m = 0 := by decide
      exact hdigit n hlt h
    · next hle =>
      rw [List.head?_append_of_ne_nil _ Nat.toDigits_ne_nil] at h
      have hzero := ih (n / 10) (by omega) h
      omega

namespace Display

theorem plainRun_wholeDigits (v : Rat) : PlainRun (wholeDigits v) := plainRun_toDigits _

theorem head_wholeDigits {v : Rat} (h : '0' ∈ (wholeDigits v).head?) : wholeDigits v = ['0'] := by
  rw [wholeDigits, eq_zero_of_head_toDigits h]
  rfl

theorem isDigit_shownPlaces (v : Rat) : ∀ c ∈ shownPlaces v, c.isDigit = true :=
  isDigit_decimalDigits

theorem length_shownPlaces_le (v : Rat) : (shownPlaces v).length ≤ decimalPlaces := by
  obtain ⟨zeros, -, hlength⟩ := exists_decimalDigits_append
    (Nat.mod_lt (roundEven (v * decimalScale)).natAbs (y := decimalScale) (by decide))
  rw [shownPlaces]
  omega

theorem getLast_shownPlaces (v : Rat) : '0' ∉ (shownPlaces v).getLast? := by
  intro hmem
  have hother := getLast_dropTrailing (· = '0') _ '0' hmem
  simp at hother

theorem shownPlaces_ne_nil {v : Rat} (h : rounded v < 0) (hwhole : wholeDigits v = ['0']) :
    shownPlaces v ≠ [] := by
  intro hplaces
  have hmagnitude := magnitude_rounded v
  rw [hwhole, hplaces, magnitude_eq_abs] at hmagnitude
  have hnone :
      (Literal.digitsValue ['0'] + Literal.digitsValue [] / (Nat.pow 10 0 : Nat) : Rat) = 0 := by
    decide +kernel
  exact h.ne (abs_eq_zero.1 (hmagnitude.trans hnone))

/-! ## The decimal shown -/

/-- The decimal shown of a number. -/
def shortDecimal (v : Rat) : ShortDecimal 4 where
  negative := decide (rounded v < 0)
  whole := wholeDigits v
  places := shownPlaces v
  plain_whole := plainRun_wholeDigits v
  head_whole := head_wholeDigits
  digits_places := isDigit_shownPlaces v
  getLast_places := getLast_shownPlaces v
  length_places_le := length_shownPlaces_le v
  ne_zero_of_negative hneg := shownPlaces_ne_nil (of_decide_eq_true hneg)

theorem text_shortDecimal (v : Rat) : (decimal v).toList = (shortDecimal v).text := by
  have hliteral : (decimalLiteral v).text =
      wholeDigits v ++ if shownPlaces v = [] then [] else '.' :: shownPlaces v := by
    by_cases h : shownPlaces v = []
    · have hwhole : decimalLiteral v = ⟨.whole (wholeDigits v), plainRun_toDigits _⟩ := dif_pos h
      rw [hwhole, if_pos h, List.append_nil]
      rfl
    · have hdecimal : decimalLiteral v = ⟨.decimal (wholeDigits v) (shownPlaces v),
          (plainRun_toDigits _).2, h, isDigit_decimalDigits⟩ := dif_neg h
      rw [hdecimal, if_neg h]
      rfl
  rw [toList_decimal, hliteral, ← List.append_assoc]
  rfl

/-- A number of units of the last decimal place as a decimal with all its places. -/
def fixedDecimal (units : Int) : List Char :=
  minusSign (decide (units < 0)) ++ Nat.toDigits 10 (units.natAbs / decimalScale) ++
    '.' :: (Nat.toDigits 10 (units.natAbs % decimalScale)).leftpad decimalPlaces '0'

/-- Behind the decimal shown there are only zeros up to the last place. -/
theorem exists_padded_shortDecimal (v : Rat) :
    ∃ zeros, (shortDecimal v).padded zeros = fixedDecimal (roundEven (v * decimalScale)) := by
  obtain ⟨zeros, happ⟩ := decimalDigits_append
    ((roundEven (v * decimalScale)).natAbs % decimalScale)
  refine ⟨zeros, ?_⟩
  rw [fixedDecimal, ← happ]
  simp only [ShortDecimal.padded, shortDecimal, rounded_neg_iff]
  rfl

/--
**The decimal is stripped of its zeros as a whole text.** Zero is written as such. Of the decimal of
any other number, with all its places, the zeros at the end are taken away and then the point: no
zero of the whole part goes with them.
-/
theorem toList_decimal_eq_dropTrailing (v : Rat) :
    (decimal v).toList =
      if roundEven (v * decimalScale) = 0 then ['0']
      else dropTrailing (· = '.')
        (dropTrailing (· = '0') (fixedDecimal (roundEven (v * decimalScale)))) := by
  split
  · next hzero =>
    rw [decimal, hzero]
    decide
  · obtain ⟨zeros, hpadded⟩ := exists_padded_shortDecimal v
    rw [text_shortDecimal, ← hpadded, ShortDecimal.dropTrailing_padded]

theorem value_shortDecimal (v : Rat) : (shortDecimal v).value = rounded v := by
  have hsigned := withSign_magnitude (rounded v)
  rw [magnitude_rounded] at hsigned
  exact hsigned

/-- A decimal is shown of exactly the numbers that round to the same. -/
theorem decimal_eq_iff {v w : Rat} : decimal v = decimal w ↔ rounded v = rounded w := by
  refine ⟨fun h => ?_, fun h => ?_⟩
  · have htext := congrArg String.toList h
    rw [toList_decimal, toList_decimal] at htext
    exact eq_of_signed_text_eq (value?_decimalLiteral _) (value?_decimalLiteral _) htext
  · rw [← decimal_rounded v, h, decimal_rounded]

theorem rounded_eq_iff {v w : Rat} :
    rounded v = rounded w ↔ roundEven (v * decimalScale) = roundEven (w * decimalScale) := by
  refine ⟨fun h => ?_, fun h => by rw [rounded, rounded, h]⟩
  have hscaled := congrArg (· * (decimalScale : Rat)) h
  simp only [rounded_mul] at hscaled
  exact_mod_cast hscaled

/-- A decimal is off by half a ten-thousandth at most. -/
theorem magnitude_rounded_sub_le (v : Rat) : magnitude (rounded v - v) ≤ 1 / 20000 := by
  have hhalf := magnitude_sub_roundEven_le_half (v * decimalScale)
  have hscale : (decimalScale : Rat) = 10000 := rfl
  have hdistance := (⟨decimalScale, by decide⟩ : Precision).magnitude_sub_div v
    (roundEven (v * decimalScale))
  rw [← magnitude_neg, neg_sub]
  refine hdistance.trans_le ?_
  rw [div_le_iff₀ (by rw [hscale]; norm_num), hscale]
  exact hhalf.trans (by norm_num)

/--
**The decimal shown is canonical.** Every number is shown as a decimal in its shortest form with at
most four places, which is read back, by the calculator too, as the nearest number of
ten-thousandths, of two the even one. It differs from the number by half a ten-thousandth at most,
it is shown of exactly the numbers that round to the same, zero has no sign, and what is read back
is shown in the same way.
-/
theorem decimal_canonical (v : Rat) : ∃ (d : ShortDecimal 4) (k : Int),
    (decimal v).toList = d.text ∧ d.value = k / 10000 ∧ NearestEven (10000 * v) k ∧
    (∀ mode u, (evaluateExpression mode u (decimal v).toList).result = .ok ⟨d.value, false⟩) ∧
    magnitude (d.value - v) ≤ 1 / 20000 ∧ decimal v ≠ "-0" ∧
    (∀ w, decimal w = decimal v ↔ NearestEven (10000 * w) k) ∧ decimal d.value = decimal v := by
  have hscale (w : Rat) : 10000 * w = w * decimalScale := Rat.mul_comm 10000 w
  refine ⟨shortDecimal v, roundEven (v * decimalScale), text_shortDecimal v, value_shortDecimal v,
    ?_, fun mode u => ?_, ?_, fun hzero => ?_, fun w => ?_, ?_⟩
  · rw [hscale, nearestEven_iff]
  · have hread := ((labels_none mode u).readsAs_decimal v).result
    rw [String.append_empty] at hread
    rw [value_shortDecimal, hread]
    rfl
  · rw [value_shortDecimal]
    exact magnitude_rounded_sub_le v
  · refine (shortDecimal v).text_ne_minus_zero ?_
    rw [← text_shortDecimal, hzero]
    rfl
  · rw [hscale, nearestEven_iff, decimal_eq_iff, rounded_eq_iff]
  · rw [value_shortDecimal, decimal_rounded]

example : decimal (-100) = "-100" ∧ decimal (1 / 2000) = "0.0005" ∧ decimal (-1 / 20000) = "0" := by
  decide +kernel

end Display

end Footrule
