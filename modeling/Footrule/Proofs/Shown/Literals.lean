import Footrule.Display.Decimal
import Footrule.Proofs.Precision
import Footrule.Proofs.Written.Reading

/-!
# The literals of shown numbers

A number is shown as a literal after a minus sign if it is negative. The literals of the mixed
fraction, the improper fraction and the decimal are written in the digits `0` to `9`, and their
values are the magnitude of the number and the decimal's whole number of units of its last place
(`value?_mixedLiteral`, `value?_ratioLiteral`, `value?_decimalLiteral`).
-/

namespace Footrule

/-! ## Digits -/

theorem plainRun_toDigits (n : Nat) : PlainRun (Nat.toDigits 10 n) :=
  ⟨Nat.toDigits_ne_nil, fun _ hc => Nat.isDigit_of_mem_toDigits (by decide) (by decide) hc⟩

theorem digitsValue_toDigits (n : Nat) : Literal.digitsValue (Nat.toDigits 10 n) = n :=
  Nat.ofDigitChars_ten_toDigits

theorem toList_toString (n : Nat) : (toString n).toList = Nat.toDigits 10 n := Nat.toList_repr

/-- The minus sign of a negative number. -/
def minusSign (negative : Bool) : List Char := if negative then ['-'] else []

theorem toList_minusSign {b : Prop} [Decidable b] :
    (if b then "-" else "").toList = minusSign (decide b) := by
  by_cases h : b <;> simp [h, minusSign]

theorem intCast_div_neg_iff (z : Int) {d : Nat} (hd : d ≠ 0) : (z : Rat) / d < 0 ↔ z < 0 := by
  have hpos : (0 : Rat) < d := by exact_mod_cast Nat.pos_of_ne_zero hd
  rw [Rat.div_lt_iff hpos, Rat.zero_mul]
  exact Rat.intCast_lt_intCast

theorem magnitude_intCast_div (z : Int) {d : Nat} (hd : d ≠ 0) :
    magnitude ((z : Rat) / d) = (z.natAbs : Rat) / d := by
  by_cases hz : z < 0
  · have habs : (z.natAbs : Int) = -z := by omega
    rw [magnitude, if_pos ((intCast_div_neg_iff z hd).2 hz), ← Rat.intCast_natCast z.natAbs, habs]
    grind
  · have habs : (z.natAbs : Int) = z := by omega
    rw [magnitude, if_neg (mt (intCast_div_neg_iff z hd).1 hz), ← Rat.intCast_natCast z.natAbs,
      habs]

/-- A quotient is its whole part and the remaining fraction. -/
theorem natCast_div_eq (n : Nat) {d : Nat} (hd : d ≠ 0) :
    (n : Rat) / d = (n / d : Nat) + (n % d : Nat) / d := by
  have hne : (d : Rat) ≠ 0 := by exact_mod_cast hd
  have hn : (n : Rat) = d * (n / d : Nat) + (n % d : Nat) := by
    exact_mod_cast (Nat.div_add_mod n d).symm
  grind

theorem quotientValue?_toDigits (n : Nat) {d : Nat} (hd : d ≠ 0) :
    Literal.quotientValue? (Nat.toDigits 10 n) (Nat.toDigits 10 d) = some ((n : Rat) / d) := by
  rw [Literal.quotientValue?, digitsValue_toDigits, digitsValue_toDigits, if_neg hd]

namespace Display

/-! ## Fractions -/

/-- The literal of a magnitude as a mixed fraction. -/
def mixedLiteral (v : Rat) : PlainLiteral :=
  let whole := v.num.natAbs / v.den
  let part := v.num.natAbs % v.den
  if part = 0 then ⟨.whole (Nat.toDigits 10 whole), plainRun_toDigits _⟩
  else if whole = 0 then
    ⟨.fraction (Nat.toDigits 10 part) (Nat.toDigits 10 v.den), plainRun_toDigits _,
      plainRun_toDigits _⟩
  else
    ⟨.mixed (Nat.toDigits 10 whole) [' '] (Nat.toDigits 10 part) (Nat.toDigits 10 v.den),
      plainRun_toDigits _, by decide, plainRun_toDigits _, plainRun_toDigits _⟩

/-- The literal of a magnitude as a fraction. -/
def ratioLiteral (v : Rat) : PlainLiteral :=
  ⟨.fraction (Nat.toDigits 10 v.num.natAbs) (Nat.toDigits 10 v.den), plainRun_toDigits _,
    plainRun_toDigits _⟩

theorem text_mixedLiteral (v : Rat) : (mixedLiteral v).text = (mixedMagnitude v).toList := by
  simp only [mixedLiteral, mixedMagnitude]
  split
  · rw [toList_toString]
    rfl
  · split
    · simp [PlainLiteral.text, Literal.text]
    · simp [PlainLiteral.text, Literal.text]

theorem num_div_den (v : Rat) : (v.num : Rat) / v.den = v := by
  rw [← Rat.mkRat_eq_div, Rat.mkRat_self]

theorem magnitude_eq_div (v : Rat) : magnitude v = (v.num.natAbs : Rat) / v.den := by
  rw [← magnitude_intCast_div v.num v.den_nz, num_div_den]

theorem toList_ratio (v : Rat) :
    (ratio v).toList = minusSign (decide (v < 0)) ++ (ratioLiteral v).text := by
  have hneg : v.num < 0 ↔ v < 0 := by rw [← intCast_div_neg_iff v.num v.den_nz, num_div_den]
  simp only [ratio, integer, String.toList_append, toList_minusSign, toList_toString, hneg]
  simp [ratioLiteral, PlainLiteral.text, Literal.text]

theorem value?_mixedLiteral (v : Rat) : (mixedLiteral v).literal.value? = some (magnitude v) := by
  have hdiv := natCast_div_eq v.num.natAbs v.den_nz
  rw [magnitude_eq_div, hdiv, mixedLiteral]
  split
  · next hpart =>
    rw [hpart, Literal.value?, digitsValue_toDigits]
    grind
  · split
    · next hwhole =>
      rw [hwhole, Literal.value?, quotientValue?_toDigits _ v.den_nz]
      grind
    · rw [Literal.value?, quotientValue?_toDigits _ v.den_nz, digitsValue_toDigits]
      rfl

theorem value?_ratioLiteral (v : Rat) : (ratioLiteral v).literal.value? = some (magnitude v) := by
  rw [ratioLiteral, Literal.value?, quotientValue?_toDigits _ v.den_nz, magnitude_eq_div]

/-! ## Decimals -/

/-- The decimal places shown are all decimal places without zeros at the end. -/
theorem decimalDigits_append (units : Nat) :
    ∃ zeros, decimalDigits units ++ List.replicate zeros '0' =
      (Nat.toDigits 10 units).leftpad decimalPlaces '0' := by
  have hsplit := dropTrailing_append_takeWhile (· = '0')
    ((Nat.toDigits 10 units).leftpad decimalPlaces '0')
  rw [← hsplit]
  refine ⟨_, congrArg _ (List.eq_replicate_iff.2 ⟨rfl, fun c hc => ?_⟩).symm⟩
  exact of_decide_eq_true (List.all_eq_true.1 List.all_takeWhile c (List.mem_reverse.1 hc))

theorem isDigit_decimalDigits {units : Nat} : ∀ c ∈ decimalDigits units, c.isDigit = true := by
  intro c hc
  obtain ⟨zeros, happ⟩ := decimalDigits_append units
  have hmem : c ∈ (Nat.toDigits 10 units).leftpad decimalPlaces '0' :=
    happ ▸ List.mem_append_left _ hc
  rcases List.mem_append.1 hmem with h | h
  · rw [List.eq_of_mem_replicate h]
    decide
  · exact (plainRun_toDigits units).2 c h

/-- Of fewer units than there are in one, only zeros are left out. -/
theorem exists_decimalDigits_append {units : Nat} (h : units < decimalScale) :
    ∃ zeros, decimalDigits units ++ List.replicate zeros '0' =
        (Nat.toDigits 10 units).leftpad decimalPlaces '0' ∧
      (decimalDigits units).length + zeros = decimalPlaces := by
  obtain ⟨zeros, happ⟩ := decimalDigits_append units
  have hle := (Nat.length_toDigits_le_iff (by decide) (by decide)).2 h
  have hcount := congrArg List.length happ
  simp only [List.leftpad, List.length_append, List.length_replicate] at hcount
  exact ⟨zeros, happ, by omega⟩

/-- The decimal places shown stand for a number of units of the last one. -/
theorem value_decimalDigits {units : Nat} (h : units < decimalScale) :
    (Literal.digitsValue (decimalDigits units) : Rat) /
      (Nat.pow 10 (decimalDigits units).length : Nat) = units / (decimalScale : Nat) := by
  obtain ⟨zeros, happ, hlength⟩ := exists_decimalDigits_append h
  have hvalue : units = Nat.pow 10 zeros * Literal.digitsValue (decimalDigits units) := by
    have hpad := congrArg Literal.digitsValue happ
    rw [List.leftpad, Literal.digitsValue_append, Literal.digitsValue_append, List.length_replicate,
      digitsValue_toDigits] at hpad
    simpa [Literal.digitsValue] using hpad.symm
  have hscale : decimalScale = Nat.pow 10 (decimalDigits units).length * Nat.pow 10 zeros := by
    rw [decimalScale, ← hlength]
    exact Nat.pow_add ..
  have hlengths := Literal.natPow_ten_ne_zero (decimalDigits units).length
  have hzeros := Literal.natPow_ten_ne_zero zeros
  rw [hscale, Rat.natCast_mul]
  conv => rhs; rw [hvalue, Rat.natCast_mul]
  grind

/-- A number rounded to the decimal places that are shown. -/
def rounded (v : Rat) : Rat := roundEven (v * decimalScale) / decimalScale

theorem rounded_neg_iff {v : Rat} : rounded v < 0 ↔ roundEven (v * decimalScale) < 0 :=
  intCast_div_neg_iff _ (by decide)

theorem rounded_mul (v : Rat) : rounded v * decimalScale = roundEven (v * decimalScale) :=
  Rat.div_mul_cancel (by decide)

/-- Rounding a number first does not change its decimal. -/
theorem decimal_rounded (v : Rat) : decimal (rounded v) = decimal v := by
  simp only [decimal, rounded_mul, roundEven_intCast]

/-- The digits of the whole part of the decimal shown. -/
def wholeDigits (v : Rat) : List Char :=
  Nat.toDigits 10 ((roundEven (v * decimalScale)).natAbs / decimalScale)

/-- The decimal places of the decimal shown. -/
def shownPlaces (v : Rat) : List Char :=
  decimalDigits ((roundEven (v * decimalScale)).natAbs % decimalScale)

/-- The digits shown stand for the magnitude of the rounded number. -/
theorem magnitude_rounded (v : Rat) :
    magnitude (rounded v) = Literal.digitsValue (wholeDigits v) +
      Literal.digitsValue (shownPlaces v) / (Nat.pow 10 (shownPlaces v).length : Nat) := by
  have hscale : decimalScale ≠ 0 := by decide
  rw [rounded, magnitude_intCast_div _ hscale, natCast_div_eq _ hscale, wholeDigits, shownPlaces,
    digitsValue_toDigits, value_decimalDigits (Nat.mod_lt _ (Nat.pos_of_ne_zero hscale))]

/-- The literal of a decimal. -/
def decimalLiteral (v : Rat) : PlainLiteral :=
  let units := (roundEven (v * decimalScale)).natAbs
  let whole := Nat.toDigits 10 (units / decimalScale)
  let digits := decimalDigits (units % decimalScale)
  if h : digits = [] then ⟨.whole whole, plainRun_toDigits _⟩
  else ⟨.decimal whole digits, (plainRun_toDigits _).2, h, isDigit_decimalDigits⟩

theorem toList_decimal (v : Rat) :
    (decimal v).toList = minusSign (decide (rounded v < 0)) ++ (decimalLiteral v).text := by
  simp only [decimal, decimalLiteral, String.toList_append, toList_minusSign, toList_toString,
    List.append_assoc, rounded_neg_iff]
  split
  · simp [PlainLiteral.text, Literal.text]
  · simp [PlainLiteral.text, Literal.text]

theorem value?_decimalLiteral (v : Rat) :
    (decimalLiteral v).literal.value? = some (magnitude (rounded v)) := by
  rw [magnitude_rounded, decimalLiteral]
  split
  · next h =>
    have hnone : (Literal.digitsValue [] : Rat) = 0 := rfl
    rw [Literal.value?, shownPlaces, h, hnone, wholeDigits]
    grind
  · rfl

end Display

end Footrule
