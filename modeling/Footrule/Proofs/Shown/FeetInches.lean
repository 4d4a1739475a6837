import Footrule.Display.FeetInches
import Footrule.Proofs.Shown.Signed

/-!
# Feet and inches shown and read back

The feet and inches of a length that is not negative have less than twelve inches, on the grid of
the precision (`FeetInches.isShown_ofInches`), and make up the length rounded to the grid
(`FeetInches.toInches_ofInches`). Dividing that again gives the same feet and inches
(`FeetInches.ofInches_snap`), and what is shown of a length is read back as the rounded length
(`result_feetInches`).
-/

namespace Footrule

namespace FeetInches

/-- Less than twelve inches, on the grid. -/
structure IsShown (p : Precision) (l : FeetInches) : Prop where
  nonneg : 0 ≤ l.inches
  lt : l.inches < inchesPerFoot
  snap : p.snap l.inches = l.inches

theorem inchesPerFoot_eq : (inchesPerFoot : Rat) = 12 := rfl

variable (p : Precision)

/-- Feet and less than twelve inches are found again. -/
theorem floor_div_inchesPerFoot (feet : Nat) {rest : Rat} (h : 0 ≤ rest)
    (hlt : rest < inchesPerFoot) :
    (((inchesPerFoot : Rat) * feet + rest) / inchesPerFoot).floor.toNat = feet := by
  rw [inchesPerFoot_eq] at hlt ⊢
  have hcast : ((feet : Int) : Rat) = feet := Rat.intCast_natCast _
  have hle : (feet : Int) ≤ ((12 * (feet : Rat) + rest) / 12).floor :=
    Rat.le_floor_iff.2 (by grind)
  have hlt : ((12 * (feet : Rat) + rest) / 12).floor < feet + 1 :=
    Rat.floor_lt_iff.2 (by grind)
  omega

/-- A length is divided into feet and less than twelve inches, which are rounded. -/
theorem exists_ofInches {length : Rat} (h : 0 ≤ length) :
    ∃ (feet : Nat) (rest : Rat), length = inchesPerFoot * feet + rest ∧ 0 ≤ rest ∧
      rest < inchesPerFoot ∧ ofInches p length =
        if p.snap rest = inchesPerFoot then ⟨feet + 1, 0⟩ else ⟨feet, p.snap rest⟩ := by
  have hfloor : 0 ≤ (length / inchesPerFoot).floor := by
    rw [inchesPerFoot_eq]
    exact Rat.le_floor_iff.2 (by grind)
  have hcast : ((length / inchesPerFoot).floor.toNat : Rat) = (length / inchesPerFoot).floor := by
    rw [← Rat.intCast_natCast, Int.toNat_of_nonneg hfloor]
  have hle := Rat.floor_le (length / inchesPerFoot)
  have hlt := Rat.lt_floor_add_one (length / inchesPerFoot)
  rw [← hcast] at hle
  rw [Rat.intCast_add, ← hcast] at hlt
  refine ⟨(length / inchesPerFoot).floor.toNat,
    length - inchesPerFoot * (length / inchesPerFoot).floor.toNat, ?_, ?_, ?_, ?_⟩
  · grind
  · rw [inchesPerFoot_eq] at *
    grind
  · rw [inchesPerFoot_eq] at *
    grind
  · simp only [ofInches, p.reduce_eq_snap]

theorem isShown_ofInches {length : Rat} (h : 0 ≤ length) : (ofInches p length).IsShown p := by
  obtain ⟨feet, rest, -, hrest, hlt, heq⟩ := exists_ofInches p h
  have hge : ((0 : Int) : Rat) ≤ p.snap rest := p.le_snap_of_le hrest
  have hle : p.snap rest ≤ ((12 : Int) : Rat) := p.snap_le_of_le (Rat.le_of_lt hlt)
  rw [heq]
  split
  · have hpos : (0 : Rat) < inchesPerFoot := by decide
    exact ⟨Rat.le_refl, hpos, p.snap_zero⟩
  · next hne =>
    exact ⟨hge, Rat.lt_of_le_of_ne hle hne, p.snap_snap rest⟩

/-- **The feet and inches make up the rounded length.** -/
theorem toInches_ofInches {length : Rat} (h : 0 ≤ length) :
    (ofInches p length).toInches = p.snap length := by
  obtain ⟨feet, rest, hlength, -, -, heq⟩ := exists_ofInches p h
  have hcast : ((feet : Int) : Rat) = feet := Rat.intCast_natCast _
  have hsnap : p.snap length = inchesPerFoot * feet + p.snap rest := by
    have hshift := p.snap_add_two_mul rest (6 * feet)
    have hlength' : length = rest + (2 * (6 * feet : Int) : Int) := by
      rw [hlength, inchesPerFoot_eq]
      grind
    rw [hlength', hshift, inchesPerFoot_eq]
    grind
  rw [hsnap, heq]
  split
  · next htwelve =>
    rw [htwelve, toInches, inchesPerFoot_eq]
    grind
  · rfl

theorem ofInches_toInches {l : FeetInches} (h : l.IsShown p) : ofInches p l.toInches = l := by
  have hfeet := floor_div_inchesPerFoot l.feet h.nonneg h.lt
  have hrest : l.toInches - inchesPerFoot * l.feet = l.inches := by
    rw [toInches]
    grind
  have hne : l.inches ≠ inchesPerFoot := Rat.ne_of_lt h.lt
  simp only [ofInches]
  rw [toInches, hfeet, ← toInches, hrest, p.reduce_eq_snap, h.snap, if_neg hne]

/-- Rounding a length first does not change its feet and inches. -/
theorem ofInches_snap {length : Rat} (h : 0 ≤ length) :
    ofInches p (p.snap length) = ofInches p length := by
  rw [← toInches_ofInches p h, ofInches_toInches p (isShown_ofInches p h)]

/-- The digits of the feet and the fraction of the inches. -/
def compound (l : FeetInches) : Compound where
  feet := ⟨.whole (Nat.toDigits 10 l.feet), plainRun_toDigits l.feet⟩
  feetSuffix := ⟨[], ['f', 't'], .foot, blank_nil, LengthUnit.known_ft⟩
  gap := [' ']
  inches := Display.mixedLiteral l.inches
  inchesSuffix := ⟨[], ['i', 'n'], .inch, blank_nil, LengthUnit.known_in⟩
  isFoot := rfl
  blank := blank_space
  isInch := rfl

theorem text_compound (l : FeetInches) : l.compound.text =
    (toString l.feet ++ "ft " ++ Display.mixedMagnitude l.inches ++ "in").toList := by
  simp only [String.toList_append, toList_toString, ← Display.text_mixedLiteral]
  simp [compound, Compound.text, Compound.first, Compound.second, Measure.text, PlainLiteral.text,
    Literal.text, Suffix.text]

end FeetInches

theorem toList_feetInches (p : Precision) (v : Rat) :
    (Display.feetInches p v).toList = minusSign (decide (p.snap v < 0)) ++
      (FeetInches.ofInches p (magnitude v)).compound.text := by
  rw [FeetInches.text_compound]
  simp [Display.feetInches, Display.sign, toList_minusSign]

/-- Feet and inches with a sign are read as their length with that sign. -/
theorem FeetInches.result_compound {l : FeetInches} (h : 0 ≤ l.inches) (negative : Bool) :
    (evaluateExpression .advanced .feetInches (minusSign negative ++ l.compound.text)).result =
      .ok ⟨withSign negative l.toInches, true⟩ := by
  have hfeet : l.compound.feet.literal.value? = some (l.feet : Rat) :=
    congrArg _ (congrArg _ (digitsValue_toDigits _))
  have hinches : l.compound.inches.literal.value? = some l.inches :=
    (Display.value?_mixedLiteral _).trans (congrArg _ (magnitude_of_nonneg h))
  exact Compound.result_signed hfeet hinches negative

/-- **Feet and inches are read back as the rounded length.** -/
theorem result_feetInches (p : Precision) (v : Rat) :
    (evaluateExpression .advanced .feetInches (Display.feetInches p v).toList).result =
      .ok ⟨p.snap v, true⟩ := by
  have hnonneg := magnitude_nonneg v
  have hinches := (FeetInches.isShown_ofInches p hnonneg).nonneg
  rw [toList_feetInches, FeetInches.result_compound hinches,
    FeetInches.toInches_ofInches p hnonneg, p.snap_magnitude, withSign_magnitude]

/-- Rounding a length first does not change how it is shown. -/
theorem feetInches_snap (p : Precision) (v : Rat) :
    Display.feetInches p (p.snap v) = Display.feetInches p v := by
  simp only [Display.feetInches, p.snap_snap, ← p.snap_magnitude,
    FeetInches.ofInches_snap p (magnitude_nonneg v)]

end Footrule
