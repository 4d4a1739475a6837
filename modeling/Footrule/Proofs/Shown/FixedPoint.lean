import Footrule.Proofs.Shown.FeetInches
import Footrule.Proofs.Shown.Uniform
import Footrule.Proofs.Shown.Unitless

/-!
# What is shown is a fixed point

The texts that a calculation shows may be calculated again. The mixed and the improper fraction are
read back as the value rounded to the precision, and the decimal as the value rounded to its last
place (`Forms.kept_ofQuantity`); rounding once more changes nothing, so the same texts are shown
(`calculate_shown`).
-/

namespace Footrule

/-- A text that is not blank and has the given quantity as its value. -/
structure ReadsAs (mode : Mode) (u : OutputUnit) (text : String) (q : Quantity) : Prop where
  ne_nil : trim text.toList ≠ []
  result : (evaluateExpression mode u text.toList).result = .ok q

/-! ## Calculations -/

/-- A text is shown in the forms of its value. -/
theorem ReadsAs.calculate {s : Settings} {text : String} {q : Quantity} {p : Precision}
    (h : ReadsAs s.mode s.outputUnit text q) (hp : s.precision = .ok p) :
    (calculate s text).isError = false ∧
      (calculate s text).toForms = Forms.ofQuantity p s.outputUnit q := by
  rw [calculate_of_ok h.ne_nil hp h.result]
  exact ⟨rfl, rfl⟩

/-- A calculation without an error shows the forms of the value of the expression. -/
theorem exists_readsAs {s : Settings} {text : String} (hb : trim text.toList ≠ [])
    (he : (calculate s text).isError = false) :
    ∃ p q, s.precision = .ok p ∧ ReadsAs s.mode s.outputUnit text q := by
  cases hp : s.precision with
  | error e =>
    rw [calculate_of_precision_error hb hp] at he
    cases he
  | ok p =>
    cases hq : (evaluateExpression s.mode s.outputUnit text.toList).result with
    | error e =>
      rw [calculate_of_error hb hp hq] at he
      cases he
    | ok q => exact ⟨p, q, rfl, hb, hq⟩

/-! ## Numbers and lengths -/

/-- The text after a number is empty, or names the unit in which the output unit keeps a length. -/
structure Labels (mode : Mode) (u : OutputUnit) (after : String) (suffix : Option Suffix) :
    Prop where
  basic : mode = .basic → suffix = none
  unit : ∀ s ∈ suffix, s.unit = u.base
  text : after.toList = (suffix.map Suffix.text).getD []

/-- The name of a unit after a space. -/
def LengthUnit.spacedLabel (u : LengthUnit) : Suffix :=
  ⟨[' '], u.label.toList, u, blank_space, u.known_label⟩

/-- `in` after a space. -/
def spacedInch : Suffix := ⟨[' '], ['i', 'n'], .inch, blank_space, LengthUnit.known_in⟩

theorem labels_none (mode : Mode) (u : OutputUnit) : Labels mode u "" none where
  basic _ := rfl
  unit s hs := (Option.not_mem_none s hs).elim
  text := rfl

theorem labels_inch : Labels .advanced .feetInches " in" (some spacedInch) where
  basic h := Mode.noConfusion h
  unit s hs := by
    rw [← Option.some.inj hs]
    rfl
  text := rfl

theorem labels_single (u : LengthUnit) :
    Labels .advanced (.single u) (" " ++ u.label) (some u.spacedLabel) where
  basic h := Mode.noConfusion h
  unit s hs := by
    rw [← Option.some.inj hs]
    rfl
  text := by
    rw [String.toList_append]
    rfl

section Number

variable {mode : Mode} {u : OutputUnit} {suffix : Option Suffix} {after : String}

/-- A literal after a sign and before a unit is read as a number or a length. -/
theorem Labels.readsAs (h : Labels mode u after suffix) {text : String} {l : PlainLiteral} {v : Rat}
    (htext : text.toList = minusSign (decide (v < 0)) ++ l.text)
    (hv : l.literal.value? = some (magnitude v)) :
    ReadsAs mode u (text ++ after) ⟨v, suffix.isSome⟩ := by
  have hwritten : (text ++ after).toList =
      minusSign (decide (v < 0)) ++ (⟨l, suffix⟩ : Measure).text := by
    rw [String.toList_append, htext, h.text, Measure.text, List.append_assoc]
  have hvalue : (⟨l, suffix⟩ : Measure).number.literal.value? = some (magnitude v) := hv
  have hresult := Measure.result_signed hvalue h.basic h.unit (decide (v < 0))
  rw [withSign_magnitude] at hresult
  constructor
  · rw [hwritten]
    exact Piece.trim_signed_ne_nil (x := .measure ⟨l, suffix⟩) trivial _
  · rw [hwritten, hresult]

variable (p : Precision) (v : Rat)

theorem toList_mixed : (Display.mixed p v).toList =
    minusSign (decide (p.snap v < 0)) ++ (Display.mixedLiteral (p.snap v)).text := by
  simp [Display.mixed, Display.sign, p.reduce_eq_snap, toList_minusSign, Display.text_mixedLiteral]

theorem toList_improper : (Display.improper p v).toList =
    minusSign (decide (p.snap v < 0)) ++ (Display.ratioLiteral (p.snap v)).text := by
  rw [Display.improper, p.reduce_eq_snap, Display.toList_ratio]

theorem Labels.readsAs_mixed (h : Labels mode u after suffix) :
    ReadsAs mode u (Display.mixed p v ++ after) ⟨p.snap v, suffix.isSome⟩ :=
  h.readsAs (toList_mixed p v) (Display.value?_mixedLiteral _)

theorem Labels.readsAs_improper (h : Labels mode u after suffix) :
    ReadsAs mode u (Display.improper p v ++ after) ⟨p.snap v, suffix.isSome⟩ :=
  h.readsAs (toList_improper p v) (Display.value?_ratioLiteral _)

theorem Labels.readsAs_decimal (h : Labels mode u after suffix) :
    ReadsAs mode u (Display.decimal v ++ after) ⟨Display.rounded v, suffix.isSome⟩ :=
  h.readsAs (Display.toList_decimal v) (Display.value?_decimalLiteral v)

theorem readsAs_feetInches :
    ReadsAs .advanced .feetInches (Display.feetInches p v) ⟨p.snap v, true⟩ where
  ne_nil := by
    rw [toList_feetInches]
    exact Piece.trim_signed_ne_nil (x := .compound _) trivial _
  result := result_feetInches p v

theorem mixed_snap : Display.mixed p (p.snap v) = Display.mixed p v := by
  simp only [Display.mixed, p.reduce_eq_snap, p.snap_snap]

theorem improper_snap : Display.improper p (p.snap v) = Display.improper p v := by
  simp only [Display.improper, p.reduce_eq_snap, p.snap_snap]

end Number

/-! ## Forms -/

namespace Forms

/-- Forms whose texts have values with the same texts. -/
structure Kept (mode : Mode) (u : OutputUnit) (p : Precision) (f : Forms) : Prop where
  fractions : ∃ q, ReadsAs mode u f.mixed q ∧ ReadsAs mode u f.improper q ∧
    (ofQuantity p u q).mixed = f.mixed ∧ (ofQuantity p u q).improper = f.improper
  decimal : ∃ q, ReadsAs mode u f.decimal q ∧ (ofQuantity p u q).decimal = f.decimal

variable {mode : Mode} {u : OutputUnit} {suffix : Option Suffix} {after : String}
variable (p : Precision) (v : Rat)

theorem kept_ofNumber (h : Labels mode u after suffix)
    (hforms : ∀ v, ofQuantity p u ⟨v, suffix.isSome⟩ = ofNumber p v after) :
    (ofNumber p v after).Kept mode u p where
  fractions := by
    refine ⟨_, h.readsAs_mixed p v, h.readsAs_improper p v, ?_, ?_⟩
    · rw [hforms]
      exact congrArg (· ++ after) (mixed_snap p v)
    · rw [hforms]
      exact congrArg (· ++ after) (improper_snap p v)
  decimal := by
    refine ⟨_, h.readsAs_decimal v, ?_⟩
    rw [hforms]
    exact congrArg (· ++ after) (Display.decimal_rounded v)

theorem kept_ofInches : (ofInches p v).Kept .advanced .feetInches p where
  fractions := by
    refine ⟨_, readsAs_feetInches p v, labels_inch.readsAs_improper p v, feetInches_snap p v, ?_⟩
    exact congrArg (· ++ " in") (improper_snap p v)
  decimal := by
    have hdecimal := (labels_none .advanced .feetInches).readsAs_decimal v
    rw [String.append_empty] at hdecimal
    refine ⟨_, hdecimal, ?_⟩
    exact (String.append_empty ..).trans (Display.decimal_rounded v)

/-- **The forms of a value are read back as values with the same forms.** -/
theorem kept_ofQuantity (u : OutputUnit) {q : Quantity}
    (hmode : mode = .basic → q.isLength = false) : (ofQuantity p u q).Kept mode u p := by
  obtain ⟨v, isLength⟩ := q
  cases isLength with
  | false => exact kept_ofNumber p v (labels_none mode u) fun _ => rfl
  | true =>
    cases mode with
    | basic => cases hmode rfl
    | advanced =>
      cases u with
      | feetInches => exact kept_ofInches p v
      | single w => exact kept_ofNumber p v (labels_single w) fun _ => rfl

end Forms

/--
**What is shown is a fixed point.** The mixed and the improper fraction that a calculation shows are
calculated to the same two texts, and the decimal to the same decimal.
-/
theorem calculate_shown {s : Settings} {expression : String} {r : Outcome}
    (hr : calculate s expression = r) (hb : trim expression.toList ≠ [])
    (he : r.isError = false) :
    (∀ text ∈ [r.mixed, r.improper], (calculate s text).isError = false ∧
      (calculate s text).mixed = r.mixed ∧ (calculate s text).improper = r.improper) ∧
    (calculate s r.decimal).isError = false ∧ (calculate s r.decimal).decimal = r.decimal := by
  subst hr
  obtain ⟨p, q, hp, hq⟩ := exists_readsAs hb he
  have hmode : s.mode = .basic → q.isLength = false := by
    intro h
    have hresult := hq.result
    rw [h] at hresult
    exact isLength_of_basic hresult
  have hkept := Forms.kept_ofQuantity p s.outputUnit hmode
  rw [← (hq.calculate hp).2] at hkept
  obtain ⟨q₁, hmixed, himproper, hm, hi⟩ := hkept.fractions
  obtain ⟨q₂, hdecimal, hd⟩ := hkept.decimal
  have hfractions {text : String} (h : ReadsAs s.mode s.outputUnit text q₁) :
      (calculate s text).isError = false ∧
        (calculate s text).mixed = (calculate s expression).mixed ∧
        (calculate s text).improper = (calculate s expression).improper := by
    obtain ⟨hok, hforms⟩ := h.calculate hp
    exact ⟨hok, (congrArg Forms.mixed hforms).trans hm, (congrArg Forms.improper hforms).trans hi⟩
  refine ⟨List.forall_mem_cons.2 ⟨hfractions hmixed, List.forall_mem_singleton.2
    (hfractions himproper)⟩, ?_⟩
  obtain ⟨hok, hforms⟩ := hdecimal.calculate hp
  exact ⟨hok, (congrArg Forms.decimal hforms).trans hd⟩

/-- Feet and inches to the nearest eighth of an inch. -/
def eighths : Settings := ⟨.advanced, .feetInches, true, 8⟩

theorem calculate_shown_eighths :
    (calculate eighths "-1ft 6 3/8in").mixed = "-1ft 6 3/8in" ∧
    (calculate eighths "-147/8 in").improper = "-147/8 in" ∧
    (calculate eighths "-18.4").decimal = "-18.4" := by
  have hread : ReadsAs .advanced .feetInches ("-18.4" ++ " in") ⟨-92 / 5, true⟩ :=
    labels_inch.readsAs (l := ⟨.decimal ['1', '8'] ['4'], by decide⟩) (by decide +kernel)
      (by decide +kernel)
  obtain ⟨hok, hforms⟩ := hread.calculate (s := eighths) (p := ⟨8, by decide⟩) rfl
  have hvalue : Forms.ofQuantity ⟨8, by decide⟩ .feetInches ⟨-92 / 5, true⟩ =
      ⟨"-1ft 6 3/8in", "-147/8 in", "-18.4"⟩ := by
    decide +kernel
  replace hforms := hforms.trans hvalue
  obtain ⟨hfractions, -, hdecimal⟩ := calculate_shown rfl hread.ne_nil hok
  rw [congrArg Forms.mixed hforms, congrArg Forms.improper hforms] at hfractions
  rw [congrArg Forms.decimal hforms] at hdecimal
  obtain ⟨hmixed, himproper⟩ := List.forall_mem_cons.1 hfractions
  exact ⟨hmixed.2.1, (himproper _ List.mem_cons_self).2.2, hdecimal⟩

end Footrule
