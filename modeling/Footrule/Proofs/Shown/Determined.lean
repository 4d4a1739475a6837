import Footrule.Proofs.Plain.Modes
import Footrule.Proofs.Shown.FixedPoint
import Footrule.Proofs.Shown.LowestTerms

/-!
# What the mixed fraction shown determines

An expression that has values under two settings has quantities of one kind, and they are the same
if they are numbers or if the output units are the same (`quantities_agree`). A text in which a
length is shown names the output unit (`Forms.unit_eq_of_mixed_eq`), and it is read as the rounded
length, on whichever grid that was rounded (`Forms.readsAs_mixed`). So where the mixed fractions
shown of an expression are one text, all forms are the same (`calculate_determined_by_mixed`), and
the history, which compares only expressions and mixed fractions, passes over nothing new.
-/

namespace Footrule

open Formula

/-! ## Two evaluations of an expression -/

section Evaluation

variable {mode mode' : Mode} {u u' : OutputUnit} {cs : List Char} {q q' : Quantity}

/-- What has a value in both modes is one number. -/
theorem quantity_eq_of_modes (h : (evaluateExpression .basic u cs).result = .ok q)
    (h' : (evaluateExpression .advanced u' cs).result = .ok q') : q = q' := by
  obtain ⟨ts, hts, hq⟩ := evaluateExpression_basic_eq_ok_iff.1 h
  obtain ⟨ts', hts', hsay⟩ := readsOn (joined cs) false ts hts
  rw [result_advanced_of_reading hts'] at h'
  rcases hsay with hcrowd | hgroup
  · -- two fractions side by side have no value in advanced mode
    obtain ⟨-, rfl⟩ := accepted?_eq_some_iff.1 hts'
    obtain ⟨e, he⟩ := (collides_tokensOf hcrowd false).fails
    rw [he] at h'
    cases h'
  · have hconvert : q.convert u' = pure q := if_neg (by simp [isLength_of_basic h])
    rw [← evaluate_of_regrouped (hgroup false), hq, Except.bind, hconvert] at h'
    exact Except.ok.inj h'

/-- In advanced mode a quantity is found first and converted to the output unit at the end. -/
theorem exists_converted (h : (evaluateExpression .advanced u cs).result = .ok q) :
    ∃ found : Quantity, ∀ w,
      (evaluateExpression .advanced w cs).result = (found.convert w).result := by
  obtain ⟨formula, hformula, h⟩ := Traced.result_bind_eq_ok_iff.1 h
  obtain ⟨ts, hts, h⟩ := Traced.result_bind_eq_ok_iff.1 h
  obtain ⟨found, hfound, -⟩ := Traced.result_bind_eq_ok_iff.1 h
  refine ⟨found, fun w => ?_⟩
  simp only [evaluateExpression, Traced.result_bind, hformula, hts, hfound, Except.bind]

/--
**Two evaluations of an expression agree.** If an expression has values in two modes and for two
output units, both are numbers or both are lengths, and they are the same if they are numbers or the
output units are the same.
-/
theorem quantities_agree (h : (evaluateExpression mode u cs).result = .ok q)
    (h' : (evaluateExpression mode' u' cs).result = .ok q') :
    q.isLength = q'.isLength ∧ (q.isLength = false ∨ u = u' → q = q') := by
  cases mode with
  | basic =>
    have heq : q = q' := by
      cases mode' with
      | basic => exact Except.ok.inj (h.symm.trans h')
      | advanced => exact quantity_eq_of_modes h h'
    exact ⟨congrArg _ heq, fun _ => heq⟩
  | advanced =>
    cases mode' with
    | basic =>
      obtain rfl := quantity_eq_of_modes h' h
      exact ⟨rfl, fun _ => rfl⟩
    | advanced =>
      obtain ⟨found, hfound⟩ := exists_converted h
      rw [hfound, Quantity.result_convert] at h h'
      cases h
      cases h'
      cases hlength : found.isLength with
      | false => simp [hlength]
      | true => simp +contextual

end Evaluation

/-! ## The unit named in a text -/

/-- A text from its first letter on. -/
def fromLetter (cs : List Char) : List Char := cs.dropWhile fun c => !c.isAlpha

theorem Letterless.fromLetter_append {cs : List Char} (h : Letterless cs) (k : List Char) :
    fromLetter (cs ++ k) = fromLetter k :=
  List.dropWhile_append_of_pos fun c hc => by simp [(h c hc).1]

theorem letterless_signed (negative : Bool) (l : PlainLiteral) :
    Letterless (minusSign negative ++ l.text) := by
  have hsign : Letterless (minusSign negative) := by
    cases negative with
    | false => exact List.forall_mem_nil _
    | true => exact List.forall_mem_singleton.2 (by decide)
  exact letterless_append.2 ⟨hsign, l.plain.digital.letterless⟩

theorem LengthUnit.fromLetter_label (u : LengthUnit) :
    fromLetter (' ' :: u.label.toList) = u.label.toList := by
  cases u <;> decide

theorem LengthUnit.label_injective {u u' : LengthUnit} (h : u.label = u'.label) : u = u' := by
  cases u <;> cases u' <;> first | rfl | exact absurd h (by decide)

theorem LengthUnit.head_label (u : LengthUnit) : u.label.toList.head? ≠ some 'f' := by
  cases u <;> decide

/-- A length in one unit is followed by the name of the unit. -/
theorem fromLetter_mixed (p : Precision) (v : Rat) (u : LengthUnit) :
    fromLetter (Display.mixed p v ++ (" " ++ u.label)).toList = u.label.toList := by
  rw [String.toList_append, toList_mixed, (letterless_signed _ _).fromLetter_append,
    String.toList_append]
  exact u.fromLetter_label

/-- The first letter in feet and inches is that of `ft`. -/
theorem head_fromLetter_feetInches (p : Precision) (v : Rat) :
    (fromLetter (Display.feetInches p v).toList).head? = some 'f' := by
  have htext (l : FeetInches) : l.compound.text =
      l.compound.feet.text ++ ('f' :: 't' :: ' ' :: l.compound.second.text) := by
    simp [Compound.text, Compound.first, Measure.text, FeetInches.compound, Suffix.text]
  rw [toList_feetInches, htext, ← List.append_assoc, (letterless_signed _ _).fromLetter_append]
  rfl

namespace Forms

variable {p p' : Precision} {u u' : OutputUnit} {v v' : Rat}

/-- **Lengths shown by one text are shown in the same output unit.** -/
theorem unit_eq_of_mixed_eq
    (h : (ofQuantity p u ⟨v, true⟩).mixed = (ofQuantity p' u' ⟨v', true⟩).mixed) : u = u' := by
  have hletter := congrArg (fun text => fromLetter text.toList) h
  cases u with
  | feetInches =>
    cases u' with
    | feetInches => rfl
    | single w =>
      have hhead := head_fromLetter_feetInches p v
      have hname := fromLetter_mixed p' v' w
      exact absurd ((congrArg List.head? (hname.symm.trans hletter.symm)).trans hhead) w.head_label
  | single w =>
    have hname := fromLetter_mixed p v w
    cases u' with
    | feetInches =>
      have hhead := head_fromLetter_feetInches p' v'
      exact absurd ((congrArg List.head? (hname.symm.trans hletter)).trans hhead) w.head_label
    | single w' =>
      have hname' := fromLetter_mixed p' v' w'
      have hlabel : w.label.toList = w'.label.toList := hname.symm.trans (hletter.trans hname')
      rw [LengthUnit.label_injective (String.toList_injective hlabel)]

/-! ## The forms shown -/

/-- The mixed fraction shown is read as the rounded quantity. -/
theorem readsAs_mixed (p : Precision) (u : OutputUnit) (q : Quantity) :
    ReadsAs .advanced u (ofQuantity p u q).mixed ⟨p.snap q.magnitude, q.isLength⟩ := by
  obtain ⟨v, isLength⟩ := q
  cases isLength with
  | false => exact (labels_none .advanced u).readsAs_mixed p v
  | true =>
    cases u with
    | feetInches => exact readsAs_feetInches p v
    | single w => exact (labels_single w).readsAs_mixed p v

/-- The mixed fraction shown of a quantity determines the improper one, on whichever grids. -/
theorem improper_eq_of_mixed_eq {q : Quantity}
    (h : (ofQuantity p u q).mixed = (ofQuantity p' u q).mixed) :
    (ofQuantity p u q).improper = (ofQuantity p' u q).improper := by
  have hread := (readsAs_mixed p u q).result
  rw [h, (readsAs_mixed p' u q).result] at hread
  have hsnap : p'.snap q.magnitude = p.snap q.magnitude :=
    congrArg Quantity.magnitude (Except.ok.inj hread)
  have himproper : Display.improper p q.magnitude = Display.improper p' q.magnitude := by
    rw [Display.improper_eq_ratio_snap, Display.improper_eq_ratio_snap, hsnap]
  obtain ⟨v, isLength⟩ := q
  cases isLength with
  | false => exact congrArg (· ++ "") himproper
  | true =>
    cases u with
    | feetInches => exact congrArg (· ++ " in") himproper
    | single w => exact congrArg (· ++ (" " ++ w.label)) himproper

/-- The decimal shown of a quantity is the same on every grid. -/
theorem decimal_ofQuantity (p p' : Precision) (u : OutputUnit) (q : Quantity) :
    (ofQuantity p u q).decimal = (ofQuantity p' u q).decimal := by
  obtain ⟨v, isLength⟩ := q
  cases isLength with
  | false => rfl
  | true => cases u <;> rfl

/-- The output unit only counts for a length. -/
theorem ofQuantity_eq_of_unit {q : Quantity} (h : q.isLength = false ∨ u = u') (p : Precision) :
    ofQuantity p u q = ofQuantity p u' q := by
  rcases h with h | rfl
  · simp only [ofQuantity, h]
    rfl
  · rfl

end Forms

/--
**The mixed fraction shown of an expression determines the other forms.** If an expression has a
value under two settings, of whichever modes, output units and precisions, and the mixed fractions
shown of it are the same text, then so are the improper fractions and the decimals.
-/
theorem calculate_determined_by_mixed {s s' : Settings} {expression : String}
    (hs : (calculate s expression).isError = false)
    (hs' : (calculate s' expression).isError = false)
    (hmixed : (calculate s expression).mixed = (calculate s' expression).mixed) :
    (calculate s expression).improper = (calculate s' expression).improper ∧
      (calculate s expression).decimal = (calculate s' expression).decimal := by
  by_cases hb : trim expression.toList = []
  · simp only [calculate, if_pos hb, and_self]
  obtain ⟨p, q, hp, hread⟩ := exists_readsAs hb hs
  obtain ⟨p', q', hp', hread'⟩ := exists_readsAs hb hs'
  obtain ⟨hkind, hsame⟩ := quantities_agree hread.result hread'.result
  rw [(hread.calculate hp).2, (hread'.calculate hp').2] at hmixed ⊢
  have hunit : q.isLength = false ∨ s.outputUnit = s'.outputUnit := by
    cases hlength : q.isLength with
    | false => exact .inl rfl
    | true =>
      obtain ⟨v, _⟩ := q
      obtain ⟨v', _⟩ := q'
      obtain rfl := hlength
      obtain rfl := hkind
      exact .inr (Forms.unit_eq_of_mixed_eq hmixed)
  obtain rfl := hsame hunit
  rw [← Forms.ofQuantity_eq_of_unit hunit p'] at hmixed ⊢
  exact ⟨Forms.improper_eq_of_mixed_eq hmixed, Forms.decimal_ofQuantity p p' _ q⟩

/-- Plain numbers to the nearest sixteenth. -/
def plainSixteenths : Settings := ⟨.basic, .single .meter, true, 16⟩

theorem calculate_determined_by_mixed_sixteenths :
    (calculate eighths "3 / 4 - 1 1/2").mixed = (calculate plainSixteenths "3 / 4 - 1 1/2").mixed ∧
    (calculate eighths "3 / 4 - 1 1/2").improper =
      (calculate plainSixteenths "3 / 4 - 1 1/2").improper ∧
    (calculate eighths "3 / 4 - 1 1/2").decimal =
      (calculate plainSixteenths "3 / 4 - 1 1/2").decimal := by
  have hmixed : (calculate eighths "3 / 4 - 1 1/2").mixed =
      (calculate plainSixteenths "3 / 4 - 1 1/2").mixed := by
    decide +kernel
  exact ⟨hmixed, calculate_determined_by_mixed (by decide +kernel) (by decide +kernel) hmixed⟩

end Footrule
