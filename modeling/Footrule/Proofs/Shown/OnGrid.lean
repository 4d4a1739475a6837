import Footrule.Proofs.Shown.FixedPoint
import Footrule.Proofs.Shown.LowestTerms

/-!
# The fractions of a number on the grid

The mixed and the improper fraction shown of a number denote one value, the number rounded to the
grid of the precision. Both are literals in lowest terms after a minus sign if that value is
negative. A signed literal is read in one way only (`eq_of_signed_text_eq`), so that each of the two
texts is shown of exactly the numbers that round to the same value (`Display.mixed_eq_iff`,
`Display.improper_eq_iff`). A denominator that is not positive has neither
(`Display.onGrid_of_nonpos`).
-/

namespace Footrule

/-! ## Literals after a sign -/

/-- There is a minus sign in a signed literal exactly if it is the sign. -/
theorem minus_mem_signed_iff (negative : Bool) (l : PlainLiteral) :
    '-' ∈ minusSign negative ++ l.text ↔ negative = true := by
  have hliteral : '-' ∉ l.text := fun hmem =>
    absurd (l.plain.digital.isNumeric _ hmem) (by decide)
  cases negative <;> simp [minusSign, hliteral]

theorem PlainLiteral.value?_eq_of_text_eq {l l' : PlainLiteral} {v v' : Rat}
    (hv : l.literal.value? = some v) (hv' : l'.literal.value? = some v')
    (h : l.text = l'.text) : v = v' := by
  have hread := Literal.result_readNumber l.plain
  have hread' := Literal.result_readNumber l'.plain
  rw [hv] at hread
  rw [hv', ← PlainLiteral.text, ← h] at hread'
  exact Except.ok.inj (hread.symm.trans hread')

/-- **Two numbers that are written alike, as signed literals, are equal.** -/
theorem eq_of_signed_text_eq {v v' : Rat} {l l' : PlainLiteral}
    (hv : l.literal.value? = some (magnitude v)) (hv' : l'.literal.value? = some (magnitude v'))
    (h : minusSign (decide (v < 0)) ++ l.text = minusSign (decide (v' < 0)) ++ l'.text) :
    v = v' := by
  have hsign : decide (v < 0) = decide (v' < 0) := by
    rw [Bool.eq_iff_iff, ← minus_mem_signed_iff _ l, h, minus_mem_signed_iff]
  rw [hsign] at h
  have hmagnitude := PlainLiteral.value?_eq_of_text_eq hv hv' (List.append_cancel_left h)
  rw [← withSign_magnitude v, ← withSign_magnitude v', hsign, hmagnitude]

namespace Display

variable (p : Precision)

/-! ## The mixed fraction -/

theorem minus_mem_mixed_iff (v : Rat) : '-' ∈ (mixed p v).toList ↔ p.snap v < 0 := by
  rw [toList_mixed, minus_mem_signed_iff, decide_eq_true_iff]

theorem mixed_eq_iff {v w : Rat} : mixed p v = mixed p w ↔ p.snap v = p.snap w := by
  refine ⟨fun h => ?_, fun h => ?_⟩
  · have htext := congrArg String.toList h
    rw [toList_mixed, toList_mixed] at htext
    exact eq_of_signed_text_eq (value?_mixedLiteral _) (value?_mixedLiteral _) htext
  · refine String.toList_injective ?_
    rw [toList_mixed, toList_mixed, h]

/-- A number and its magnitude have the same mixed fraction. -/
theorem mixedMagnitude_magnitude (v : Rat) : mixedMagnitude (magnitude v) = mixedMagnitude v := by
  rw [magnitude]
  split
  · simp only [mixedMagnitude, Rat.neg_num, Rat.neg_den, Int.natAbs_neg]
  · rfl

/-- The mixed fraction is the magnitude of the rounded number in lowest terms, with its sign. -/
theorem exists_mixedText (v : Rat) : ∃ (negative : Bool) (text : String) (w : Rat),
    mixed p v = (if negative then "-" else "") ++ text ∧ MixedText p.denominator text w ∧
      withSign negative w = p.snap v ∧ (negative = true ↔ p.snap v < 0) := by
  have hden : (magnitude (p.snap v)).den ≤ p.denominator := by
    rw [← p.snap_magnitude]
    exact p.den_snap_le _
  have htext := mixedText_mixedMagnitude (magnitude_nonneg _) hden
  rw [mixedMagnitude_magnitude] at htext
  refine ⟨decide (p.snap v < 0), mixedMagnitude (p.snap v), magnitude (p.snap v), ?_, htext,
    withSign_magnitude _, decide_eq_true_iff⟩
  simp only [mixed, sign, p.reduce_eq_snap, decide_eq_true_eq]

/-! ## The improper fraction -/

theorem minus_mem_improper_iff (v : Rat) : '-' ∈ (improper p v).toList ↔ p.snap v < 0 := by
  rw [toList_improper, minus_mem_signed_iff, decide_eq_true_iff]

theorem improper_eq_iff {v w : Rat} : improper p v = improper p w ↔ p.snap v = p.snap w := by
  refine ⟨fun h => ?_, fun h => ?_⟩
  · have htext := congrArg String.toList h
    rw [toList_improper, toList_improper] at htext
    exact eq_of_signed_text_eq (value?_ratioLiteral _) (value?_ratioLiteral _) htext
  · rw [improper_eq_ratio_snap, improper_eq_ratio_snap, h]

/-- The improper fraction is the rounded number in lowest terms. -/
theorem exists_improper_eq (v : Rat) : ∃ (n : Int) (d : Nat),
    improper p v = integer n ++ "/" ++ toString d ∧ 0 < d ∧ d ∣ p.denominator ∧
      n.natAbs.Coprime d ∧ (n : Rat) / d = p.snap v :=
  ⟨(p.snap v).num, (p.snap v).den, improper_eq_ratio_snap p v, (p.snap v).den_pos,
    p.den_snap_dvd v, (p.snap v).reduced, num_div_den _⟩

/-! ## Both fractions -/

/--
**The two fractions shown denote the same number.** On a grid with a positive denominator, the
search for a bounded denominator changes nothing, the improper and the mixed fraction are the
rounded number in lowest terms, with a minus sign exactly if it is negative, and each of them is
shown of exactly the numbers that round to the same value. Another denominator is refused.
-/
theorem fractions_denote_snap (v : Rat) (d : Int) :
    (d ≤ 0 → mixedOnGrid v d = .error .invalidPrecision ∧
      improperOnGrid v d = .error .invalidPrecision ∧
      CalcError.invalidPrecision.message = "Invalid precision") ∧
    (1 ≤ d → ∃ p : Precision, Precision.ofInt d = .ok p ∧ (p.denominator : Int) = d ∧
      mixedOnGrid v d = .ok (mixed p v) ∧ improperOnGrid v d = .ok (improper p v) ∧
      p.reduce v = p.snap v ∧
      (∃ (n : Int) (m : Nat), improper p v = integer n ++ "/" ++ toString m ∧ 0 < m ∧
        m ∣ p.denominator ∧ n.natAbs.Coprime m ∧ (n : Rat) / m = p.snap v) ∧
      (∃ (negative : Bool) (text : String) (w : Rat),
        mixed p v = (if negative then "-" else "") ++ text ∧ MixedText p.denominator text w ∧
          withSign negative w = p.snap v ∧ (negative = true ↔ p.snap v < 0)) ∧
      ('-' ∈ (mixed p v).toList ↔ p.snap v < 0) ∧
      ('-' ∈ (improper p v).toList ↔ p.snap v < 0) ∧
      ∀ w, (mixed p v = mixed p w ↔ improper p v = improper p w) ∧
        (improper p v = improper p w ↔ p.snap v = p.snap w)) := by
  refine ⟨fun hd => ?_, fun hd => ?_⟩
  · exact ⟨onGrid_of_nonpos hd mixed v, onGrid_of_nonpos hd improper v, rfl⟩
  · obtain ⟨p, hp, hden⟩ := Precision.exists_ofInt hd
    exact ⟨p, hp, hden, onGrid_of_ofInt hp mixed v, onGrid_of_ofInt hp improper v,
      p.reduce_eq_snap v, exists_improper_eq p v, exists_mixedText p v,
      minus_mem_mixed_iff p v, minus_mem_improper_iff p v,
      fun w => ⟨(mixed_eq_iff p).trans (improper_eq_iff p).symm, improper_eq_iff p⟩⟩

/-- Both −5/7 and −11/16 round to −11/16 on the grid of sixteenths; there is no grid of `1/0`. -/
theorem fractions_denote_snap_sixteenths :
    mixedOnGrid (-5 / 7) 0 = .error .invalidPrecision ∧
      mixedOnGrid (-5 / 7) 16 = .ok "-11/16" ∧
      ∃ p : Precision, Precision.ofInt 16 = .ok p ∧ p.snap (-5 / 7) = -11 / 16 ∧
        mixed p (-5 / 7) = "-11/16" ∧ improper p (-5 / 7) = improper p (-11 / 16) := by
  obtain ⟨p, hp, -, hshown, -, -, -, -, -, -, halike⟩ :=
    (fractions_denote_snap (-5 / 7) 16).2 (by decide)
  obtain rfl : ⟨16, by decide⟩ = p := Except.ok.inj hp
  have hmixed : mixed ⟨16, by decide⟩ (-5 / 7) = "-11/16" := by decide +kernel
  rw [hmixed] at hshown
  exact ⟨((fractions_denote_snap (-5 / 7) 0).1 (by decide)).1, hshown, _, rfl, by decide +kernel,
    hmixed, (halike (-11 / 16)).2.2 (by decide +kernel)⟩

end Display

end Footrule
