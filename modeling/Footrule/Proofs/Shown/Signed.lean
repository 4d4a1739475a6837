import Footrule.Proofs.Shown.Literals
import Footrule.Proofs.Written.Value

/-!
# Values with a sign

What is shown is a number, a length or a length in feet and inches, after a minus sign if it is
negative. Such a text is evaluated to its value (`Piece.result_signed`): a number with the literal's
value, a length with the value in the output unit (`Measure.result_signed`), feet and inches with
their sum (`Compound.result_signed`).
-/

namespace Footrule

/-! ## A value and its sign -/

/-- A value, after a minus sign if it is negative. -/
def signedValue (negative : Bool) : Expression Unit :=
  .term (.factor (if negative then .negative (.number ()) else .number ()))

/-- A number with the sign it is written with. -/
def withSign (negative : Bool) (v : Rat) : Rat := if negative then -v else v

theorem withSign_magnitude (v : Rat) : withSign (decide (v < 0)) (magnitude v) = v := by
  simp only [withSign, decide_eq_true_eq, magnitude]
  grind

theorem text_signedValue (negative : Bool) (cs : List Char) :
    (signedValue negative).text (fun _ => cs) = minusSign negative ++ cs := by
  cases negative <;> rfl

theorem divisorsFit_signedValue (negative : Bool) (q : Unit → Prop) :
    (signedValue negative).DivisorsFit q := by
  cases negative <;> trivial

theorem quantity_signedValue (negative : Bool) (v : Rat) (l : Bool) :
    (signedValue negative).tree.quantity (fun _ => .ok ⟨v, l⟩) = .ok ⟨withSign negative v, l⟩ := by
  cases negative <;> rfl

theorem presents_value {x : Piece} (hx : x.IsValue) (p : Measure → Prop) :
    Presents (fun _ : Unit => x) p fun _ => False where
  value _ := hx
  divisor _ h := h.elim

section Signed

variable {x : Piece}

/-- A value with a sign is no blank text. -/
theorem Piece.trim_signed_ne_nil (hx : x.IsValue) (negative : Bool) :
    trim (minusSign negative ++ x.text) ≠ [] := by
  have hflow := (presents_value hx Measure.Simple).flow (divisorsFit_signedValue negative _)
  have hwritten := (signedValue negative).written_pieces (f := fun _ => x)
  rw [text_signedValue] at hwritten
  rw [← hwritten, hflow.trim_written]
  exact hflow.written_ne_nil

/-- **A value with a sign is evaluated to the value with that sign.** -/
theorem Piece.result_signed (hx : x.IsValue) {g : Factor Numeral} (ht : x.tokens = g.tokens)
    {mode : Mode} (hmode : mode = .basic → x.Unitless) {q : Quantity}
    (hg : g.eval.result = .ok q) (hl : mode = .basic → q.isLength = false) (u : OutputUnit)
    (negative : Bool) :
    (evaluateExpression mode u (minusSign negative ++ x.text)).result =
      (Quantity.convert u ⟨withSign negative q.magnitude, q.isLength⟩).result := by
  rw [← text_signedValue]
  cases mode with
  | basic =>
    have hp : Divides fun m => m.suffix = none ∧ ¬ m.number.literal.IsFraction := fun _ hm => hm
    rw [(presents_value hx _).result_basic hp (fun _ => hmode rfl) (fun _ => ht) (fun _ => hg) u
      (divisorsFit_signedValue negative _), quantity_signedValue, Quantity.result_convert, hl rfl]
    rfl
  | advanced =>
    rw [(presents_value hx _).result_advanced (fun _ => ht) (fun _ => hg) u
      (divisorsFit_signedValue negative _), quantity_signedValue]
    rfl

end Signed

/-! ## Numbers, lengths, feet and inches -/

theorem LengthUnit.known_ft : String.ofList (['f', 't'].map Char.toLower) ∈ foot.aliases := by
  decide

theorem LengthUnit.known_in : String.ofList (['i', 'n'].map Char.toLower) ∈ inch.aliases := by
  decide

theorem LengthUnit.known_label (u : LengthUnit) :
    String.ofList (u.label.toList.map Char.toLower) ∈ u.aliases := by
  cases u <;> decide

theorem withSign_mul_div (negative : Bool) (v : Rat) (u : LengthUnit) :
    withSign negative (v * u.meters) / u.meters = withSign negative v := by
  have hpos := u.meters_pos
  unfold withSign
  grind

/-- A measure with a sign is evaluated to its number, a length if it is in the output unit. -/
theorem Measure.result_signed {m : Measure} {v : Rat} (hv : m.number.literal.value? = some v)
    {mode : Mode} (hmode : mode = .basic → m.suffix = none) {u : OutputUnit}
    (hu : ∀ s ∈ m.suffix, s.unit = u.base) (negative : Bool) :
    (evaluateExpression mode u (minusSign negative ++ m.text)).result =
      .ok ⟨withSign negative v, m.suffix.isSome⟩ := by
  have heval := m.result_eval
  rw [quantity, hv] at heval
  obtain ⟨l, _ | s⟩ := m
  · have hresult := Piece.result_signed (x := .measure ⟨l, none⟩) trivial
      (Measure.tokens_piece _) hmode heval (fun _ => rfl) u negative
    exact hresult.trans (Quantity.result_convert u _)
  · have hadvanced : mode ≠ .basic := fun h => Option.some_ne_none s (hmode h)
    have hunit : s.unit = u.base := hu s rfl
    have hresult := Piece.result_signed (x := .measure ⟨l, some s⟩) trivial
      (Measure.tokens_piece _) hmode heval (fun h => (hadvanced h).elim) u negative
    refine hresult.trans ((Quantity.result_convert u _).trans (congrArg Except.ok ?_))
    simp only [if_true, hunit, withSign_mul_div, Option.isSome_some]

/-- The sum of two measures is evaluated to the sum of their quantities. -/
theorem Measure.result_eval_sum (l r : Measure) :
    (l.sum r).eval.result = l.quantity.bind fun a => r.quantity.bind fun b =>
      (Quantity.operate .add a b).result := by
  have heval : (l.sum r).eval = ((Factor.number l.numeral).eval >>= fun a =>
      (Factor.number r.numeral).eval >>= fun b => Quantity.operate .add a b) := rfl
  rw [heval, Traced.result_bind, l.result_eval]
  congr 1
  ext a
  rw [Traced.result_bind, r.result_eval]

/-- Feet and inches with a sign are evaluated to their sum in inches. -/
theorem Compound.result_signed {c : Compound} {a b : Rat}
    (ha : c.feet.literal.value? = some a) (hb : c.inches.literal.value? = some b)
    (negative : Bool) :
    (evaluateExpression .advanced .feetInches (minusSign negative ++ c.text)).result =
      .ok ⟨withSign negative (12 * a + b), true⟩ := by
  have hsum : (c.first.sum c.second).eval.result =
      .ok ⟨(12 * a + b) * LengthUnit.inch.meters, true⟩ := by
    have hmeters : a * LengthUnit.foot.meters + b * LengthUnit.inch.meters =
        (12 * a + b) * LengthUnit.inch.meters := by
      rw [LengthUnit.foot_eq_twelve_inches]
      grind
    rw [Measure.result_eval_sum, Measure.quantity, Measure.quantity, Compound.first,
      Compound.second, ha, hb, ← hmeters, ← c.isFoot, ← c.isInch]
    rfl
  have hmode : Mode.advanced ≠ .basic := by decide
  have hresult := Piece.result_signed (x := .compound c) trivial rfl (fun h => (hmode h).elim) hsum
    (fun h => (hmode h).elim) .feetInches negative
  refine hresult.trans ((Quantity.result_convert _ _).trans (congrArg Except.ok ?_))
  simp only [if_true, OutputUnit.base, withSign_mul_div]

end Footrule
