import Footrule.Proofs.Written.Evaluation

/-!
# The value of a written expression

Basic mode computes the exact value of an expression however its tree is written
(`evaluateExpression_basic_written`), and advanced mode its exact quantity, a length in the output
unit (`evaluateExpression_advanced_written`). They fail as the tree does: for a division by zero,
and in advanced mode for operands of the wrong kinds.
-/

namespace Footrule

/-! ## The quantity of a tree -/

theorem result_operate (o : Operator) (a b : Quantity) :
    (Quantity.operate o a b).result =
      (o.lengths a.isLength b.isLength).bind fun isLength =>
        (orDivisionByZero (o.exactValue? a.magnitude b.magnitude)).map fun v => ⟨v, isLength⟩ := by
  have hcombine : (Quantity.operate o a b).result = Quantity.combine o a b := by
    rw [Quantity.operate, Traced.result_bind]
    rfl
  rw [hcombine]
  cases o with
  | add | sub =>
    by_cases h : a.isLength = b.isLength
    · simp [Quantity.combine, Operator.lengths, Operator.exactValue?, h, Except.bind,
        orDivisionByZero, Except.map]
    · simp [Quantity.combine, Operator.lengths, h, Except.bind]
  | mul =>
    cases h : a.isLength && b.isLength with
    | true => simp [Quantity.combine, Operator.lengths, h, Except.bind]
    | false =>
      simp [Quantity.combine, Operator.lengths, Operator.exactValue?, h, Except.bind,
        orDivisionByZero, Except.map]
  | div =>
    cases h : a.isLength && b.isLength with
    | true => simp [Quantity.combine, Operator.lengths, h, Except.bind]
    | false =>
      by_cases hb : b.magnitude = 0
      · simp [Quantity.combine, Operator.lengths, Operator.exactValue?, h, hb, Except.bind,
          orDivisionByZero, Except.map]
      · simp [Quantity.combine, Operator.lengths, Operator.exactValue?, h, hb, Except.bind,
          orDivisionByZero, Except.map]

section Tree

variable {α : Type} {g : α → Factor Numeral} {number : α → Except CalcError Quantity}

mutual

/-- **An expression is evaluated to the exact quantity of its tree.** -/
theorem Expression.result_eval (h : ∀ a, (g a).eval.result = number a) :
    ∀ e : Expression α, (e.subst g).eval.result = e.tree.quantity number
  | .term t => t.result_eval h
  | .binary l o _ r => by
    rw [Expression.subst, Expression.eval, Traced.result_bind, l.result_eval h, Expression.tree,
      Tree.quantity]
    congr 1
    ext a
    rw [Traced.result_bind, r.result_eval h]
    exact congrArg _ (funext fun b => result_operate o a b)

theorem Term.result_eval (h : ∀ a, (g a).eval.result = number a) :
    ∀ t : Term α, (t.subst g).eval.result = t.tree.quantity number
  | .factor u => u.result_eval h
  | .binary l o _ r => by
    rw [Term.subst, Term.eval, Traced.result_bind, l.result_eval h, Term.tree, Tree.quantity]
    congr 1
    ext a
    rw [Traced.result_bind, r.result_eval h]
    exact congrArg _ (funext fun b => result_operate o a b)

theorem Factor.result_eval (h : ∀ a, (g a).eval.result = number a) :
    ∀ u : Factor α, (u.subst g).eval.result = u.tree.quantity number
  | .number a => h a
  | .negative u => by
    rw [Factor.subst, Factor.eval, Traced.result_map, u.result_eval h, Factor.tree, Tree.quantity]
    rfl
  | .positive u => u.result_eval h
  | .group e => e.result_eval h

end

theorem result_evaluate_tokens (e : Expression Numeral) :
    (evaluate e.tokens).result = e.eval.result := by
  rw [evaluate_of_parse? (parse?_tokens e), Expression.evaluation, Traced.result_bind]
  cases e.eval.result <;> rfl

end Tree

/-- Without units the quantity of a tree is its value. -/
theorem Tree.quantity_measure (t : Tree PlainLiteral) :
    t.quantity (fun l => l.measure.quantity) =
      (orDivisionByZero (t.value? fun l => l.literal.value?)).map fun v => ⟨v, false⟩ := by
  induction t with
  | leaf l => rfl
  | negative t ih =>
    rw [quantity, ih, value?]
    cases t.value? fun l => l.literal.value? <;> rfl
  | positive t ih => exact ih
  | binary o l r hl hr =>
    rw [quantity, hl, hr, value?]
    cases l.value? fun l => l.literal.value? with
    | none => rfl
    | some a =>
      cases r.value? fun l => l.literal.value? with
      | none => rfl
      | some b =>
        have hlengths : o.lengths false false = .ok false := by cases o <;> rfl
        simp only [orDivisionByZero, Except.map, Except.bind, hlengths, Option.bind_some]

/-! ## Basic mode -/

section Written

variable {α : Type} {f : α → Piece} {g : α → Factor Numeral} {p : Measure → Prop} {q : α → Prop}

theorem Presents.loose (hf : Presents f p q) (e : Expression α) : Loose (e.pieces f) := by
  have hloose : ∀ x ∈ e.pieces f, x.loosen = x :=
    Expression.forall_mem_pieces (P := fun x => x.loosen = x)
      (fun a => Piece.loosen_of_isValue (hf.value a)) (fun _ => rfl) (fun _ => rfl) ⟨rfl, rfl⟩ e
  rw [Loose, List.map_congr_left hloose, List.map_id']

theorem Presents.flow (hf : Presents f p q) {e : Expression α} (he : e.DivisorsFit q) :
    Flow p false (e.pieces f) := by
  have hflow := e.flow_pieces hf he .nil
  rwa [List.append_nil] at hflow

/-- In basic mode, the text of an expression without units has the quantity of its tree. -/
theorem Presents.result_basic (hp : Divides p) (hf : Presents f p q)
    (hu : ∀ a, (f a).Unitless) (ht : ∀ a, (f a).tokens = (g a).tokens)
    {number : α → Except CalcError Quantity} (hn : ∀ a, (g a).eval.result = number a)
    (u : OutputUnit) {e : Expression α} (he : e.DivisorsFit q) :
    (evaluateExpression .basic u (e.text fun a => (f a).text)).result =
      e.tree.quantity number := by
  have hunit : ∀ x ∈ e.pieces f, x.Unitless :=
    e.forall_mem_pieces hu (fun _ => trivial) (fun _ => trivial) ⟨trivial, trivial⟩
  rw [← e.written_pieces, (hf.flow he).result_basic hp (hf.loose e) hunit, e.tokens_pieces ht,
    result_evaluate_tokens, e.result_eval hn]

/-- In advanced mode, the text of an expression has the quantity of its tree. -/
theorem Presents.result_advanced (hf : Presents f Measure.Simple q)
    (ht : ∀ a, (f a).tokens = (g a).tokens)
    {number : α → Except CalcError Quantity} (hn : ∀ a, (g a).eval.result = number a)
    (u : OutputUnit) {e : Expression α} (he : e.DivisorsFit q) :
    (evaluateExpression .advanced u (e.text fun a => (f a).text)).result =
      (e.tree.quantity number).bind fun v => (v.convert u).result := by
  rw [← e.written_pieces, (hf.flow he).result_advanced (hf.loose e), e.tokens_pieces ht,
    result_evaluate_tokens, e.result_eval hn]

end Written

theorem Measure.tokens_piece (m : Measure) :
    (Piece.measure m).tokens = (Factor.number m.numeral).tokens := rfl

theorem Measure.result_eval (m : Measure) :
    (Factor.number m.numeral).eval.result = m.quantity := by
  rw [Factor.eval, m.result_read]

/-- In basic mode a division sign is followed by a parenthesis or a number that is no fraction. -/
def PlainLiteral.MayDivide (l : PlainLiteral) : Prop := ¬ l.literal.IsFraction

theorem presents_literal : Presents (fun l : PlainLiteral => .measure l.measure)
    (fun m => m.suffix = none ∧ ¬ m.number.literal.IsFraction) PlainLiteral.MayDivide where
  value _ := trivial
  divisor _ hl _ := ⟨⟨rfl, hl⟩, fun h => nomatch h⟩

/--
**Basic mode computes the written expression.** Every tree over literals can be written with no
fraction and no sign directly after a division sign, and however it is written so, its value is
computed, or a division by zero is reported if the tree has one.
-/
theorem evaluateExpression_basic_written (u : OutputUnit) (t : Tree PlainLiteral) :
    (∃ e : Expression PlainLiteral, e.tree = t ∧ e.DivisorsFit PlainLiteral.MayDivide) ∧
    ∀ e : Expression PlainLiteral, e.tree = t → e.DivisorsFit PlainLiteral.MayDivide →
      (evaluateExpression .basic u (e.text PlainLiteral.text)).result =
        (orDivisionByZero (t.value? fun l => l.literal.value?)).map fun v => ⟨v, false⟩ := by
  refine ⟨t.exists_written _, fun e he hfit => ?_⟩
  have hwrite : PlainLiteral.text = fun l => (Piece.measure l.measure).text :=
    funext fun l => l.text_measure.symm
  have hresult := presents_literal.result_basic (fun _ hm => hm) (fun _ => rfl)
    (fun l => l.measure.tokens_piece) (fun l => l.measure.result_eval) u hfit
  rw [hwrite, hresult, he, t.quantity_measure]

/-- `3 / 4 / 2 - -1 1/2` -/
def chainExample : Expression PlainLiteral :=
  .binary
    (.term (.binary (.binary (.factor (.number ⟨.whole ['3'], by decide⟩)) .div rfl
      (.number ⟨.whole ['4'], by decide⟩)) .div rfl (.number ⟨.whole ['2'], by decide⟩)))
    .sub rfl
    (.factor (.negative (.number ⟨.mixed ['1'] [' '] ['1'] ['2'], by decide⟩)))

theorem evaluateExpression_basic_written_chain :
    (evaluateExpression .basic .feetInches "3 / 4 / 2 - -1 1/2".toList).result =
      .ok ⟨15 / 8, false⟩ := by
  have htext : chainExample.text PlainLiteral.text = "3 / 4 / 2 - -1 1/2".toList := by decide
  have hvalue : chainExample.tree.value? (fun l => l.literal.value?) = some (15 / 8) := by
    decide +kernel
  have hresult := (evaluateExpression_basic_written .feetInches chainExample.tree).2
    chainExample rfl ⟨⟨⟨trivial, trivial, fun _ => id⟩, trivial, fun _ => id⟩, trivial⟩
  rw [hvalue, htext] at hresult
  exact hresult

/-! ## Advanced mode -/

theorem presents_measure : Presents Piece.measure Measure.Simple Measure.Simple where
  value _ := trivial
  divisor _ hm _ := ⟨hm, fun h => nomatch h⟩

theorem Quantity.result_convert (u : OutputUnit) (q : Quantity) :
    (q.convert u).result =
      .ok (if q.isLength then ⟨q.magnitude / u.base.meters, true⟩ else q) := by
  rw [convert]
  split <;> rfl

/--
**Advanced mode computes the written expression with units.** Every tree over measures can be
written with only simple numbers and parentheses directly after division signs, and however it is
written so, its quantity is computed, a length in the base unit of the output unit, or the failure
of the tree is reported.
-/
theorem evaluateExpression_advanced_written (u : OutputUnit) (t : Tree Measure) :
    (∃ e : Expression Measure, e.tree = t ∧ e.DivisorsFit Measure.Simple) ∧
    ∀ e : Expression Measure, e.tree = t → e.DivisorsFit Measure.Simple →
      (evaluateExpression .advanced u (e.text Measure.text)).result =
        (t.quantity Measure.quantity).map fun q =>
          if q.isLength then ⟨q.magnitude / u.base.meters, true⟩ else q := by
  refine ⟨t.exists_written _, fun e he hfit => ?_⟩
  have hresult := presents_measure.result_advanced Measure.tokens_piece Measure.result_eval u hfit
  rw [he] at hresult
  refine hresult.trans ?_
  cases t.quantity Measure.quantity with
  | error e => rfl
  | ok q => exact q.result_convert u

/-- `(1 1/2 FT - 6 in) / 2` -/
def halfExample : Expression Measure :=
  .term (.binary
    (.factor (.group (.binary
      (.term (.factor (.number ⟨⟨.mixed ['1'] [' '] ['1'] ['2'], by decide⟩,
        some ⟨[' '], ['F', 'T'], .foot, by decide, by decide⟩⟩)))
      .sub rfl
      (.factor (.number ⟨⟨.whole ['6'], by decide⟩,
        some ⟨[' '], ['i', 'n'], .inch, by decide, by decide⟩⟩)))))
    .div rfl (.number ⟨⟨.whole ['2'], by decide⟩, none⟩))

theorem evaluateExpression_advanced_written_half :
    (evaluateExpression .advanced (.single .inch) "(1 1/2 FT - 6 in) / 2".toList).result =
      .ok ⟨6, true⟩ := by
  have htext : halfExample.text Measure.text = "(1 1/2 FT - 6 in) / 2".toList := by decide
  have hquantity : (halfExample.tree.quantity Measure.quantity).toOption =
      some ⟨6 * 254 / 10000, true⟩ := by
    decide +kernel
  have hresult := (evaluateExpression_advanced_written (.single .inch) halfExample.tree).2
    halfExample rfl ⟨⟨trivial, trivial⟩, trivial, fun _ => ⟨rfl, trivial⟩⟩
  cases hq : halfExample.tree.quantity Measure.quantity with
  | error e =>
    rw [hq] at hquantity
    cases hquantity
  | ok q =>
    rw [hq] at hquantity
    obtain rfl := Option.some.inj hquantity
    rw [hq, htext] at hresult
    have hinch : (6 * 254 / 10000 : Rat) / (OutputUnit.single .inch).base.meters = 6 := by
      decide +kernel
    refine hresult.trans (congrArg Except.ok ?_)
    simp only [if_true, hinch]

end Footrule
