import Footrule.Display.Decimal
import Footrule.Display.FeetInches
import Footrule.Formula
import Footrule.Lexeme
import Footrule.Machine
import Footrule.Settings

/-!
# Calculations

From an expression and settings to the three forms in which its value is shown, with a trace of all
steps. A blank expression has no value and is no error; an error is shown in place of the decimal.
-/

namespace Footrule

/-- The value of an expression; a length is in the output unit. Basic mode has no lengths. -/
def evaluateExpression (mode : Mode) (u : OutputUnit) (expression : List Char) : Traced Quantity := do
  let formula ← Formula.prepare mode expression
  match mode with
  | .basic =>
    .note ("Basic Eval Formula: " ++ String.ofList formula)
    let ts ← tokenize .basic formula
    evaluate ts
  | .advanced =>
    let ts ← tokenize .advanced formula
    let q ← evaluate ts
    q.convert u

/-- The three forms in which a value is shown. -/
structure Forms where
  mixed : String
  improper : String
  decimal : String
  deriving DecidableEq, Repr

namespace Forms

/-- One text in all three forms. -/
def uniform (text : String) : Forms := ⟨text, text, text⟩

/-- The forms of a number, each with a text after it. -/
def ofNumber (p : Precision) (v : Rat) (after : String) : Forms where
  mixed := Display.mixed p v ++ after
  improper := Display.improper p v ++ after
  decimal := Display.decimal v ++ after

/-- The forms of a length in inches that is shown in feet and inches. -/
def ofInches (p : Precision) (v : Rat) : Forms where
  mixed := Display.feetInches p v
  improper := Display.improper p v ++ " in"
  decimal := Display.decimal v

/-- The forms of a value; a length is in the output unit. -/
def ofQuantity (p : Precision) (u : OutputUnit) (q : Quantity) : Forms :=
  if q.isLength then
    match u with
    | .feetInches => ofInches p q.magnitude
    | .single u => ofNumber p q.magnitude (" " ++ u.label)
  else ofNumber p q.magnitude ""

/-- The forms in a note. -/
def noted (f : Forms) : String :=
  "Formatted: Mixed=" ++ f.mixed ++ ", Imp=" ++ f.improper ++ ", Dec=" ++ f.decimal

end Forms

/-- The forms of the value of an expression. The precision is looked at before the expression. -/
def showExpression (s : Settings) (expression : List Char) : Traced Forms := do
  let p ← s.precision
  let q ← evaluateExpression s.mode s.outputUnit expression
  .note ("Evaluated Value: " ++ Display.plain q.magnitude)
  let forms := Forms.ofQuantity p s.outputUnit q
  .note forms.noted
  return forms

/-- What a calculation comes to. -/
structure Outcome extends Forms where
  isError : Bool
  trace : List String
  deriving DecidableEq, Repr

namespace Outcome

/-- The text shown where there is no value. -/
def nothing : String := "—"

/-- The forms shown for an error. -/
def errorForms (e : CalcError) : Forms := ⟨"Error", "Error", e.message⟩

/-- The note of an error. -/
def errorNote (e : CalcError) : String := e.kind.label ++ ": " ++ e.message

/-- The steps noted before anything else. -/
def header (s : Settings) (expression : String) : List String :=
  ["--- Start Calculation: Mode=" ++ s.mode.label ++ " ---", "Expression: " ++ expression]

end Outcome

/-- The calculation of an expression. -/
def calculate (s : Settings) (expression : String) : Outcome :=
  let header := Outcome.header s expression
  if trim expression.toList = [] then ⟨.uniform Outcome.nothing, false, header⟩
  else
    let shown := showExpression s expression.toList
    match shown.result with
    | .ok forms => ⟨forms, false, header ++ shown.steps⟩
    | .error e => ⟨Outcome.errorForms e, true, header ++ shown.steps ++ [Outcome.errorNote e]⟩

end Footrule
