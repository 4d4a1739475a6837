/-!
# Errors of a calculation

An error is named by its cause. Its kind and its wording follow from the cause: a text that is no
expression, a division by zero, a value that cannot be used, or a broken invariant of the
calculator, which no calculation meets.
-/

namespace Footrule

/-- The four kinds of error. -/
inductive ErrorKind
  | malformed
  | zeroDivision
  | value
  | internal
  deriving DecidableEq, Repr

namespace ErrorKind

/-- The name of the kind, as it is noted. -/
def label : ErrorKind → String
  | malformed => "SyntaxError"
  | zeroDivision => "ZeroDivisionError"
  | value => "ValueError"
  | internal => "InternalError"

/-- The text shown for an error of this kind about `detail`: a division by zero needs no detail. -/
def wording : ErrorKind → String → String
  | malformed, detail => detail
  | zeroDivision, _ => "Division by zero"
  | value, detail => detail
  | internal, detail => "Error: " ++ detail

end ErrorKind

/-- A number that is not finite. -/
inductive NonFinite
  | notANumber
  | positiveInfinity
  | negativeInfinity
  deriving DecidableEq, Repr

/-- How a number that is not finite is written. -/
def NonFinite.text : NonFinite → String
  | notANumber => "NaN"
  | positiveInfinity => "inf"
  | negativeInfinity => "-inf"

/-- The causes for which a calculation fails. -/
inductive CalcError
  /-- A sign, a closing parenthesis or the end stands where a value has to. -/
  | missingOperand
  /-- A value directly follows a value. -/
  | missingOperator
  /-- A closing parenthesis has no opening one. -/
  | unmatchedClose
  /-- An opening parenthesis is never closed. -/
  | missingClose
  /-- A stretch of text belongs to no token. -/
  | unexpected (stretch : String)
  /-- A divisor, or the denominator of a literal, is zero. -/
  | divisionByZero
  /-- A text is no number. -/
  | invalidNumber
  /-- A number is not finite. -/
  | notFinite (number : NonFinite)
  /-- A name is no unit. -/
  | unknownUnit (name : String)
  /-- A name is no mode. -/
  | unknownMode (name : String)
  /-- A length is added to a number, or a number to a length. -/
  | unitMismatch
  /-- Two lengths are multiplied or divided. -/
  | unitProduct
  /-- The denominator of the precision is not positive. -/
  | invalidPrecision
  /-- The calculator broke one of its invariants. -/
  | internal (detail : String)
  deriving DecidableEq, Repr

namespace CalcError

/-- The kind of an error. -/
def kind : CalcError → ErrorKind
  | missingOperand | missingOperator | unmatchedClose | missingClose | unexpected _ => .malformed
  | divisionByZero => .zeroDivision
  | invalidNumber | notFinite _ | unknownUnit _ | unknownMode _ | unitMismatch | unitProduct
  | invalidPrecision => .value
  | internal _ => .internal

/-- What an error says beside its kind. -/
def detail : CalcError → String
  | missingOperand => "Missing operand"
  | missingOperator => "Missing operator"
  | unmatchedClose => "Unmatched ')'"
  | missingClose => "Missing ')'"
  | unexpected stretch => "Unexpected: '" ++ stretch ++ "'"
  | divisionByZero => ""
  | invalidNumber => "Invalid number"
  | notFinite number => "Invalid number: " ++ number.text
  | unknownUnit name => "Unknown unit: " ++ name
  | unknownMode name => "Unknown mode: " ++ name
  | unitMismatch => "Unit mismatch"
  | unitProduct => "Cannot multiply/divide units"
  | invalidPrecision => "Invalid precision"
  | internal detail => detail

/-- The text shown for an error. -/
def message (e : CalcError) : String := e.kind.wording e.detail

end CalcError

end Footrule
