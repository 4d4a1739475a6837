/-!
# Tokens

A formula is a sequence of tokens: numbers, which may carry the name of a unit, arithmetic signs and
parentheses.
-/

namespace Footrule

/-- The arithmetic operators. -/
inductive Operator
  | add
  | sub
  | mul
  | div
  deriving DecidableEq, Repr

/-- The sign of an operator. -/
def Operator.sign : Operator → Char
  | add => '+'
  | sub => '-'
  | mul => '*'
  | div => '/'

/-- The tokens that are a single sign. -/
inductive Mark
  | operator (o : Operator)
  | opening
  | closing
  deriving DecidableEq, Repr

namespace Mark

/-- The sign of a mark. -/
def sign : Mark → Char
  | operator o => o.sign
  | opening => '('
  | closing => ')'

/-- All marks. -/
def all : List Mark :=
  [operator .add, operator .sub, operator .mul, operator .div, opening, closing]

/-- The mark with the given sign. -/
def ofSign? (c : Char) : Option Mark := all.find? (·.sign = c)

@[simp] theorem ofSign?_sign (m : Mark) : ofSign? m.sign = some m := by
  cases m with
  | operator o => cases o <;> decide
  | opening => decide
  | closing => decide

theorem sign_of_ofSign? {c : Char} {m : Mark} (h : ofSign? c = some m) : m.sign = c := by
  simpa using List.find?_some h

end Mark

/-- A token of a formula; `name` is the name of the unit a number carries. -/
inductive Token
  | number (text : List Char) (name : Option (List Char))
  | mark (m : Mark)
  deriving DecidableEq, Repr

namespace Token

/-- How a token is written. -/
def text : Token → List Char
  | number text name => text ++ name.getD []
  | mark m => [m.sign]

/-- A token in quotes. -/
def quoted (t : Token) : String := "'" ++ String.ofList t.text ++ "'"

/-- The tokens in quotes, divided by commas. -/
def listing (ts : List Token) : String := ", ".intercalate (ts.map quoted)

end Token

end Footrule
