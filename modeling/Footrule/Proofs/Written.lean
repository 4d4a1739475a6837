import Footrule.LengthUnit
import Footrule.Literal
import Footrule.Proofs.Grammar
import Footrule.Quantity

/-!
# Written expressions

An expression over numbers, as a tree of operations (`Tree`), and the ways to write it: the trees of
the grammar that differ from it by parentheses only (`Expression.tree`), with one space on each side
of an operator, none after a sign and none within parentheses (`Expression.text`). Every tree can be
written with divisors of a given form (`Tree.exists_written`), since a divisor may be put in
parentheses. The value of a tree is defined here on its own, from the digits of its literals.
-/

namespace Footrule

/-! ## Literals and measures -/

/-- What holds of all characters of a text is decided by going through the text. -/
instance decidableForallMem (p : Char → Prop) [DecidablePred p] (cs : List Char) :
    Decidable (∀ c ∈ cs, p c) :=
  List.decidableBAll p cs

/-- A run of the digits `0` to `9`. -/
def PlainRun (cs : List Char) : Prop := cs ≠ [] ∧ ∀ c ∈ cs, c.isDigit = true

/-- A run of blanks that divides two parts of a text. -/
def BlankRun (cs : List Char) : Prop := cs ≠ [] ∧ ∀ c ∈ cs, isBlank c = true

instance (cs : List Char) : Decidable (PlainRun cs) :=
  inferInstanceAs (Decidable (cs ≠ [] ∧ ∀ c ∈ cs, c.isDigit = true))

instance (cs : List Char) : Decidable (BlankRun cs) :=
  inferInstanceAs (Decidable (cs ≠ [] ∧ ∀ c ∈ cs, isBlank c = true))

namespace Literal

/-- The literal is written in the digits `0` to `9`. -/
def Plain : Literal → Prop
  | whole run => PlainRun run
  | decimal run decimals => (∀ c ∈ run, c.isDigit = true) ∧ PlainRun decimals
  | fraction num den => PlainRun num ∧ PlainRun den
  | mixed run gap num den => PlainRun run ∧ BlankRun gap ∧ PlainRun num ∧ PlainRun den

instance : (l : Literal) → Decidable l.Plain
  | whole run => inferInstanceAs (Decidable (PlainRun run))
  | decimal run decimals =>
    inferInstanceAs (Decidable ((∀ c ∈ run, c.isDigit = true) ∧ PlainRun decimals))
  | fraction num den => inferInstanceAs (Decidable (PlainRun num ∧ PlainRun den))
  | mixed run gap num den =>
    inferInstanceAs (Decidable (PlainRun run ∧ BlankRun gap ∧ PlainRun num ∧ PlainRun den))

/-- The literal is a fraction without a whole part. -/
def IsFraction : Literal → Prop
  | fraction _ _ => True
  | _ => False

/-- The literal is a whole number or a decimal. -/
def IsDecimal : Literal → Prop
  | whole _ | decimal _ _ => True
  | _ => False

/-- The literal is a mixed fraction. -/
def IsMixed : Literal → Prop
  | mixed _ _ _ _ => True
  | _ => False

/-- The number that a run of digits stands for. -/
def digitsValue (digits : List Char) : Nat := Nat.ofDigitChars 10 digits 0

/-- The quotient of two runs of digits, if the second is not zero. -/
def quotientValue? (num den : List Char) : Option Rat :=
  if digitsValue den = 0 then none else some (digitsValue num / digitsValue den)

/-- The exact value, if no denominator is zero. -/
def value? : Literal → Option Rat
  | whole run => some (digitsValue run)
  | decimal run decimals =>
    some (digitsValue run + digitsValue decimals / Nat.pow 10 decimals.length)
  | fraction num den => quotientValue? num den
  | mixed run _ num den => (quotientValue? num den).map fun part => digitsValue run + part

end Literal

/-- Where a value is missing, something is divided by zero. -/
def orDivisionByZero {α : Type} : Option α → Except CalcError α
  | some a => .ok a
  | none => .error .divisionByZero

/-- A literal written in the digits `0` to `9`. -/
structure PlainLiteral where
  literal : Literal
  plain : literal.Plain

/-- The name of a unit as it is written after a number: in letters of either case, after blanks. -/
structure Suffix where
  gap : List Char
  name : List Char
  unit : LengthUnit
  blank : ∀ c ∈ gap, isBlank c = true
  known : String.ofList (name.map Char.toLower) ∈ unit.aliases

/-- A number with or without a unit. -/
structure Measure where
  number : PlainLiteral
  suffix : Option Suffix

namespace PlainLiteral

/-- How the literal is written. -/
def text (l : PlainLiteral) : List Char := l.literal.text

/-- The literal as a number without unit. -/
def measure (l : PlainLiteral) : Measure := ⟨l, none⟩

end PlainLiteral

namespace Suffix

/-- How the unit is written. -/
def text (s : Suffix) : List Char := s.gap ++ s.name

end Suffix

namespace Measure

/-- How the measure is written. -/
def text (m : Measure) : List Char := m.number.text ++ (m.suffix.map Suffix.text).getD []

theorem text_none (l : PlainLiteral) : (⟨l, none⟩ : Measure).text = l.literal.text :=
  List.append_nil _

/-- The numeral of a measure. -/
def numeral (m : Measure) : Numeral := ⟨m.number.text, m.suffix.map Suffix.name⟩

/-- The quantity of a measure: a length by its meters, or a number. -/
def quantity (m : Measure) : Except CalcError Quantity :=
  (orDivisionByZero m.number.literal.value?).map fun v =>
    match m.suffix with
    | none => ⟨v, false⟩
    | some s => ⟨v * s.unit.meters, true⟩

end Measure

/-! ## Trees of operations -/

/-- An expression over leaves of some kind, without regard to how it is written. -/
inductive Tree (α : Type)
  | leaf (a : α)
  | negative (t : Tree α)
  | positive (t : Tree α)
  | binary (o : Operator) (l r : Tree α)

/-- The exact outcome of an operation on numbers; there is none of a division by zero. -/
def Operator.exactValue? : Operator → Rat → Rat → Option Rat
  | add, a, b => some (a + b)
  | sub, a, b => some (a - b)
  | mul, a, b => some (a * b)
  | div, a, b => if b = 0 then none else some (a / b)

/--
Whether the outcome of an operation is a length, given whether its operands are: sums need operands
of one kind, and of the operands of a product or quotient one at most may be a length.
-/
def Operator.lengths : Operator → Bool → Bool → Except CalcError Bool
  | add, a, b | sub, a, b => if a = b then .ok a else .error .unitMismatch
  | mul, a, b | div, a, b => if a && b then .error .unitProduct else .ok (a || b)

namespace Tree

variable {α : Type}

/-- The exact value of an expression, if no divisor is zero and all its numbers have a value. -/
def value? (number : α → Option Rat) : Tree α → Option Rat
  | leaf a => number a
  | negative t => (t.value? number).map fun v => -v
  | positive t => t.value? number
  | binary o l r =>
    (l.value? number).bind fun a => (r.value? number).bind fun b => o.exactValue? a b

/-- The exact quantity of an expression with units, given the quantities of its numbers. -/
def quantity (number : α → Except CalcError Quantity) : Tree α → Except CalcError Quantity
  | leaf a => number a
  | negative t => (t.quantity number).map fun q => ⟨-q.magnitude, q.isLength⟩
  | positive t => t.quantity number
  | binary o l r =>
    (l.quantity number).bind fun a => (r.quantity number).bind fun b =>
      (o.lengths a.isLength b.isLength).bind fun isLength =>
        (orDivisionByZero (o.exactValue? a.magnitude b.magnitude)).map fun v => ⟨v, isLength⟩

end Tree

/-! ## Ways to write a tree -/

section Written

variable {α : Type}

mutual

/-- The operations of an expression, without its parentheses. -/
def Expression.tree : Expression α → Tree α
  | .term t => t.tree
  | .binary l o _ r => .binary o l.tree r.tree

/-- The operations of a term. -/
def Term.tree : Term α → Tree α
  | .factor u => u.tree
  | .binary l o _ r => .binary o l.tree r.tree

/-- The operations of a factor. -/
def Factor.tree : Factor α → Tree α
  | .number a => .leaf a
  | .negative u => .negative u.tree
  | .positive u => .positive u.tree
  | .group e => e.tree

end

/-- A factor that may follow a division sign: in parentheses, or a number of a given form. -/
def Factor.MayDivide (p : α → Prop) : Factor α → Prop
  | .number a => p a
  | .group _ => True
  | .negative _ | .positive _ => False

mutual

/-- Every division sign is followed by a parenthesis or a number of a given form. -/
def Expression.DivisorsFit (p : α → Prop) : Expression α → Prop
  | .term t => t.DivisorsFit p
  | .binary l _ _ r => l.DivisorsFit p ∧ r.DivisorsFit p

/-- Every division sign of a term is followed by a parenthesis or a number of a given form. -/
def Term.DivisorsFit (p : α → Prop) : Term α → Prop
  | .factor u => u.DivisorsFit p
  | .binary l o _ r => l.DivisorsFit p ∧ r.DivisorsFit p ∧ (o = .div → r.MayDivide p)

/-- Every division sign of a factor is followed by a parenthesis or a number of a given form. -/
def Factor.DivisorsFit (p : α → Prop) : Factor α → Prop
  | .number _ => True
  | .negative u | .positive u => u.DivisorsFit p
  | .group e => e.DivisorsFit p

end

mutual

/-- How an expression is written, given how its numbers are. -/
def Expression.text (write : α → List Char) : Expression α → List Char
  | .term t => t.text write
  | .binary l o _ r => l.text write ++ [' ', o.sign, ' '] ++ r.text write

/-- How a term is written. -/
def Term.text (write : α → List Char) : Term α → List Char
  | .factor u => u.text write
  | .binary l o _ r => l.text write ++ [' ', o.sign, ' '] ++ r.text write

/-- How a factor is written. -/
def Factor.text (write : α → List Char) : Factor α → List Char
  | .number a => write a
  | .negative u => '-' :: u.text write
  | .positive u => '+' :: u.text write
  | .group e => '(' :: e.text write ++ [')']

end

namespace Tree

/-- The tree with every operand in parentheses. -/
def grouped : Tree α → Expression α
  | leaf a => .term (.factor (.number a))
  | negative t => .term (.factor (.negative (.group t.grouped)))
  | positive t => .term (.factor (.positive (.group t.grouped)))
  | binary o l r =>
    if h : o.rank = 1 then
      .binary (.term (.factor (.group l.grouped))) o h (.factor (.group r.grouped))
    else .term (.binary (.factor (.group l.grouped)) o (Operator.rank_eq_two h) (.group r.grouped))

theorem tree_grouped (t : Tree α) : t.grouped.tree = t := by
  induction t with
  | leaf a => rfl
  | negative t ih => exact congrArg _ ih
  | positive t ih => exact congrArg _ ih
  | binary o l r hl hr =>
    rw [grouped]
    split
    · simp only [Expression.tree, Term.tree, Factor.tree, hl, hr]
    · simp only [Expression.tree, Term.tree, Factor.tree, hl, hr]

theorem divisorsFit_grouped (p : α → Prop) (t : Tree α) : t.grouped.DivisorsFit p := by
  induction t with
  | leaf a => trivial
  | negative t ih => exact ih
  | positive t ih => exact ih
  | binary o l r hl hr =>
    rw [grouped]
    split
    · exact ⟨hl, hr⟩
    · exact ⟨hl, hr, fun _ => trivial⟩

/-- Every tree can be written, whatever form is asked of a number that divides. -/
theorem exists_written (p : α → Prop) (t : Tree α) :
    ∃ e : Expression α, e.tree = t ∧ e.DivisorsFit p :=
  ⟨t.grouped, t.tree_grouped, t.divisorsFit_grouped p⟩

end Tree

end Written

end Footrule
