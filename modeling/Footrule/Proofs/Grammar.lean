import Footrule.Machine
import Footrule.Proofs.Traced

/-!
# The grammar of formulas

A formula is an expression: terms added and subtracted from left to right; a term is factors
multiplied and divided from left to right; a factor is a number, a factor with a sign before it, or
an expression in parentheses. A tree of this grammar over numerals has the tokens it is written
with (`Expression.tokens`) and is evaluated from left to right, each operation after its two
operands (`Expression.eval`). An evaluation fails only for arithmetic reasons
(`Expression.arithmetic_eval`): a number or a unit that cannot be read, units that do not match,
or a division by zero.
-/

namespace Footrule

theorem Operator.rank_eq_two {o : Operator} (h : o.rank ≠ 1) : o.rank = 2 := by
  cases o <;> simp_all [Operator.rank]

/-! ## Trees -/

mutual

/-- Terms added and subtracted from left to right. -/
inductive Expression (α : Type)
  | term (t : Term α)
  | binary (l : Expression α) (o : Operator) (additive : o.rank = 1) (r : Term α)

/-- Factors multiplied and divided from left to right. -/
inductive Term (α : Type)
  | factor (u : Factor α)
  | binary (l : Term α) (o : Operator) (multiplicative : o.rank = 2) (r : Factor α)

/-- A number, a factor with a sign before it, or an expression in parentheses. -/
inductive Factor (α : Type)
  | number (a : α)
  | negative (u : Factor α)
  | positive (u : Factor α)
  | group (e : Expression α)

end

/-- A number as a token has it: its text, and the name of the unit it carries. -/
structure Numeral where
  text : List Char
  name : Option (List Char)
  deriving DecidableEq, Repr

namespace Numeral

/-- The token of a numeral. -/
def token (n : Numeral) : Token := .number n.text n.name

/-- The quantity of a numeral. -/
def read (n : Numeral) : Traced Quantity := Quantity.read n.text n.name

end Numeral

/-! ## Tokens -/

mutual

/-- The tokens an expression is written with. -/
def Expression.tokens : Expression Numeral → List Token
  | .term t => t.tokens
  | .binary l o _ r => l.tokens ++ .mark (.operator o) :: r.tokens

/-- The tokens a term is written with. -/
def Term.tokens : Term Numeral → List Token
  | .factor u => u.tokens
  | .binary l o _ r => l.tokens ++ .mark (.operator o) :: r.tokens

/-- The tokens a factor is written with. -/
def Factor.tokens : Factor Numeral → List Token
  | .number n => [n.token]
  | .negative u => .mark (.operator .sub) :: u.tokens
  | .positive u => .mark (.operator .add) :: u.tokens
  | .group e => .mark .opening :: e.tokens ++ [.mark .closing]

end

/-! ## Evaluation -/

mutual

/-- The quantity of an expression: both operands, from left to right, and then the operation. -/
def Expression.eval : Expression Numeral → Traced Quantity
  | .term t => t.eval
  | .binary l o _ r => do
    let a ← l.eval
    let b ← r.eval
    Quantity.operate o a b

/-- The quantity of a term. -/
def Term.eval : Term Numeral → Traced Quantity
  | .factor u => u.eval
  | .binary l o _ r => do
    let a ← l.eval
    let b ← r.eval
    Quantity.operate o a b

/-- The quantity of a factor. A sign is not noted. -/
def Factor.eval : Factor Numeral → Traced Quantity
  | .number n => n.read
  | .negative u => Quantity.neg <$> u.eval
  | .positive u => u.eval
  | .group e => e.eval

end

/-- The value of a whole formula is noted at the end. -/
def Quantity.noteFinal (v : Quantity) : Traced Quantity := do
  .note ("Final Raw Value: " ++ Display.plain v.magnitude ++ " (Meters), Is Unit: " ++
    toString v.isLength)
  return v

/-- The evaluation of a whole formula. -/
def Expression.evaluation (e : Expression Numeral) : Traced Quantity :=
  e.eval >>= Quantity.noteFinal

/-! ## Trees over other numbers -/

section Subst

variable {α β : Type} (f : α → Factor β)

mutual

/-- The tree with a factor for each number. -/
def Expression.subst : Expression α → Expression β
  | .term t => .term t.subst
  | .binary l o h r => .binary l.subst o h r.subst

/-- The tree with a factor for each number. -/
def Term.subst : Term α → Term β
  | .factor u => .factor u.subst
  | .binary l o h r => .binary l.subst o h r.subst

/-- The tree with a factor for each number. -/
def Factor.subst : Factor α → Factor β
  | .number a => f a
  | .negative u => .negative u.subst
  | .positive u => .positive u.subst
  | .group e => .group e.subst

end

end Subst

/-! ## The failures of an evaluation -/

open Traced

theorem arithmetic_readNatural (cs : List Char) : (ofExcept (readNatural cs)).Arithmetic := by
  intro e h
  simp only [result_ofExcept, readNatural] at h
  split at h <;> cases h
  exact .inr rfl

theorem arithmetic_readRatio (n d : Nat) : (ofExcept (readRatio n d)).Arithmetic := by
  intro e h
  simp only [result_ofExcept, readRatio] at h
  split at h <;> cases h
  exact .inl rfl

theorem arithmetic_readDecimal (cs : List Char) : (ofExcept (readDecimal cs)).Arithmetic := by
  intro e h
  simp only [result_ofExcept, readDecimal] at h
  split at h <;> cases h
  exact .inr rfl

/-- A number is read, or is no number, or has a zero denominator. -/
theorem arithmetic_readNumber (text : List Char) : (readNumber text).Arithmetic := by
  refine arithmetic_bind (arithmetic_note _) fun _ => ?_
  unfold readTrimmed
  split
  · intro e h
    cases h
    exact .inr rfl
  split
  · exact arithmetic_bind (arithmetic_readNatural _) fun w =>
      arithmetic_bind (arithmetic_readNatural _) fun n =>
      arithmetic_bind (arithmetic_readNatural _) fun d =>
      arithmetic_bind (arithmetic_note _) fun _ =>
      arithmetic_bind (arithmetic_readRatio _ _) fun _ =>
      arithmetic_bind (arithmetic_note _) fun _ => arithmetic_pure _
  split
  · exact arithmetic_bind (arithmetic_note _) fun _ =>
      arithmetic_bind (arithmetic_readNatural _) fun n =>
      arithmetic_bind (arithmetic_readNatural _) fun d => arithmetic_readRatio _ _
  · unfold readPlain
    split
    · exact arithmetic_pure _
    · exact arithmetic_bind (arithmetic_readDecimal _) fun _ =>
        arithmetic_bind (arithmetic_note _) fun _ => arithmetic_pure _

theorem arithmetic_ofName (name : List Char) : (ofExcept (LengthUnit.ofName name)).Arithmetic := by
  intro e h
  simp only [result_ofExcept, LengthUnit.ofName] at h
  split at h <;> cases h
  exact .inr rfl

theorem Numeral.arithmetic_read (n : Numeral) : n.read.Arithmetic := by
  refine arithmetic_bind (arithmetic_readNumber _) fun v => ?_
  split
  · exact arithmetic_pure _
  · exact arithmetic_bind (arithmetic_ofName _) fun u =>
      arithmetic_bind (arithmetic_note _) fun _ => arithmetic_pure _

/-- A division by a number fails for zero only. -/
theorem Quantity.combine_div_by_number (l : Quantity) (v : Rat) :
    combine .div l ⟨v, false⟩ =
      if v = 0 then .error .divisionByZero else .ok ⟨l.magnitude / v, l.isLength⟩ := by
  simp [combine]

/-- An operation is refused for its units or for a zero divisor. -/
theorem arithmetic_operate (o : Operator) (l r : Quantity) :
    (Quantity.operate o l r).Arithmetic := by
  refine arithmetic_bind (arithmetic_note _) fun _ e h => ?_
  change Quantity.combine o l r = .error e at h
  cases o with
  | add | sub =>
    simp only [Quantity.combine] at h
    split at h <;> cases h
    exact .inr rfl
  | mul =>
    simp only [Quantity.combine] at h
    split at h <;> cases h
    exact .inr rfl
  | div =>
    simp only [Quantity.combine] at h
    split at h
    · cases h
      exact .inr rfl
    · split at h <;> cases h
      exact .inl rfl

mutual

/-- **An evaluation fails only for arithmetic reasons.** -/
theorem Expression.arithmetic_eval : ∀ e : Expression Numeral, e.eval.Arithmetic
  | .term t => t.arithmetic_eval
  | .binary l o _ r => arithmetic_bind l.arithmetic_eval fun a =>
      arithmetic_bind r.arithmetic_eval fun b => arithmetic_operate o a b

theorem Term.arithmetic_eval : ∀ t : Term Numeral, t.eval.Arithmetic
  | .factor u => u.arithmetic_eval
  | .binary l o _ r => arithmetic_bind l.arithmetic_eval fun a =>
      arithmetic_bind r.arithmetic_eval fun b => arithmetic_operate o a b

theorem Factor.arithmetic_eval : ∀ u : Factor Numeral, u.eval.Arithmetic
  | .number n => n.arithmetic_read
  | .negative u => arithmetic_map _ u.arithmetic_eval
  | .positive u => u.arithmetic_eval
  | .group e => e.arithmetic_eval

end

theorem Expression.arithmetic_evaluation (e : Expression Numeral) : e.evaluation.Arithmetic :=
  arithmetic_bind e.arithmetic_eval fun _ =>
    arithmetic_bind (arithmetic_note _) fun _ => arithmetic_pure _

end Footrule
