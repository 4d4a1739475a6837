import Footrule.Quantity

/-!
# The evaluation machine

Tokens are evaluated from left to right by a machine with a stack of values and a stack of what is
still to be done with them: operators that wait for their right operand, signs that wait for their
operand, and open parentheses. An operator is applied as soon as the next token cannot bind its
operand more strongly, so that operations of one rank are done from left to right. A sign directly
before a value is a sign of that value and binds more strongly than any operator.
-/

namespace Footrule

/-- What can be done with values: change a sign, or combine two values. -/
inductive Operation
  | negate
  | binary (o : Operator)
  deriving DecidableEq, Repr

/-- How strongly an operator binds its operands. -/
def Operator.rank : Operator → Nat
  | add | sub => 1
  | mul | div => 2

/-- How strongly an operation binds its operands. -/
def Operation.rank : Operation → Nat
  | negate => 3
  | binary o => o.rank

/-- What waits on the second stack of the machine. -/
inductive Pending
  | opening
  | operation (o : Operation)
  deriving DecidableEq, Repr

/-- The two stacks, top first, and whether the last token completed a value. -/
structure Machine where
  values : List Quantity
  pending : List Pending
  afterValue : Bool
  deriving DecidableEq, Repr

/--
Apply an operation to the values on top of a stack. Where a value is missing the expression is not
to blame: a formula without an operand is refused before what waits is settled. So that case is a
broken invariant of the machine and has an error of its own, apart from `CalcError.missingOperand`;
that no evaluation ends in it says that the stack never runs out.
-/
def Operation.apply : Operation → List Quantity → Traced (List Quantity)
  | negate, v :: vs => return v.neg :: vs
  | binary o, r :: l :: vs => do
    let v ← Quantity.operate o l r
    return v :: vs
  | _, _ => .fail (.internal "a value is missing on the stack")

/--
Apply the operations that wait on top of a stack, down to the first that binds less strongly than
`rank`, or to an open parenthesis.
-/
def settle (rank : Nat) :
    List Pending → List Quantity → Traced (List Pending × List Quantity)
  | .operation o :: pending, values =>
    if rank ≤ o.rank then do
      let values ← o.apply values
      settle rank pending values
    else return (.operation o :: pending, values)
  | pending, values => return (pending, values)

namespace Machine

/-- The machine before the first token. -/
def initial : Machine := ⟨[], [], false⟩

/-- A number follows: it is a value. -/
def number (m : Machine) (text : List Char) (name : Option (List Char)) : Traced Machine :=
  if m.afterValue then .fail .missingOperator
  else do
    let v ← Quantity.read text name
    return { m with values := v :: m.values, afterValue := true }

/-- An opening parenthesis follows: a value begins. -/
def opening (m : Machine) : Traced Machine :=
  if m.afterValue then .fail .missingOperator
  else return { m with pending := .opening :: m.pending }

/-- A closing parenthesis follows: all that waits since the opening one is done. -/
def closing (m : Machine) : Traced Machine :=
  if m.afterValue then do
    let (pending, values) ← settle 0 m.pending m.values
    match pending with
    | .opening :: pending => return ⟨values, pending, true⟩
    | _ => .fail .unmatchedClose
  else .fail .missingOperand

/-- A sign follows where a value has to: a plus changes nothing, a minus waits for its operand. -/
def sign (m : Machine) : Operator → Traced Machine
  | .add => return m
  | .sub => return { m with pending := .operation .negate :: m.pending }
  | .mul | .div => .fail .missingOperand

/-- An operator follows: it waits for its right operand. -/
def operator (m : Machine) (o : Operator) : Traced Machine :=
  if m.afterValue then do
    let (pending, values) ← settle o.rank m.pending m.values
    return ⟨values, .operation (.binary o) :: pending, false⟩
  else m.sign o

/-- One step of the machine. -/
def step (m : Machine) : Token → Traced Machine
  | .number text name => m.number text name
  | .mark .opening => m.opening
  | .mark .closing => m.closing
  | .mark (.operator o) => m.operator o

/-- The steps for all tokens. -/
def run (m : Machine) (ts : List Token) : Traced Machine := ts.foldlM step m

/-- The value left when all that waits is done. -/
def finish (m : Machine) : Traced Quantity := do
  let (pending, values) ← settle 0 m.pending m.values
  match pending, values with
  | [], [v] => return v
  | [], [] => .fail .missingOperand
  | [], _ => .fail .missingOperator
  | _, _ => .fail .missingClose

end Machine

/-- The value of a sequence of tokens. -/
def evaluate (ts : List Token) : Traced Quantity := do
  let m ← Machine.initial.run ts
  if ts ≠ [] ∧ m.afterValue = false then .fail .missingOperand
  else do
    let v ← m.finish
    .note ("Final Raw Value: " ++ Display.plain v.magnitude ++ " (Meters), Is Unit: " ++
      toString v.isLength)
    return v

end Footrule
