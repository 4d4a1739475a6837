import Footrule.Proofs.Grammar.Machine

/-!
# The balance of the two stacks

Every operator that waits on one stack of the machine has its left operand on the other, and the
value just completed, if there is one, lies above them (`Machine.Balanced`). Every token keeps the
balance, whether or not the tokens are a formula (`Machine.Balanced.step`). When what waits is
settled there is a value for every sign and there are two for every operator, before each operation
and after it (`Loaded.operands`, `Loaded.settling`). So no operation ever misses a value, and an
evaluation never fails for an internal reason (`meets_evaluate`, `evaluate_balanced`).
-/

namespace Footrule

open Traced

/-- An error for which the expression is to blame, not the calculator. -/
def CalcError.IsExternal (e : CalcError) : Prop := e.kind ≠ .internal

instance (e : CalcError) : Decidable e.IsExternal :=
  inferInstanceAs (Decidable (e.kind ≠ .internal))

theorem CalcError.IsArithmetic.isExternal {e : CalcError} (h : e.IsArithmetic) : e.IsExternal := by
  rw [IsExternal]
  rcases h with h | h <;> rw [h] <;> decide

/-- How many operators wait for their right operand. -/
def operatorCount : List Pending → Nat
  | [] => 0
  | .operation (.binary _) :: pending => operatorCount pending + 1
  | .operation .negate :: pending => operatorCount pending
  | .opening :: pending => operatorCount pending

/-! ## Settling -/

/-- There is a value, and under it the left operand of every operator that waits. -/
def Loaded (settled : List Pending × List Quantity) : Prop :=
  settled.2.length = operatorCount settled.1 + 1

section Loaded

variable {rank : Nat} {o : Operation} {pending : List Pending} {values : List Quantity}

/--
On loaded stacks an operation is a sign that is applied to one value, or one of the four operators
that is applied to two.
-/
theorem Loaded.operands (h : Loaded (.operation o :: pending, values)) :
    (∃ v vs, o = .negate ∧ values = v :: vs ∧ o.apply values = pure (v.neg :: vs)) ∨
    ∃ op l r vs, o = .binary op ∧ values = r :: l :: vs ∧
      o.apply values = (· :: vs) <$> Quantity.operate op l r := by
  cases o with
  | negate =>
    obtain ⟨v, vs, rfl⟩ := List.exists_cons_of_length_eq_add_one h
    exact .inl ⟨v, vs, rfl, rfl, rfl⟩
  | binary op =>
    obtain ⟨r, vs, rfl⟩ := List.exists_cons_of_length_eq_add_one h
    obtain ⟨l, vs, rfl⟩ := List.exists_cons_of_length_eq_add_one (Nat.succ.inj h)
    exact .inr ⟨op, l, r, vs, rfl, rfl, bind_pure_comp _ _⟩

/-- **An operation leaves the stacks loaded**, or fails for an arithmetic reason. -/
theorem Loaded.apply (h : Loaded (.operation o :: pending, values)) :
    (o.apply values).Meets (fun vs => Loaded (pending, vs)) CalcError.IsArithmetic := by
  obtain ⟨v, vs, rfl, rfl, happly⟩ | ⟨op, l, r, vs, rfl, rfl, happly⟩ := h.operands
  · rw [happly]
    exact meets_pure h
  · rw [happly, ← bind_pure_comp]
    exact (arithmetic_operate op l r).meets.bind fun v _ => meets_pure (Nat.succ.inj h)

/-- The stacks through which settling goes, from one operation to the next. -/
inductive Settling (rank : Nat) :
    List Pending × List Quantity → List Pending × List Quantity → Prop
  | start (reached : List Pending × List Quantity) : Settling rank reached reached
  | apply {o : Operation} {pending : List Pending} {values values' : List Quantity}
      {reached : List Pending × List Quantity} (hrank : rank ≤ o.rank)
      (hvalues : (o.apply values).result = .ok values')
      (hrest : Settling rank (pending, values') reached) :
      Settling rank (.operation o :: pending, values) reached

/-- Settling comes to an operation and applies it to the stack of values. -/
def Settles (rank : Nat) (start : List Pending × List Quantity) (o : Operation)
    (values : List Quantity) : Prop :=
  rank ≤ o.rank ∧ ∃ pending, Settling rank start (.operation o :: pending, values)

/-- Settling leaves the last stacks it goes through, or fails as an operation that it applies. -/
theorem meets_settling (rank : Nat) (pending : List Pending) (values : List Quantity) :
    (settle rank pending values).Meets (Settling rank (pending, values)) fun e =>
      ∃ o vs, Settles rank (pending, values) o vs ∧ (o.apply vs).result = .error e := by
  induction pending generalizing values with
  | nil => exact meets_pure (.start _)
  | cons p pending ih =>
    cases p with
    | opening => exact meets_pure (.start _)
    | operation o =>
      rw [settle]
      split
      · next hrank =>
        have happly : (o.apply values).Meets (fun vs => (o.apply values).result = .ok vs) fun e =>
            ∃ o' vs, Settles rank (.operation o :: pending, values) o' vs ∧
              (o'.apply vs).result = .error e :=
          ⟨fun _ => id, fun e he => ⟨o, values, ⟨hrank, pending, .start _⟩, he⟩⟩
        refine happly.bind fun vs hvs => ⟨fun reached hs => ?_, fun e he => ?_⟩
        · exact .apply hrank hvs ((ih vs).1 reached hs)
        · obtain ⟨o', ws, ⟨hrank', rest, hs⟩, hfails⟩ := (ih vs).2 e he
          exact ⟨o', ws, ⟨hrank', rest, .apply hrank hvs hs⟩, hfails⟩
      · exact meets_pure (.start _)

/-- The stacks stay loaded as long as settling goes on. -/
theorem Loaded.settling {start reached : List Pending × List Quantity} (h : Loaded start)
    (hs : Settling rank start reached) : Loaded reached := by
  induction hs with
  | start => exact h
  | apply _ hvalues _ ih => exact ih (h.apply.1 _ hvalues)

/-- Settling keeps the stacks loaded, or fails for an arithmetic reason. -/
theorem meets_settle (rank : Nat) (h : Loaded (pending, values)) :
    (settle rank pending values).Meets Loaded CalcError.IsArithmetic := by
  refine ⟨fun settled hs => h.settling ((meets_settling rank pending values).1 settled hs),
    fun e he => ?_⟩
  obtain ⟨o, vs, ⟨-, rest, hs⟩, hfails⟩ := (meets_settling rank pending values).2 e he
  exact (h.settling hs).apply.2 e hfails

end Loaded

/-! ## The machine -/

namespace Machine

/-- The values on the stack are the left operands of what waits, and the value just completed. -/
def Balanced (m : Machine) : Prop :=
  m.values.length = operatorCount m.pending + if m.afterValue then 1 else 0

theorem balanced_initial : initial.Balanced := rfl

theorem Balanced.loaded {m : Machine} (hm : m.Balanced) (hv : m.afterValue = true) :
    Loaded (m.pending, m.values) := by
  rw [Balanced, hv] at hm
  exact hm

theorem Balanced.number {m : Machine} (hm : m.Balanced) (text : List Char)
    (name : Option (List Char)) : (m.number text name).Meets Balanced CalcError.IsExternal := by
  obtain ⟨values, pending, _ | _⟩ := m
  · have hread := (Numeral.arithmetic_read ⟨text, name⟩).meets.imp_error fun e he => he.isExternal
    exact hread.bind fun v _ => meets_pure (congrArg (· + 1) hm)
  · exact meets_fail (by decide)

theorem Balanced.opening {m : Machine} (hm : m.Balanced) :
    m.opening.Meets Balanced CalcError.IsExternal := by
  obtain ⟨values, pending, _ | _⟩ := m
  · exact meets_pure hm
  · exact meets_fail (by decide)

theorem Balanced.closing {m : Machine} (hm : m.Balanced) :
    m.closing.Meets Balanced CalcError.IsExternal := by
  obtain ⟨values, pending, _ | _⟩ := m
  · exact meets_fail (by decide)
  · have hclosing := step_closing_of_value values pending
    rw [step] at hclosing
    rw [hclosing]
    refine ((meets_settle 0 hm).imp_error fun e he => he.isExternal).bind fun settled hs => ?_
    obtain ⟨_ | ⟨_ | o, pending⟩, values⟩ := settled
    · exact meets_fail (by decide)
    · exact meets_pure hs
    · exact meets_fail (by decide)

theorem Balanced.operator {m : Machine} (hm : m.Balanced) (o : Operator) :
    (m.operator o).Meets Balanced CalcError.IsExternal := by
  obtain ⟨values, pending, _ | _⟩ := m
  · cases o with
    | add => exact meets_pure hm
    | sub => exact meets_pure hm
    | mul => exact meets_fail (by decide)
    | div => exact meets_fail (by decide)
  · have hoperator := step_operator_of_value values pending o
    rw [step] at hoperator
    rw [hoperator]
    refine ((meets_settle o.rank hm).imp_error fun e he => he.isExternal).bind fun settled hs => ?_
    exact meets_pure hs

/-- **Every token keeps the balance**, or is refused for a reason that is not internal. -/
theorem Balanced.step {m : Machine} (hm : m.Balanced) (t : Token) :
    (m.step t).Meets Balanced CalcError.IsExternal :=
  match t with
  | .number text name => hm.number text name
  | .mark .opening => hm.opening
  | .mark .closing => hm.closing
  | .mark (.operator o) => hm.operator o

theorem Balanced.run {m : Machine} (hm : m.Balanced) (ts : List Token) :
    (m.run ts).Meets Balanced CalcError.IsExternal := by
  induction ts generalizing m with
  | nil => exact meets_pure hm
  | cons t ts ih =>
    simp only [Machine.run, List.foldlM_cons]
    exact (hm.step t).bind fun m hm => ih hm

/-- At the end of a formula one value is left, unless a parenthesis is open. -/
theorem Balanced.finish {m : Machine} (hm : m.Balanced) (hv : m.afterValue = true) :
    m.finish.Meets (fun _ => True) fun e => e = .missingClose ∨ e.IsArithmetic := by
  rw [finish_eq]
  refine ((meets_settle 0 (hm.loaded hv)).imp_error fun e => .inr).bind fun settled hs => ?_
  match settled with
  | ([], values) =>
    obtain ⟨v, rfl⟩ := List.length_eq_one_iff.1 hs
    exact meets_pure trivial
  | (p :: pending, values) => exact meets_fail (.inl rfl)

end Machine

/-- **An evaluation never fails for an internal reason.** -/
theorem meets_evaluate (ts : List Token) :
    (evaluate ts).Meets (fun _ => True) CalcError.IsExternal := by
  cases ts with
  | nil => exact ⟨fun _ _ => trivial, fun e he => by cases he; decide⟩
  | cons t ts =>
    refine (Machine.balanced_initial.run _).bind fun m hm => ?_
    split
    · exact meets_fail (by decide)
    · next h =>
      have hfinish : m.finish.Meets (fun _ => True) CalcError.IsExternal :=
        (hm.finish (by simpa using h)).imp_error fun e he =>
          he.elim (fun he => he ▸ by decide) fun he => he.isExternal
      exact hfinish.bind fun v _ => (meets_note _).bind fun _ _ => meets_pure trivial

/-! ## The operations of an evaluation -/

/--
After some of the tokens the operation is applied to the stack of values, when what waits is settled
down to some rank. That is done only where a value was just completed, by a closing parenthesis, by
an operator or by the end of the formula, and at the end of the empty formula.
-/
def AppliedIn (ts : List Token) (o : Operation) (values : List Quantity) : Prop :=
  ∃ before m rank, before <+: ts ∧ (Machine.initial.run before).result = .ok m ∧
    (before = [] ∨ m.afterValue = true) ∧ Settles rank (m.pending, m.values) o values

theorem AppliedIn.exists_loaded {ts : List Token} {o : Operation} {values : List Quantity}
    (h : AppliedIn ts o values) : ∃ pending, Loaded (.operation o :: pending, values) := by
  obtain ⟨before, m, rank, -, hrun, hbefore, -, pending, hs⟩ := h
  rcases hbefore with rfl | hv
  · -- Nothing waits before the first token.
    cases hrun
    cases hs
  · exact ⟨pending, (((Machine.balanced_initial.run before).1 m hrun).loaded hv).settling hs⟩

/--
**The stacks never run out.** After all tokens that are read without an error, whether or not they
begin a formula, there are as many values as there are operators that wait, and one more if a value
was just completed. So every operation that is applied is a sign with its value or one of the four
operators with its two, at most one value is left when nothing waits any more, and no evaluation
fails for an internal reason.
-/
theorem evaluate_balanced (ts : List Token) :
    (∀ before m, before <+: ts → (Machine.initial.run before).result = .ok m →
      m.values.length = operatorCount m.pending + if m.afterValue then 1 else 0) ∧
    (∀ o values, AppliedIn ts o values →
      (∃ v vs, o = .negate ∧ values = v :: vs ∧ o.apply values = pure (v.neg :: vs)) ∨
      ∃ op l r vs, o = .binary op ∧ values = r :: l :: vs ∧
        o.apply values = (· :: vs) <$> Quantity.operate op l r) ∧
    (∀ m values, (Machine.initial.run ts).result = .ok m → ts = [] ∨ m.afterValue = true →
      (settle 0 m.pending m.values).result = .ok ([], values) → values.length ≤ 1) ∧
    ∀ e, (evaluate ts).result = .error e → e.kind ≠ .internal := by
  refine ⟨fun before m _ hrun => (Machine.balanced_initial.run before).1 m hrun,
    fun o values h => ?_, fun m values hrun hts hsettle => ?_, (meets_evaluate ts).2⟩
  · obtain ⟨pending, hloaded⟩ := h.exists_loaded
    exact hloaded.operands
  · rcases hts with rfl | hv
    · cases hrun
      cases hsettle
      exact Nat.zero_le 1
    · have hloaded := ((Machine.balanced_initial.run ts).1 m hrun).loaded hv
      exact Nat.le_of_eq ((meets_settle 0 hloaded).1 _ hsettle)

/-- A product of which the second factor is never closed. -/
def unclosedProduct : List Token :=
  [.number ['2'] none, .mark (.operator .mul), .mark .opening, .number ['3'] none,
    .mark (.operator .sub), .number ['4'] none]

/--
At the end of an unclosed product two operators wait under three values, and the subtraction that
is applied first has its two.
-/
theorem evaluate_balanced_unclosedProduct :
    ∃ m : Machine, (Machine.initial.run unclosedProduct).result = .ok m ∧
      m.values.length = operatorCount m.pending + (if m.afterValue then 1 else 0) ∧
      ∃ l r vs, m.values = r :: l :: vs ∧
        (Operation.binary .sub).apply m.values = (· :: vs) <$> Quantity.operate .sub l r := by
  have hstate : (Machine.initial.run unclosedProduct).result.toOption =
      some ⟨[⟨4, false⟩, ⟨3, false⟩, ⟨2, false⟩],
        [.operation (.binary .sub), .opening, .operation (.binary .mul)], true⟩ := by
    decide +kernel
  cases hrun : (Machine.initial.run unclosedProduct).result with
  | error e =>
    rw [hrun] at hstate
    cases hstate
  | ok m =>
    rw [hrun] at hstate
    obtain rfl := Option.some.inj hstate
    obtain ⟨hbalanced, happlied, -, -⟩ := evaluate_balanced unclosedProduct
    refine ⟨_, rfl, hbalanced _ _ (List.prefix_refl _) hrun, ?_⟩
    have hsub : AppliedIn unclosedProduct (.binary .sub) [⟨4, false⟩, ⟨3, false⟩, ⟨2, false⟩] :=
      ⟨unclosedProduct, _, 0, List.prefix_refl _, hrun, .inr rfl, Nat.zero_le _, _, .start _⟩
    obtain ⟨_, _, hsign, _⟩ | ⟨op, l, r, vs, hop, hvalues, happly⟩ := happlied _ _ hsub
    · cases hsign
    · cases hop
      exact ⟨l, r, vs, hvalues, happly⟩

end Footrule
