import Footrule.Proofs.Grammar.Parse

/-!
# The machine follows the grammar

After every token the machine is in the state that belongs to what is parsed so far
(`PartialParse.machine`): on its stack of values are the values of the sums and products that wait
for an operand, and on its other stack what is to be done with them. A token that the grammar allows
leads to the state of the longer parse (`machine_bind_step`), and any other token is refused
(`machine_bind_step_of_none`). So the machine evaluates a formula as its tree is evaluated, note by
note (`evaluate_of_parse?`), and refuses what is no formula (`evaluate_fails_of_parse?`).
-/

namespace Footrule

/-! ## Settling what waits -/

/-- Signs that wait for their operand. -/
def pendingSigns (signs : List Bool) : List Pending :=
  signs.filterMap fun minus => if minus then some (.operation .negate) else none

/-- A quantity after the signs before it. -/
def Quantity.signed : List Bool → Quantity → Quantity
  | [], v => v
  | true :: signs, v => signed signs v.neg
  | false :: signs, v => signed signs v

theorem settle_negate {rank : Nat} (h : rank ≤ 3) (pending : List Pending) (v : Quantity)
    (vs : List Quantity) :
    settle rank (.operation .negate :: pending) (v :: vs) = settle rank pending (v.neg :: vs) := by
  rw [settle, if_pos (by exact h), Operation.apply, pure_bind]

theorem settle_binary {rank : Nat} {o : Operator} (h : rank ≤ o.rank) (pending : List Pending)
    (r l : Quantity) (vs : List Quantity) :
    settle rank (.operation (.binary o) :: pending) (r :: l :: vs) =
      Quantity.operate o l r >>= fun v => settle rank pending (v :: vs) := by
  rw [settle, if_pos (by exact h), Operation.apply, bind_assoc]
  simp only [pure_bind]

theorem settle_weaker {rank : Nat} {o : Operator} (h : o.rank < rank) (pending : List Pending)
    (vs : List Quantity) :
    settle rank (.operation (.binary o) :: pending) vs =
      pure (.operation (.binary o) :: pending, vs) := by
  rw [settle, if_neg (by simpa [Operation.rank] using h)]

theorem settle_pendingSigns {rank : Nat} (h : rank ≤ 3) (signs : List Bool)
    (pending : List Pending) (v : Quantity) (vs : List Quantity) :
    settle rank (pendingSigns signs ++ pending) (v :: vs) =
      settle rank pending (v.signed signs :: vs) := by
  induction signs generalizing v with
  | nil => rfl
  | cons minus signs ih =>
    cases minus with
    | false => exact ih v
    | true =>
      rw [Quantity.signed, ← ih]
      exact settle_negate h _ v vs

theorem eval_signed (signs : List Bool) (u : Factor Numeral) :
    (Level.signed signs u).eval = Quantity.signed signs <$> u.eval := by
  induction signs generalizing u with
  | nil => exact (id_map _).symm
  | cons minus signs ih =>
    cases minus with
    | false => rw [Level.signed, ih, Factor.eval]; rfl
    | true =>
      rw [Level.signed, ih, Factor.eval, Functor.map_map]
      rfl

/-! ## What follows when all is settled -/

namespace Machine

/-- An operator waits. -/
def push (o : Operator) (settled : List Pending × List Quantity) : Traced Machine :=
  return ⟨settled.2, .operation (.binary o) :: settled.1, false⟩

/-- A parenthesis is closed. -/
def pop : List Pending × List Quantity → Traced Machine
  | (.opening :: pending, values) => return ⟨values, pending, true⟩
  | _ => .fail .unmatchedClose

/-- The formula ends. -/
def conclude : List Pending × List Quantity → Traced Quantity
  | ([], [v]) => return v
  | ([], []) => .fail .missingOperand
  | ([], _) => .fail .missingOperator
  | _ => .fail .missingClose

theorem step_operator_of_value (values : List Quantity) (pending : List Pending) (o : Operator) :
    step ⟨values, pending, true⟩ (.mark (.operator o)) = settle o.rank pending values >>= push o :=
  rfl

theorem step_closing_of_value (values : List Quantity) (pending : List Pending) :
    step ⟨values, pending, true⟩ (.mark .closing) = settle 0 pending values >>= pop := by
  rw [step, closing, if_pos rfl]
  refine congrArg _ (funext fun s => ?_)
  obtain ⟨_ | ⟨_ | o, pending⟩, values⟩ := s <;> rfl

theorem finish_eq (m : Machine) : m.finish = settle 0 m.pending m.values >>= conclude := by
  refine congrArg _ (funext fun s => ?_)
  obtain ⟨_ | ⟨p, pending⟩, _ | ⟨v, _ | ⟨w, values⟩⟩⟩ := s <;> rfl

end Machine

/-! ## The state of the machine for a partial parse -/

namespace Level

/-- The operator that waits for the product. -/
def pendingSum (l : Level) : List Pending :=
  match l.sum with
  | none => []
  | some (_, o) => [.operation (.binary o.1)]

/-- The operator that waits for the factor. -/
def pendingProduct (l : Level) : List Pending :=
  match l.product with
  | none => []
  | some (_, o) => [.operation (.binary o.1)]

/-- All that waits for the next factor. -/
def pending (l : Level) : List Pending := pendingSigns l.signs ++ (l.pendingProduct ++ l.pendingSum)

/-- The value of the sum on a stack of values. -/
def loadSum (l : Level) (vs : List Quantity) : Traced (List Quantity) :=
  match l.sum with
  | none => pure vs
  | some (e, _) => (· :: vs) <$> e.eval

/-- The value of the product on a stack of values. -/
def loadProduct (l : Level) (vs : List Quantity) : Traced (List Quantity) :=
  match l.product with
  | none => pure vs
  | some (t, _) => (· :: vs) <$> t.eval

/-- The values of what is read of an expression on a stack of values. -/
def load (l : Level) (vs : List Quantity) : Traced (List Quantity) := l.loadSum vs >>= l.loadProduct

theorem load_empty (vs : List Quantity) : empty.load vs = pure vs := rfl

/-- A weak operator or the end of the expression settles the product. -/
theorem settle_term {rank : Nat} (h : rank ≤ 2) (l : Level) (u : Factor Numeral)
    (pending : List Pending) (vs : List Quantity) :
    (do
      let vs ← l.loadProduct vs
      let v ← u.eval
      settle rank (pendingSigns l.signs ++ (l.pendingProduct ++ pending)) (v :: vs)) =
    (l.term u).eval >>= fun v => settle rank pending (v :: vs) := by
  obtain ⟨sum, product, signs⟩ := l
  simp only [settle_pendingSigns (Nat.le_succ_of_le h)]
  cases product with
  | none => simp [loadProduct, pendingProduct, term, Term.eval, eval_signed]
  | some left =>
    obtain ⟨t, o, ho⟩ := left
    simp [loadProduct, pendingProduct, term, Term.eval, eval_signed,
      settle_binary (show rank ≤ o.rank by omega)]

/-- The end of an expression settles all that waits in it. -/
theorem settle_expression {rank : Nat} (h : rank ≤ 1) (l : Level) (u : Factor Numeral)
    (pending : List Pending) (vs : List Quantity) :
    (do
      let vs ← l.load vs
      let v ← u.eval
      settle rank (l.pending ++ pending) (v :: vs)) =
    (l.expression u).eval >>= fun v => settle rank pending (v :: vs) := by
  have key := fun vs => settle_term (Nat.le_succ_of_le h) l u (l.pendingSum ++ pending) vs
  simp only [load, Level.pending, bind_assoc, List.append_assoc, key]
  obtain ⟨_ | ⟨e, o, ho⟩, product, signs⟩ := l
  · simp [loadSum, pendingSum, expression, Expression.eval]
  · simp [loadSum, pendingSum, expression, Expression.eval,
      settle_binary (show rank ≤ o.rank by omega)]

end Level

namespace PartialParse

/-- All that waits for the end of an open parenthesis. -/
def outerPending : List Level → List Pending
  | [] => []
  | l :: outer => .opening :: (l.pending ++ outerPending outer)

/-- The values that wait for the end of an open parenthesis. -/
def outerValues : List Level → Traced (List Quantity)
  | [] => pure []
  | l :: outer => outerValues outer >>= l.load

/-- The state of the machine. -/
def machine (p : PartialParse) : Traced Machine := do
  let vs ← outerValues p.outer >>= p.level.load
  let pending := p.level.pending ++ outerPending p.outer
  match p.value with
  | none => return ⟨vs, pending, false⟩
  | some u =>
    let v ← u.eval
    return ⟨v :: vs, pending, true⟩

/-- An open parenthesis stops what is settled. -/
theorem settle_outerPending (rank : Nat) (outer : List Level) (vs : List Quantity) :
    settle rank (outerPending outer) vs = pure (outerPending outer, vs) := by
  cases outer <;> rfl

theorem machine_none (outer : List Level) (l : Level) :
    machine ⟨outer, l, none⟩ = do
      let vs ← outerValues outer >>= l.load
      return ⟨vs, l.pending ++ outerPending outer, false⟩ := rfl

theorem machine_some (outer : List Level) (l : Level) (u : Factor Numeral) :
    machine ⟨outer, l, some u⟩ = do
      let vs ← outerValues outer >>= l.load
      let v ← u.eval
      return ⟨v :: vs, l.pending ++ outerPending outer, true⟩ := rfl

/-! ## One token -/

theorem machine_bind_number (outer : List Level) (l : Level) (n : Numeral) :
    machine ⟨outer, l, none⟩ >>= (·.step n.token) = machine ⟨outer, l, some (.number n)⟩ := by
  simp [machine_none, machine_some, Machine.step, Numeral.token, Machine.number, Factor.eval,
    Numeral.read]

theorem machine_bind_opening (outer : List Level) (l : Level) :
    machine ⟨outer, l, none⟩ >>= (·.step (.mark .opening)) =
      machine ⟨l :: outer, .empty, none⟩ := by
  simp only [machine_none, outerValues, Level.load_empty, bind_assoc, pure_bind]
  rfl

theorem machine_bind_sign (outer : List Level) (l : Level) (minus : Bool) :
    machine ⟨outer, l, none⟩ >>= (·.step (Level.signToken minus)) =
      machine ⟨outer, l.sign minus, none⟩ := by
  simp only [machine_none, bind_assoc, pure_bind]
  cases minus <;> rfl

/-- What follows when all of an expression is settled goes on with its value. -/
theorem bind_settle {rank : Nat} (h : rank ≤ 1) (outer : List Level) (l : Level)
    (u : Factor Numeral) {β : Type} (k : List Pending × List Quantity → Traced β) :
    (do
      let vs ← outerValues outer
      let vs ← l.load vs
      let v ← u.eval
      settle rank (l.pending ++ outerPending outer) (v :: vs) >>= k) =
    (do
      let vs ← outerValues outer
      let v ← (l.expression u).eval
      k (outerPending outer, v :: vs)) := by
  have key := fun vs => congrArg (· >>= k) (l.settle_expression h u (outerPending outer) vs)
  simp only [bind_assoc, settle_outerPending, pure_bind] at key
  simp only [key]

theorem machine_bind_additive (outer : List Level) (l : Level) (u : Factor Numeral) {o : Operator}
    (ho : o.rank = 1) :
    machine ⟨outer, l, some u⟩ >>= (·.step (.mark (.operator o))) =
      machine ⟨outer, l.operator u o, none⟩ := by
  simp only [machine_some, bind_assoc, pure_bind, Machine.step_operator_of_value,
    bind_settle (Nat.le_of_eq ho), l.operator_of_additive u ho, machine_none]
  simp [Level.load, Level.loadSum, Level.loadProduct, Level.pending, Level.pendingSum,
    Level.pendingProduct, pendingSigns, Machine.push]

theorem machine_bind_multiplicative (outer : List Level) (l : Level) (u : Factor Numeral)
    {o : Operator} (ho : o.rank = 2) :
    machine ⟨outer, l, some u⟩ >>= (·.step (.mark (.operator o))) =
      machine ⟨outer, l.operator u o, none⟩ := by
  -- the sum binds less strongly than the operator and goes on waiting
  have hsum (v : Quantity) (vs : List Quantity) :
      settle o.rank (l.pendingSum ++ outerPending outer) (v :: vs) =
        pure (l.pendingSum ++ outerPending outer, v :: vs) := by
    obtain ⟨_ | ⟨e, o', ho'⟩, product, signs⟩ := l
    · exact settle_outerPending _ _ _
    · exact settle_weaker (show o'.rank < o.rank by omega) _ _
  have key := fun vs => congrArg (· >>= Machine.push o)
    (l.settle_term (show o.rank ≤ 2 by omega) u (l.pendingSum ++ outerPending outer) vs)
  simp only [bind_assoc, hsum, pure_bind] at key
  simp only [machine_some, bind_assoc, pure_bind, Machine.step_operator_of_value, Level.load,
    Level.pending, List.append_assoc, key, l.operator_of_multiplicative u ho, machine_none]
  simp [Level.loadSum, Level.loadProduct, Level.pendingSum, Level.pendingProduct, pendingSigns,
    Machine.push]

theorem machine_bind_operator (outer : List Level) (l : Level) (u : Factor Numeral)
    (o : Operator) :
    machine ⟨outer, l, some u⟩ >>= (·.step (.mark (.operator o))) =
      machine ⟨outer, l.operator u o, none⟩ := by
  by_cases ho : o.rank = 1
  · exact machine_bind_additive outer l u ho
  · exact machine_bind_multiplicative outer l u (Operator.rank_eq_two ho)

theorem machine_bind_closing (outer : List Level) (l l' : Level) (u : Factor Numeral) :
    machine ⟨l' :: outer, l, some u⟩ >>= (·.step (.mark .closing)) =
      machine ⟨outer, l', some (.group (l.expression u))⟩ := by
  simp only [machine_some, bind_assoc, pure_bind, Machine.step_closing_of_value,
    bind_settle (Nat.zero_le 1)]
  simp only [outerPending, outerValues, Factor.eval, bind_assoc, Machine.pop]

/-- A parenthesis that closes none is found when all before it is settled. -/
theorem machine_bind_unmatched (l : Level) (u : Factor Numeral) :
    machine ⟨[], l, some u⟩ >>= (·.step (.mark .closing)) =
      (l.expression u).eval >>= fun _ => .fail .unmatchedClose := by
  simp only [machine_some, bind_assoc, pure_bind, Machine.step_closing_of_value,
    bind_settle (Nat.zero_le 1)]
  simp only [outerPending, outerValues, pure_bind, Machine.pop]

theorem machine_bind_finish (outer : List Level) (l : Level) (u : Factor Numeral) :
    machine ⟨outer, l, some u⟩ >>= Machine.finish =
    (do
      let vs ← outerValues outer
      let v ← (l.expression u).eval
      Machine.conclude (outerPending outer, v :: vs)) := by
  simp only [machine_some, bind_assoc, pure_bind, Machine.finish_eq, bind_settle (Nat.zero_le 1)]

/-- **A token of the grammar leads the machine to the state of the longer parse.** -/
theorem machine_bind_step {p p' : PartialParse} {t : Token} (h : p.step? t = some p') :
    p.machine >>= (·.step t) = p'.machine := by
  unfold step? at h
  split at h <;> cases h
  case h_1 outer l text name => exact machine_bind_number outer l ⟨text, name⟩
  case h_2 outer l => exact machine_bind_opening outer l
  case h_3 outer l => exact machine_bind_sign outer l false
  case h_4 outer l => exact machine_bind_sign outer l true
  case h_5 outer l u o => exact machine_bind_operator outer l u o
  case h_6 l' outer l u => exact machine_bind_closing outer l l' u

/-- **Any other token is refused**, if the machine gets that far. -/
theorem machine_bind_step_of_none {p : PartialParse} {t : Token} (h : p.step? t = none) :
    (p.machine >>= (·.step t)).Fails := by
  obtain ⟨outer, l, _ | u⟩ := p
  · rw [machine_none, bind_assoc]
    refine Traced.fails_bind fun vs => ?_
    match t with
    | .mark .closing | .mark (.operator .mul) | .mark (.operator .div) => exact ⟨_, rfl⟩
  · match t, outer with
    | .number text name, _ =>
      simp only [machine_some, bind_assoc]
      exact Traced.fails_bind fun _ => Traced.fails_bind fun _ => Traced.fails_bind fun _ =>
        ⟨.missingOperator, rfl⟩
    | .mark .opening, _ =>
      simp only [machine_some, bind_assoc]
      exact Traced.fails_bind fun _ => Traced.fails_bind fun _ => Traced.fails_bind fun _ =>
        ⟨.missingOperator, rfl⟩
    | .mark (.operator o), _ => cases o <;> cases h
    | .mark .closing, [] =>
      rw [machine_bind_unmatched]
      exact Traced.fails_bind fun v => ⟨.unmatchedClose, rfl⟩

/-! ## All tokens -/

/-- **The machine reads a beginning of a formula as the parse does.** -/
theorem machine_bind_run {p p' : PartialParse} {ts : List Token} (h : p.run? ts = some p') :
    p.machine >>= (·.run ts) = p'.machine := by
  induction ts generalizing p with
  | nil =>
    cases h
    exact bind_pure _
  | cons t ts ih =>
    rw [run?_cons] at h
    obtain ⟨q, hq, hts⟩ := Option.bind_eq_some_iff.1 h
    simp only [Machine.run, List.foldlM_cons]
    rw [← bind_assoc, machine_bind_step hq]
    exact ih hts

theorem machine_bind_run_of_none {p : PartialParse} {ts : List Token} (h : p.run? ts = none) :
    (p.machine >>= (·.run ts)).Fails := by
  induction ts generalizing p with
  | nil => cases h
  | cons t ts ih =>
    simp only [Machine.run, List.foldlM_cons]
    rw [← bind_assoc]
    cases hq : p.step? t with
    | none => exact (machine_bind_step_of_none hq).bind _
    | some q =>
      rw [machine_bind_step hq]
      rw [run?_cons, hq, Option.bind_some] at h
      exact ih h

theorem machine_initial : initial.machine = pure Machine.initial := rfl

end PartialParse

open PartialParse

/-- After a factor the formula can end, if no parenthesis is open. -/
theorem evaluate_of_run {ts : List Token} {outer : List Level} {l : Level} {u : Factor Numeral}
    (h : Machine.initial.run ts = machine ⟨outer, l, some u⟩) :
    evaluate ts =
      (do
        let vs ← outerValues outer
        let v ← (l.expression u).eval
        Machine.conclude (outerPending outer, v :: vs)) >>= Quantity.noteFinal := by
  rw [evaluate, h, ← machine_bind_finish]
  simp only [machine_some, bind_assoc, pure_bind, Bool.true_eq_false, and_false, if_false]
  rfl

/-- A formula is evaluated as its tree, note by note. -/
theorem evaluate_of_parse? {ts : List Token} {e : Expression Numeral} (h : parse? ts = some e) :
    evaluate ts = e.evaluation := by
  obtain ⟨⟨outer, l, value⟩, hp, he⟩ := Option.bind_eq_some_iff.1 h
  have hrun := machine_bind_run hp
  rw [machine_initial, pure_bind] at hrun
  match outer, value with
  | [], some u =>
    obtain rfl := Option.some.inj he
    rw [evaluate_of_run hrun]
    simp only [outerValues, outerPending, Machine.conclude, pure_bind, bind_pure,
      Expression.evaluation]

/-- What is no formula is refused. -/
theorem evaluate_fails_of_parse? {ts : List Token} (h : parse? ts = none) :
    (evaluate ts).Fails := by
  cases hp : initial.run? ts with
  | none =>
    have hrun := machine_bind_run_of_none hp
    rw [machine_initial, pure_bind] at hrun
    exact hrun.bind _
  | some p =>
    have hrun := machine_bind_run hp
    rw [machine_initial, pure_bind] at hrun
    rw [parse?, hp, Option.bind_some] at h
    obtain ⟨outer, l, _ | u⟩ := p
    · by_cases hts : ts = []
      · rw [hts]
        exact ⟨.missingOperand, rfl⟩
      · rw [evaluate, hrun, machine_none, bind_assoc]
        refine Traced.fails_bind fun vs => ⟨.missingOperand, ?_⟩
        simp [hts]
    · cases outer with
      | nil => cases h
      | cons l' outer =>
        rw [evaluate_of_run hrun]
        refine Traced.Fails.bind (Traced.fails_bind fun vs => Traced.fails_bind fun v => ?_) _
        exact ⟨.missingClose, rfl⟩

/--
**The machine evaluates the formulas of the grammar, and nothing else.** Tokens that are written by
a tree are written by no other, and their evaluation is that of the tree: the same quantity or the
same failure, which is arithmetic, after the same notes, whatever was noted before. Tokens that no
tree is written with are refused.
-/
theorem evaluate_follows_grammar (trace : List String) (ts : List Token) :
    (∀ e : Expression Numeral, e.tokens = ts →
      (∀ e' : Expression Numeral, e'.tokens = ts → e' = e) ∧
      (evaluate ts).after trace = e.evaluation.after trace ∧
      ∀ err, (evaluate ts).result = .error err → err.kind ≠ .malformed) ∧
    ((¬ ∃ e : Expression Numeral, e.tokens = ts) → ∃ err, (evaluate ts).result = .error err) := by
  refine ⟨fun e he => ?_, fun hts => ?_⟩
  · have heval := evaluate_of_parse? (parse?_eq_some_iff.2 he)
    refine ⟨fun e' he' => Expression.tokens_injective (he'.trans he.symm), by rw [heval], ?_⟩
    intro err herr
    rw [heval] at herr
    rcases e.arithmetic_evaluation err herr with h | h <;> rw [h] <;> decide
  · refine evaluate_fails_of_parse? (Option.eq_none_iff_forall_ne_some.2 fun e he => ?_)
    exact hts ⟨e, tokens_of_parse? he⟩

/-- A difference is evaluated as its tree, and a lone parenthesis is refused. -/
theorem evaluate_follows_grammar_difference :
    (evaluate [.number ['2'] none, .mark (.operator .sub), .number ['3'] none]).after ["begun"] =
      (Expression.binary (.term (.factor (.number ⟨['2'], none⟩))) .sub rfl
        (.factor (.number ⟨['3'], none⟩))).evaluation.after ["begun"] ∧
    ∃ err, (evaluate [.mark .closing]).result = .error err := by
  constructor
  · exact ((evaluate_follows_grammar ["begun"]
      [.number ['2'] none, .mark (.operator .sub), .number ['3'] none]).1
      (.binary (.term (.factor (.number ⟨['2'], none⟩))) .sub rfl
        (.factor (.number ⟨['3'], none⟩))) rfl).2.1
  · refine (evaluate_follows_grammar [] [.mark .closing]).2 ?_
    rintro ⟨e, he⟩
    cases parse?_eq_some_iff.2 he

end Footrule
