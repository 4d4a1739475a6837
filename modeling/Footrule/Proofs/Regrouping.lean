import Footrule.Proofs.Grammar.Machine

/-!
# Regrouped formulas

Two formulas may say the same in different tokens: a division of two numbers may be a single
fraction, and a mixed fraction may be a sum in parentheses (`Regrouped`). A fraction takes the place
of a division only where no division waits for its dividend, since `8 / 4 / 2` is not `8 / (4 / 2)`;
in every other place the machine ends with the same result (`evaluate_of_regrouped`).
-/

namespace Footrule

/-! ## What a machine comes to -/

namespace Machine

/-- The end of the formula. -/
def conclusion (m : Machine) : Traced Quantity :=
  if m.afterValue then m.finish else .fail .missingOperand

/-- What the machine comes to with the tokens that are left. -/
def outcome (m : Machine) (ts : List Token) : Except CalcError Quantity :=
  (m.run ts >>= conclusion).result

theorem outcome_nil (m : Machine) : m.outcome [] = m.conclusion.result := rfl

theorem outcome_cons (m : Machine) (t : Token) (ts : List Token) :
    m.outcome (t :: ts) = (m.step t).result.bind fun m => m.outcome ts := by
  simp only [outcome, run, List.foldlM_cons, bind_assoc, Traced.result_bind]

end Machine

theorem result_evaluate (ts : List Token) :
    (evaluate ts).result = Machine.initial.outcome ts := by
  cases ts with
  | nil => rfl
  | cons t ts =>
    rw [evaluate, Machine.outcome, Traced.result_bind, Traced.result_bind]
    congr 1
    ext m
    cases hv : m.afterValue with
    | false => simp [Machine.conclusion, hv]
    | true =>
      simp only [Machine.conclusion, hv]
      cases hm : m.finish.result <;> simp [hm, Except.bind, Except.map]

/-- What may follow a value: the end, a closing parenthesis or an operator. -/
def FollowsValue : List Token → Prop
  | [] => True
  | .mark .closing :: _ => True
  | .mark (.operator _) :: _ => True
  | _ => False

/-- After a value the machine first settles what waits, and only then looks at the values. -/
theorem exists_outcome_eq_settle {ts : List Token} (h : FollowsValue ts) :
    ∃ rank ≤ 2, ∃ k, ∀ values pending,
      (⟨values, pending, true⟩ : Machine).outcome ts =
        (settle rank pending values).result.bind k := by
  match ts with
  | [] =>
    refine ⟨0, by omega, fun s => (Machine.conclude s).result, fun values pending => ?_⟩
    rw [Machine.outcome_nil, Machine.conclusion, if_pos rfl, Machine.finish_eq, Traced.result_bind]
  | .mark .closing :: ts =>
    refine ⟨0, by omega, fun s => (Machine.pop s).result.bind (·.outcome ts),
      fun values pending => ?_⟩
    rw [Machine.outcome_cons, Machine.step_closing_of_value, Traced.result_bind]
    cases (settle 0 pending values).result <;> rfl
  | .mark (.operator o) :: ts =>
    refine ⟨o.rank, by cases o <;> simp [Operator.rank],
      fun s => (Machine.push o s).result.bind (·.outcome ts), fun values pending => ?_⟩
    rw [Machine.outcome_cons, Machine.step_operator_of_value, Traced.result_bind]
    cases (settle o.rank pending values).result <;> rfl

/-- States that settle alike come to the same. -/
theorem outcome_congr {values values' : List Quantity} {pending pending' : List Pending}
    {ts : List Token} (h : FollowsValue ts)
    (hs : ∀ rank ≤ 2, (settle rank pending values).result = (settle rank pending' values').result) :
    (⟨values, pending, true⟩ : Machine).outcome ts =
      (⟨values', pending', true⟩ : Machine).outcome ts := by
  obtain ⟨rank, hr, k, hk⟩ := exists_outcome_eq_settle h
  rw [hk, hk, hs rank hr]

/-! ## What waits for a value -/

/-- No product or quotient waits on top of the stack. -/
def Weak (pending : List Pending) : Prop := ∀ vs, settle 2 pending vs = pure (pending, vs)

/-- Only signs and a multiplication wait for the next value. -/
def Undivided (pending : List Pending) (values : List Quantity) : Prop :=
  ∃ signs rest, pending = pendingSigns signs ++ rest ∧
    (Weak rest ∨ ∃ rest' v vs, rest = .operation (.binary .mul) :: rest' ∧ Weak rest' ∧
      values = v :: vs)

theorem weak_nil : Weak [] := fun _ => rfl

theorem weak_opening (pending : List Pending) : Weak (.opening :: pending) := fun _ => rfl

theorem weak_additive {o : Operator} (h : o.rank = 1) (pending : List Pending) :
    Weak (.operation (.binary o) :: pending) := fun vs => settle_weaker (by omega) pending vs

theorem Weak.undivided {pending : List Pending} (h : Weak pending) (values : List Quantity) :
    Undivided pending values := ⟨[], pending, rfl, .inl h⟩

theorem Undivided.negate {pending : List Pending} {values : List Quantity}
    (h : Undivided pending values) : Undivided (.operation .negate :: pending) values := by
  obtain ⟨signs, rest, rfl, hr⟩ := h
  exact ⟨true :: signs, rest, rfl, hr⟩

/-- An operation leaves its value on the stack. -/
theorem ne_nil_of_apply {o : Operation} {values values' : List Quantity}
    (h : (o.apply values).result = .ok values') : values' ≠ [] := by
  unfold Operation.apply at h
  split at h
  · cases h
    exact List.cons_ne_nil _ _
  · obtain ⟨v, -, hv⟩ := Traced.result_bind_eq_ok_iff.1 h
    cases hv
    exact List.cons_ne_nil _ _
  · cases h

/-- Settling leaves a value where one was, and nothing that could be settled further. -/
theorem settle_spec {rank : Nat} {pending pending' : List Pending} {values values' : List Quantity}
    (h : (settle rank pending values).result = .ok (pending', values')) :
    (values ≠ [] → values' ≠ []) ∧ ∀ vs, settle rank pending' vs = pure (pending', vs) := by
  induction pending generalizing values with
  | nil =>
    cases h
    exact ⟨id, fun _ => rfl⟩
  | cons p pending ih =>
    cases p with
    | opening =>
      cases h
      exact ⟨id, fun _ => rfl⟩
    | operation o =>
      rw [settle] at h
      split at h
      · obtain ⟨vs, ho, hs⟩ := Traced.result_bind_eq_ok_iff.1 h
        obtain ⟨hne, hw⟩ := ih hs
        exact ⟨fun _ => hne (ne_nil_of_apply ho), hw⟩
      · next hlt =>
        cases h
        exact ⟨id, fun vs => by rw [settle, if_neg hlt]⟩

/-! ## The invariant of a run -/

/-- Whether the next value is a divisor, given whether the token before was read in a division. -/
def Token.divides (dividing : Bool) : Token → Bool
  | .mark (.operator .div) => true
  | .mark (.operator .add) | .mark (.operator .sub) => dividing
  | _ => false

/-- What holds of the machine before every token: a value that is no divisor may be multiplied. -/
structure Machine.Sound (dividing : Bool) (m : Machine) : Prop where
  value : m.afterValue = true → m.values ≠ []
  due : m.afterValue = false → dividing = false → Undivided m.pending m.values

namespace Machine

theorem sound_initial : initial.Sound false :=
  ⟨fun h => (Bool.false_ne_true h).elim, fun _ _ => weak_nil.undivided _⟩

theorem Sound.operator {dividing : Bool} {m m' : Machine} {o : Operator} (hm : m.Sound dividing)
    (h : (m.operator o).result = .ok m') :
    m'.Sound (Token.divides dividing (.mark (.operator o))) := by
  unfold Machine.operator at h
  split at h
  · next hv =>
    obtain ⟨⟨pending, values⟩, hs, hm'⟩ := Traced.result_bind_eq_ok_iff.1 h
    cases hm'
    obtain ⟨hne, hw⟩ := settle_spec hs
    refine ⟨fun h => (Bool.false_ne_true h).elim, fun _ hd => ?_⟩
    cases o with
    | add => exact (weak_additive rfl _).undivided _
    | sub => exact (weak_additive rfl _).undivided _
    | mul =>
      obtain ⟨v, vs, rfl⟩ := List.exists_cons_of_ne_nil (hne (hm.value hv))
      exact ⟨[], _, rfl, .inr ⟨pending, v, vs, rfl, hw, rfl⟩⟩
    | div => cases hd
  · next hv =>
    cases o with
    | add =>
      cases h
      exact hm
    | sub =>
      cases h
      exact ⟨fun h => (hv h).elim, fun h hd => (hm.due h hd).negate⟩
    | mul => cases h
    | div => cases h

/-- **Every token keeps the invariant.** -/
theorem Sound.step {dividing : Bool} {m m' : Machine} {t : Token} (hm : m.Sound dividing)
    (h : (m.step t).result = .ok m') : m'.Sound (t.divides dividing) := by
  match t with
  | .number text name =>
    simp only [Machine.step, Machine.number] at h
    split at h
    · cases h
    · obtain ⟨v, -, hm'⟩ := Traced.result_bind_eq_ok_iff.1 h
      cases hm'
      exact ⟨fun _ => List.cons_ne_nil _ _, fun h => (Bool.noConfusion h)⟩
  | .mark .opening =>
    simp only [Machine.step, Machine.opening] at h
    split at h
    · cases h
    · next hv =>
      cases h
      exact ⟨fun h => (hv h).elim, fun _ _ => (weak_opening _).undivided _⟩
  | .mark .closing =>
    obtain ⟨values, pending, _ | _⟩ := m
    · cases h
    · rw [step_closing_of_value] at h
      obtain ⟨⟨pending', values'⟩, hs, hm'⟩ := Traced.result_bind_eq_ok_iff.1 h
      obtain ⟨hne, -⟩ := settle_spec hs
      rcases pending' with _ | ⟨_ | _ | _, pending'⟩
      · cases hm'
      · cases hm'
        exact ⟨fun _ => hne (hm.value rfl), fun h => Bool.noConfusion h⟩
      · cases hm'
      · cases hm'
  | .mark (.operator o) => exact hm.operator h

end Machine

/-! ## A fraction in place of a division -/

/-- Signs multiply by a constant. -/
theorem exists_signed_eq_mul (signs : List Bool) :
    ∃ c : Rat, ∀ (a : Rat) (f : Bool), Quantity.signed signs ⟨a, f⟩ = ⟨c * a, f⟩ := by
  induction signs with
  | nil => exact ⟨1, fun a f => by rw [Rat.one_mul]; rfl⟩
  | cons minus signs ih =>
    obtain ⟨c, hc⟩ := ih
    cases minus with
    | false => exact ⟨c, hc⟩
    | true =>
      refine ⟨-c, fun a f => ?_⟩
      rw [Quantity.signed, Quantity.neg, hc, Rat.mul_neg, Rat.neg_mul]

/-- What waits for an undivided number multiplies it by a constant. -/
theorem Undivided.exists_scale {pending : List Pending} {values : List Quantity}
    (h : Undivided pending values) :
    ∃ (c : Rat) (f : Bool) (rest : List Pending) (values' : List Quantity), Weak rest ∧
      ∀ rank ≤ 2, ∀ a : Rat, (settle rank pending (⟨a, false⟩ :: values)).result =
        (settle rank rest (⟨c * a, f⟩ :: values')).result := by
  obtain ⟨signs, rest, rfl, hr⟩ := h
  obtain ⟨c, hc⟩ := exists_signed_eq_mul signs
  rcases hr with hw | ⟨rest', v, vs, rfl, hw, rfl⟩
  · refine ⟨c, false, rest, values, hw, fun rank hr a => ?_⟩
    rw [settle_pendingSigns (by omega), hc]
  · refine ⟨v.magnitude * c, v.isLength, rest', vs, hw, fun rank hr a => ?_⟩
    have hv : (Quantity.operate .mul v ⟨c * a, false⟩).result =
        .ok ⟨v.magnitude * c * a, v.isLength⟩ := by
      simp [Quantity.operate, Quantity.combine, Except.bind, Rat.mul_assoc]
    rw [settle_pendingSigns (by omega), hc, settle_binary hr, Traced.result_bind, hv]
    rfl

theorem combine_div_number (c a b : Rat) (f : Bool) :
    Quantity.combine .div ⟨c * a, f⟩ ⟨b, false⟩ =
      if b = 0 then .error .divisionByZero else .ok ⟨c * (a / b), f⟩ := by
  rw [Quantity.combine_div_by_number, Rat.div_def, Rat.mul_assoc, ← Rat.div_def]

/-- The text of a fraction reads as the quotient of two texts. -/
def ReadsAsQuotient (text num den : List Char) : Prop :=
  (readNumber text).result = (readNumber num).result.bind fun a =>
    (readNumber den).result.bind fun b => if b = 0 then .error .divisionByZero else .ok (a / b)

/-- The text of a mixed fraction reads as the sum of two texts. -/
def ReadsAsSum (text whole part : List Char) : Prop :=
  (readNumber text).result = (readNumber whole).result.bind fun a =>
    (readNumber part).result.map fun b => a + b

theorem result_read_number (text : List Char) :
    (Quantity.read text none).result = (readNumber text).result.map (⟨·, false⟩) := by
  rw [Quantity.read, Traced.result_bind]
  cases (readNumber text).result <;> rfl

namespace Machine

theorem outcome_number {m : Machine} (hm : m.afterValue = false) (text : List Char)
    (ts : List Token) :
    m.outcome (.number text none :: ts) = (readNumber text).result.bind fun a =>
      (⟨⟨a, false⟩ :: m.values, m.pending, true⟩ : Machine).outcome ts := by
  rw [outcome_cons, step, number, if_neg (by simp [hm]), Traced.result_bind, result_read_number]
  cases (readNumber text).result <;> rfl

theorem outcome_number_of_value {m : Machine} (hm : m.afterValue = true) (text : List Char)
    (name : Option (List Char)) (ts : List Token) :
    m.outcome (.number text name :: ts) = .error .missingOperator := by
  rw [outcome_cons, step, number, if_pos hm]
  rfl

/-- After the division the machine is where the fraction leads it, or fails as the fraction does. -/
theorem outcome_division {m : Machine} (hu : Undivided m.pending m.values) (a : Rat)
    (den : List Char) {ts : List Token} (hts : FollowsValue ts) :
    (⟨⟨a, false⟩ :: m.values, m.pending, true⟩ : Machine).outcome
        (.mark (.operator .div) :: .number den none :: ts) =
      (readNumber den).result.bind fun b =>
        if b = 0 then .error .divisionByZero
        else (⟨⟨a / b, false⟩ :: m.values, m.pending, true⟩ : Machine).outcome ts := by
  obtain ⟨c, f, rest, values, hw, hs⟩ := hu.exists_scale
  have hdiv : (settle 2 m.pending (⟨a, false⟩ :: m.values)).result =
      .ok (rest, ⟨c * a, f⟩ :: values) := by
    rw [hs 2 (Nat.le_refl 2) a, hw]
    rfl
  have hsettle (b : Rat) (rank : Nat) (hr : rank ≤ 2) :
      (settle rank (.operation (.binary .div) :: rest)
        (⟨b, false⟩ :: ⟨c * a, f⟩ :: values)).result =
        if b = 0 then .error .divisionByZero
        else (settle rank m.pending (⟨a / b, false⟩ :: m.values)).result := by
    rw [settle_binary (by exact hr), Traced.result_bind, hs rank hr, Quantity.operate,
      Traced.result_bind]
    simp only [Traced.result_note, Traced.liftM_eq, Traced.result_ofExcept, combine_div_number]
    by_cases hb : b = 0
    · rw [if_pos hb, if_pos hb]
      rfl
    · rw [if_neg hb, if_neg hb]
      rfl
  rw [outcome_cons, step_operator_of_value, Traced.result_bind, Operator.rank, hdiv]
  refine (outcome_number rfl den ts).trans (congrArg _ (funext fun b => ?_))
  by_cases hb : b = 0
  · obtain ⟨rank, hr, k, hk⟩ := exists_outcome_eq_settle hts
    rw [hk, hsettle b rank hr, if_pos hb, if_pos hb]
    rfl
  · rw [if_neg hb]
    refine outcome_congr hts fun rank hr => ?_
    rw [hsettle b rank hr, if_neg hb]

end Machine

/-! ## Regrouping -/

/--
The first formula is the second, with fractions for some of its divisions and sums for some of its
mixed fractions. The flag says whether a value at the start is a divisor.
-/
inductive Regrouped : Bool → List Token → List Token → Prop
  | nil {dividing : Bool} : Regrouped dividing [] []
  | keep {dividing : Bool} (t : Token) {ts ts' : List Token} :
      Regrouped (t.divides dividing) ts ts' → Regrouped dividing (t :: ts) (t :: ts')
  | fraction {text num den : List Char} {ts ts' : List Token} :
      ReadsAsQuotient text num den → FollowsValue ts' → Regrouped false ts ts' →
      Regrouped false (.number text none :: ts)
        (.number num none :: .mark (.operator .div) :: .number den none :: ts')
  | sum {dividing : Bool} {text whole part : List Char} {ts ts' : List Token} :
      ReadsAsSum text whole part → Regrouped false ts ts' →
      Regrouped dividing
        (.mark .opening :: .number whole none :: .mark (.operator .add) :: .number part none ::
          .mark .closing :: ts)
        (.number text none :: ts')

theorem Regrouped.refl (dividing : Bool) (ts : List Token) : Regrouped dividing ts ts := by
  induction ts generalizing dividing with
  | nil => exact .nil
  | cons t ts ih => exact .keep t (ih _)

namespace Machine

/-- A value leaves no obligation to the invariant. -/
theorem sound_of_value (v : Quantity) (values : List Quantity) (pending : List Pending) :
    Machine.Sound false ⟨v :: values, pending, true⟩ :=
  ⟨fun _ => List.cons_ne_nil _ _, fun h => Bool.noConfusion h⟩

/-- A fraction and the division it stands for. -/
theorem outcome_fraction {m : Machine} (hm : m.Sound false) {text num den : List Char}
    {ts ts' : List Token} (hq : ReadsAsQuotient text num den) (hf : FollowsValue ts')
    (ih : ∀ m : Machine, m.Sound false → m.outcome ts = m.outcome ts') :
    m.outcome (.number text none :: ts) =
      m.outcome (.number num none :: .mark (.operator .div) :: .number den none :: ts') := by
  cases hv : m.afterValue with
  | true => rw [outcome_number_of_value hv, outcome_number_of_value hv]
  | false =>
    rw [outcome_number hv, outcome_number hv, hq]
    cases (readNumber num).result with
    | error e => rfl
    | ok a =>
      refine Eq.trans ?_ (outcome_division (hm.due hv rfl) a den hf).symm
      cases (readNumber den).result with
      | error e => rfl
      | ok b =>
        simp only [Except.bind]
        by_cases hb : b = 0
        · rw [if_pos hb, if_pos hb]
        · rw [if_neg hb, if_neg hb]
          exact ih _ (sound_of_value _ _ _)

/-- A sum in parentheses and the mixed fraction it stands for. -/
theorem outcome_sum (m : Machine) {text whole part : List Char} {ts ts' : List Token}
    (hs : ReadsAsSum text whole part)
    (ih : ∀ m : Machine, m.Sound false → m.outcome ts = m.outcome ts') :
    m.outcome (.mark .opening :: .number whole none :: .mark (.operator .add) ::
        .number part none :: .mark .closing :: ts) =
      m.outcome (.number text none :: ts') := by
  cases hv : m.afterValue with
  | true =>
    rw [outcome_number_of_value hv, outcome_cons, step, opening, if_pos hv]
    rfl
  | false =>
    rw [outcome_number hv, hs, outcome_cons, step, opening, if_neg (by simp [hv])]
    refine (outcome_number (m := { m with pending := .opening :: m.pending }) hv whole _).trans ?_
    cases (readNumber whole).result with
    | error e => rfl
    | ok a =>
      have hplus : (step ⟨⟨a, false⟩ :: m.values, .opening :: m.pending, true⟩
          (.mark (.operator .add))).result = .ok ⟨⟨a, false⟩ :: m.values,
            .operation (.binary .add) :: .opening :: m.pending, false⟩ := rfl
      simp only [Except.bind]
      rw [outcome_cons, hplus]
      refine (outcome_number rfl part _).trans ?_
      cases (readNumber part).result with
      | error e => rfl
      | ok b =>
        have hclose : (step ⟨⟨b, false⟩ :: ⟨a, false⟩ :: m.values,
            .operation (.binary .add) :: .opening :: m.pending, true⟩ (.mark .closing)).result =
              .ok ⟨⟨a + b, false⟩ :: m.values, m.pending, true⟩ := rfl
        simp only [Except.bind, Except.map]
        rw [outcome_cons, hclose]
        exact ih _ (sound_of_value _ _ _)

/-- **Regrouping changes nothing in what the machine comes to.** -/
theorem outcome_of_regrouped {dividing : Bool} {ts ts' : List Token}
    (h : Regrouped dividing ts ts') {m : Machine} (hm : m.Sound dividing) :
    m.outcome ts = m.outcome ts' := by
  induction h generalizing m with
  | nil => rfl
  | keep t _ ih =>
    rw [outcome_cons, outcome_cons]
    cases hs : (m.step t).result with
    | error e => rfl
    | ok m' => exact ih (hm.step hs)
  | fraction hq hf _ ih => exact outcome_fraction hm hq hf fun m hm => ih hm
  | sum hs _ ih => exact outcome_sum m hs fun m hm => ih hm

end Machine

/-- **Regrouped formulas have the same result.** -/
theorem evaluate_of_regrouped {ts ts' : List Token} (h : Regrouped false ts ts') :
    (evaluate ts).result = (evaluate ts').result := by
  rw [result_evaluate, result_evaluate]
  exact Machine.outcome_of_regrouped h Machine.sound_initial

end Footrule
