import Footrule.Proofs.Grammar

/-!
# Parsing formulas

A parse reads tokens from left to right and keeps what it has read as parts of a tree: for every
parenthesis still open, and outside all of them, the sum and the product that wait for their right
operands and the signs before the next factor (`Level`), and the factor just completed, if the last
token completed one (`PartialParse`). No token is lost (`tokens_of_parse?`) and every tree is found
again from its tokens (`parse?_tokens`), so that a formula has one tree at most
(`Expression.tokens_injective`).
-/

namespace Footrule

/-- What is read of an expression before one of its factors. -/
structure Level where
  /-- The sum that the next term is added to or subtracted from. -/
  sum : Option (Expression Numeral × { o : Operator // o.rank = 1 })
  /-- The product that the next factor multiplies or divides. -/
  product : Option (Term Numeral × { o : Operator // o.rank = 2 })
  /-- The signs before the next factor, the last one first; `true` is a minus. -/
  signs : List Bool

namespace Level

/-- Nothing of an expression is read. -/
def empty : Level := ⟨none, none, []⟩

/-- A factor after the signs before it. -/
def signed : List Bool → Factor Numeral → Factor Numeral
  | [], u => u
  | true :: signs, u => signed signs (.negative u)
  | false :: signs, u => signed signs (.positive u)

/-- The term that a factor completes. -/
def term (l : Level) (u : Factor Numeral) : Term Numeral :=
  match l.product with
  | none => .factor (signed l.signs u)
  | some (t, o) => .binary t o.1 o.2 (signed l.signs u)

/-- The expression that a factor completes. -/
def expression (l : Level) (u : Factor Numeral) : Expression Numeral :=
  match l.sum with
  | none => .term (l.term u)
  | some (e, o) => .binary e o.1 o.2 (l.term u)

/-- An operator follows a factor. -/
def operator (l : Level) (u : Factor Numeral) (o : Operator) : Level :=
  if h : o.rank = 1 then ⟨some (l.expression u, ⟨o, h⟩), none, []⟩
  else ⟨l.sum, some (l.term u, ⟨o, Operator.rank_eq_two h⟩), []⟩

/-- A sign follows where a factor is due. -/
def sign (l : Level) (minus : Bool) : Level := { l with signs := minus :: l.signs }

end Level

/-- What is read of a formula: the expressions before open parentheses, innermost first. -/
structure PartialParse where
  outer : List Level
  level : Level
  /-- The factor that the last token completed. -/
  value : Option (Factor Numeral)

namespace PartialParse

/-- Nothing is read. -/
def initial : PartialParse := ⟨[], .empty, none⟩

/-- One more token, where the grammar allows it. -/
def step? : PartialParse → Token → Option PartialParse
  | ⟨outer, l, none⟩, .number text name => some ⟨outer, l, some (.number ⟨text, name⟩)⟩
  | ⟨outer, l, none⟩, .mark .opening => some ⟨l :: outer, .empty, none⟩
  | ⟨outer, l, none⟩, .mark (.operator .add) => some ⟨outer, l.sign false, none⟩
  | ⟨outer, l, none⟩, .mark (.operator .sub) => some ⟨outer, l.sign true, none⟩
  | ⟨outer, l, some u⟩, .mark (.operator o) => some ⟨outer, l.operator u o, none⟩
  | ⟨l' :: outer, l, some u⟩, .mark .closing => some ⟨outer, l', some (.group (l.expression u))⟩
  | _, _ => none

/-- The tokens of a formula in turn. -/
def run? (p : PartialParse) (ts : List Token) : Option PartialParse := ts.foldlM step? p

/-- The whole formula, if its last token can end it. -/
def finish? : PartialParse → Option (Expression Numeral)
  | ⟨[], l, some u⟩ => some (l.expression u)
  | _ => none

@[simp] theorem run?_nil (p : PartialParse) : p.run? [] = some p := rfl

@[simp] theorem run?_cons (p : PartialParse) (t : Token) (ts : List Token) :
    p.run? (t :: ts) = (p.step? t).bind fun p => p.run? ts := rfl

theorem run?_append (p : PartialParse) (ts ts' : List Token) :
    p.run? (ts ++ ts') = (p.run? ts).bind fun p => p.run? ts' := by
  rw [run?, List.foldlM_append]
  rfl

end PartialParse

/-- The tree of a formula. -/
def parse? (ts : List Token) : Option (Expression Numeral) :=
  (PartialParse.initial.run? ts).bind PartialParse.finish?

/-! ## No token is lost -/

namespace Level

/-- The token of a sign. -/
def signToken (minus : Bool) : Token := .mark (.operator (if minus then .sub else .add))

/-- The tokens of what is read of an expression. -/
def tokens (l : Level) : List Token :=
  (match l.sum with
    | none => []
    | some (e, o) => e.tokens ++ [.mark (.operator o.1)]) ++
  (match l.product with
    | none => []
    | some (t, o) => t.tokens ++ [.mark (.operator o.1)]) ++
  (l.signs.map signToken).reverse

theorem tokens_signed (signs : List Bool) (u : Factor Numeral) :
    (signed signs u).tokens = (signs.map signToken).reverse ++ u.tokens := by
  induction signs generalizing u with
  | nil => rfl
  | cons minus signs ih =>
    cases minus <;> rw [signed, ih, Factor.tokens] <;> simp [signToken]

/-- The expression that a factor completes is written before it and with it. -/
theorem tokens_expression (l : Level) (u : Factor Numeral) :
    (l.expression u).tokens = l.tokens ++ u.tokens := by
  obtain ⟨_ | ⟨e, o⟩, _ | ⟨t, o'⟩, signs⟩ := l <;>
    simp [expression, term, tokens, Expression.tokens, Term.tokens, tokens_signed]

theorem tokens_operator (l : Level) (u : Factor Numeral) (o : Operator) :
    (l.operator u o).tokens = l.tokens ++ u.tokens ++ [.mark (.operator o)] := by
  unfold operator
  split
  · rw [← tokens_expression]
    simp [tokens]
  · obtain ⟨_ | ⟨e, o'⟩, _ | ⟨t, o''⟩, signs⟩ := l <;>
      simp [tokens, term, Term.tokens, tokens_signed]

theorem tokens_sign (l : Level) (minus : Bool) :
    (l.sign minus).tokens = l.tokens ++ [signToken minus] := by
  simp [sign, tokens]

end Level

namespace PartialParse

/-- The tokens before an open parenthesis, and the parenthesis. -/
def outerTokens : List Level → List Token
  | [] => []
  | l :: outer => outerTokens outer ++ l.tokens ++ [.mark .opening]

/-- The tokens of what is read of a formula. -/
def tokens (p : PartialParse) : List Token :=
  outerTokens p.outer ++ p.level.tokens ++ (p.value.map Factor.tokens).getD []

theorem tokens_step? {p p' : PartialParse} {t : Token} (h : p.step? t = some p') :
    p'.tokens = p.tokens ++ [t] := by
  unfold step? at h
  split at h <;> cases h
  case h_1 => simp [tokens, Factor.tokens, Numeral.token]
  case h_2 => simp [tokens, outerTokens, Level.empty, Level.tokens]
  case h_3 => simp [tokens, Level.tokens_sign, Level.signToken]
  case h_4 => simp [tokens, Level.tokens_sign, Level.signToken]
  case h_5 => simp [tokens, Level.tokens_operator]
  case h_6 => simp [tokens, outerTokens, Factor.tokens, Level.tokens_expression]

theorem tokens_run? {p p' : PartialParse} {ts : List Token} (h : p.run? ts = some p') :
    p'.tokens = p.tokens ++ ts := by
  induction ts generalizing p with
  | nil =>
    cases h
    rw [List.append_nil]
  | cons t ts ih =>
    rw [run?_cons] at h
    obtain ⟨q, hq, hts⟩ := Option.bind_eq_some_iff.1 h
    rw [ih hts, tokens_step? hq, List.append_assoc, List.singleton_append]

theorem tokens_finish? {p : PartialParse} {e : Expression Numeral} (h : p.finish? = some e) :
    e.tokens = p.tokens := by
  unfold finish? at h
  split at h <;> cases h
  simp [tokens, outerTokens, Level.tokens_expression]

end PartialParse

/-- A tree that is found is written with the tokens it is found from. -/
theorem tokens_of_parse? {ts : List Token} {e : Expression Numeral} (h : parse? ts = some e) :
    e.tokens = ts := by
  obtain ⟨p, hp, he⟩ := Option.bind_eq_some_iff.1 h
  rw [PartialParse.tokens_finish? he, PartialParse.tokens_run? hp]
  rfl

/-! ## Every tree is found -/

namespace Level

theorem signed_append (signs signs' : List Bool) (u : Factor Numeral) :
    signed (signs ++ signs') u = signed signs' (signed signs u) := by
  induction signs generalizing u with
  | nil => rfl
  | cons minus signs ih => cases minus <;> exact ih _

theorem operator_of_additive (l : Level) (u : Factor Numeral) {o : Operator} (h : o.rank = 1) :
    l.operator u o = ⟨some (l.expression u, ⟨o, h⟩), none, []⟩ :=
  dif_pos h

theorem operator_of_multiplicative (l : Level) (u : Factor Numeral) {o : Operator}
    (h : o.rank = 2) : l.operator u o = ⟨l.sum, some (l.term u, ⟨o, h⟩), []⟩ :=
  dif_neg (by omega)

end Level

namespace PartialParse

@[simp] theorem step?_operator (outer : List Level) (l : Level) (u : Factor Numeral)
    (o : Operator) :
    step? ⟨outer, l, some u⟩ (.mark (.operator o)) = some ⟨outer, l.operator u o, none⟩ := by
  cases o <;> rfl

/-- After its tokens, the factor is complete but for the signs it begins with. -/
def ReadsFactor (u : Factor Numeral) : Prop :=
  ∀ (outer : List Level) (l : Level), ∃ signs u₀, Level.signed signs u₀ = u ∧
    run? ⟨outer, l, none⟩ u.tokens = some ⟨outer, { l with signs := signs ++ l.signs }, some u₀⟩

/-- After its tokens, read from the beginning of a term, the term is complete. -/
def ReadsTerm (t : Term Numeral) : Prop :=
  ∀ (outer : List Level) (l : Level), l.product = none → l.signs = [] →
    ∃ l' u₀, l'.term u₀ = t ∧ l'.sum = l.sum ∧
      run? ⟨outer, l, none⟩ t.tokens = some ⟨outer, l', some u₀⟩

/-- After its tokens, read from the beginning of an expression, the expression is complete. -/
def ReadsExpression (e : Expression Numeral) : Prop :=
  ∀ outer : List Level, ∃ l' u₀, l'.expression u₀ = e ∧
    run? ⟨outer, .empty, none⟩ e.tokens = some ⟨outer, l', some u₀⟩

theorem readsFactor_number (n : Numeral) : ReadsFactor (.number n) :=
  fun _ _ => ⟨[], .number n, rfl, rfl⟩

/-- The sign of a factor is the last one to be applied to it. -/
theorem readsFactor_sign {u v : Factor Numeral} (minus : Bool) (h : ReadsFactor u)
    (hv : v.tokens = Level.signToken minus :: u.tokens)
    (hs : ∀ signs u₀, Level.signed signs u₀ = u → Level.signed (signs ++ [minus]) u₀ = v) :
    ReadsFactor v := by
  intro outer l
  obtain ⟨signs, u₀, hu, hr⟩ := h outer (l.sign minus)
  refine ⟨signs ++ [minus], u₀, hs signs u₀ hu, ?_⟩
  have hstep : step? ⟨outer, l, none⟩ (Level.signToken minus) =
      some ⟨outer, l.sign minus, none⟩ := by
    cases minus <;> rfl
  rw [hv, run?_cons, hstep, Option.bind_some, hr]
  simp [Level.sign]

theorem readsFactor_group {e : Expression Numeral} (h : ReadsExpression e) :
    ReadsFactor (.group e) := by
  intro outer l
  obtain ⟨l', u₀, he, hr⟩ := h (l :: outer)
  refine ⟨[], .group e, rfl, ?_⟩
  rw [Factor.tokens, List.cons_append, run?_cons, step?, Option.bind_some, run?_append, hr,
    Option.bind_some, run?_cons, step?, he]
  rfl

theorem readsTerm_factor {u : Factor Numeral} (h : ReadsFactor u) : ReadsTerm (.factor u) := by
  intro outer l hp hs
  obtain ⟨signs, u₀, hu, hr⟩ := h outer l
  refine ⟨{ l with signs := signs ++ l.signs }, u₀, ?_, rfl, hr⟩
  simp [Level.term, hp, hs, hu]

theorem readsTerm_binary {t : Term Numeral} {o : Operator} {u : Factor Numeral} (ho : o.rank = 2)
    (ht : ReadsTerm t) (hu : ReadsFactor u) : ReadsTerm (.binary t o ho u) := by
  intro outer l hp hs
  obtain ⟨l', u₀, rfl, hsum, hr⟩ := ht outer l hp hs
  have hl := Level.operator_of_multiplicative l' u₀ ho
  obtain ⟨signs, u₁, rfl, hr'⟩ := hu outer (l'.operator u₀ o)
  refine ⟨{ l'.operator u₀ o with signs := signs ++ (l'.operator u₀ o).signs }, u₁, ?_, ?_, ?_⟩
  · simp [Level.term, hl]
  · simp [hl, hsum]
  · rw [Term.tokens, run?_append, hr, Option.bind_some, run?_cons, step?_operator,
      Option.bind_some, hr']

theorem readsExpression_term {t : Term Numeral} (h : ReadsTerm t) : ReadsExpression (.term t) := by
  intro outer
  obtain ⟨l', u₀, rfl, hsum, hr⟩ := h outer .empty rfl rfl
  refine ⟨l', u₀, ?_, hr⟩
  rw [Level.expression, hsum]
  rfl

theorem readsExpression_binary {e : Expression Numeral} {o : Operator} {t : Term Numeral}
    (ho : o.rank = 1) (he : ReadsExpression e) (ht : ReadsTerm t) :
    ReadsExpression (.binary e o ho t) := by
  intro outer
  obtain ⟨l', u₀, rfl, hr⟩ := he outer
  have hl := Level.operator_of_additive l' u₀ ho
  obtain ⟨l'', u₁, rfl, hsum, hr'⟩ := ht outer (l'.operator u₀ o) (by rw [hl]) (by rw [hl])
  refine ⟨l'', u₁, ?_, ?_⟩
  · rw [Level.expression, hsum, hl]
  · rw [Expression.tokens, run?_append, hr, Option.bind_some, run?_cons, step?_operator,
      Option.bind_some, hr']

mutual

theorem readsExpression : ∀ e : Expression Numeral, ReadsExpression e
  | .term t => readsExpression_term (readsTerm t)
  | .binary l _ ho r => readsExpression_binary ho (readsExpression l) (readsTerm r)

theorem readsTerm : ∀ t : Term Numeral, ReadsTerm t
  | .factor u => readsTerm_factor (readsFactor u)
  | .binary l _ ho r => readsTerm_binary ho (readsTerm l) (readsFactor r)

theorem readsFactor : ∀ u : Factor Numeral, ReadsFactor u
  | .number n => readsFactor_number n
  | .negative u => readsFactor_sign true (readsFactor u) rfl fun signs u₀ h => by
      rw [Level.signed_append, h]; rfl
  | .positive u => readsFactor_sign false (readsFactor u) rfl fun signs u₀ h => by
      rw [Level.signed_append, h]; rfl
  | .group e => readsFactor_group (readsExpression e)

end

end PartialParse

/-- **Every tree is found from its tokens.** -/
theorem parse?_tokens (e : Expression Numeral) : parse? e.tokens = some e := by
  obtain ⟨l, u, he, hr⟩ := PartialParse.readsExpression e []
  rw [parse?, PartialParse.initial, hr, Option.bind_some, PartialParse.finish?, he]

/-- A tree is found exactly from the tokens it is written with. -/
theorem parse?_eq_some_iff {ts : List Token} {e : Expression Numeral} :
    parse? ts = some e ↔ e.tokens = ts :=
  ⟨tokens_of_parse?, fun h => h ▸ parse?_tokens e⟩

/-- A formula has one tree at most. -/
theorem Expression.tokens_injective : Function.Injective Expression.tokens := by
  intro e e' h
  have he := parse?_tokens e
  rw [h, parse?_tokens e'] at he
  exact (Option.some.inj he).symm

end Footrule
