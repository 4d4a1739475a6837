import Footrule.Proofs.Plain.Chains
import Footrule.Proofs.Plain.Modes
import Footrule.Proofs.Written.Value
import Mathlib.Algebra.BigOperators.Ring.List
import Mathlib.Algebra.Field.Rat
import Mathlib.Tactic.FieldSimp

/-!
# The value of a chain of divisions

A chain of divisions is done from left to right, after its links are joined
(`Chain.joinedQuotient`), in both modes alike. It fails exactly for a zero divisor. Its value is the
quotient of the chain as it is written exactly where no unsigned link directly after a signed one
changes a value, which is to say that each is one, or that the first number is zero
(`evaluateExpression_chain`).
-/

namespace Footrule

open Formula

/-! ## Values -/

/-- A number after its sign, if it has one. -/
def afterSign : Option Bool → Rat → Rat
  | some true, v => -v
  | _, v => v

theorem afterSign_eq_zero_iff (sign : Option Bool) (v : Rat) : afterSign sign v = 0 ↔ v = 0 := by
  rcases sign with _ | _ | _ <;> simp [afterSign]

/-- The number of a link without its sign. -/
def Link.number (l : Link) : Nat := Literal.digitsValue l.digits

/-- The number of a link. -/
def Link.value (l : Link) : Rat := afterSign l.sign l.number

/-- The divisor of a joined link. -/
def JoinedLink.value : JoinedLink → Rat
  | ⟨l, none⟩ => l.value
  | ⟨l, some l'⟩ => l.value / l'.number

/-- The number that a chain begins with. -/
def Chain.number (c : Chain) : Nat := Literal.digitsValue c.first

/-- The first number of a chain, divided by the others from left to right. -/
def Chain.quotient (c : Chain) : Rat := c.links.foldl (fun q l => q / l.value) c.number

/-- The first number of a chain, divided from left to right by its joined links. -/
def Chain.joinedQuotient (c : Chain) : Rat :=
  (joinedLinks c.links).foldl (fun q g => q / g.value) c.number

/-- The links of a joined link. -/
def JoinedLink.links (g : JoinedLink) : List Link := g.link :: g.den.toList

/-- Some number of a joined link is zero. -/
def JoinedLink.HasZero (g : JoinedLink) : Prop := ∃ l ∈ g.links, l.number = 0

/-- Joining keeps all links, in their order. -/
theorem flatMap_links_joinedLinks (ls : List Link) :
    (joinedLinks ls).flatMap JoinedLink.links = ls := by
  fun_induction joinedLinks ls with
  | case1 => rfl
  | case2 l => rfl
  | case3 l l' ls h ih => simp [JoinedLink.links, ih]
  | case4 l l' ls h ih => simp [JoinedLink.links, ih]

/-! ## The tree of a chain -/

section Tree

/-- A joined link as a divisor. -/
def JoinedLink.factor (g : JoinedLink) : Factor Numeral :=
  Level.signed g.link.sign.toList (.number ⟨g.literal.text, none⟩)

theorem Operator.rank_div : Operator.rank .div = 2 := rfl

/-- A term, divided by joined links. -/
def dividedBy (t : Term Numeral) (gs : List JoinedLink) : Term Numeral :=
  gs.foldl (fun t g => .binary t .div Operator.rank_div g.factor) t

theorem JoinedLink.tokens_factor (g : JoinedLink) :
    .mark (.operator .div) :: g.factor.tokens = g.tokens := by
  rw [factor, Level.tokens_signed, tokens]
  cases g.link.sign <;> rfl

theorem dividedBy_cons (t : Term Numeral) (g : JoinedLink) (gs : List JoinedLink) :
    dividedBy t (g :: gs) = dividedBy (.binary t .div Operator.rank_div g.factor) gs := rfl

theorem tokens_dividedBy (t : Term Numeral) (gs : List JoinedLink) :
    (dividedBy t gs).tokens = t.tokens ++ gs.flatMap JoinedLink.tokens := by
  induction gs generalizing t with
  | nil => exact (List.append_nil _).symm
  | cons g gs ih =>
    rw [dividedBy_cons, ih, Term.tokens, g.tokens_factor, List.flatMap_cons, List.append_assoc]

variable {t : Term Numeral} {q : Rat} {g : JoinedLink} {gs : List JoinedLink}

theorem JoinedLink.plain_literal (g : JoinedLink) : g.literal.Plain := by
  obtain ⟨l, _ | l'⟩ := g
  · exact l.plain
  · exact ⟨l.plain, l'.plain⟩

theorem signed_toList (sign : Option Bool) (v : Rat) :
    Quantity.signed sign.toList ⟨v, false⟩ = ⟨afterSign sign v, false⟩ := by
  rcases sign with _ | _ | _ <;> rfl

/-- A joined link is read as its divisor, if no denominator is zero. -/
theorem JoinedLink.result_eval_factor (g : JoinedLink) :
    g.factor.eval.result =
      orDivisionByZero (g.literal.value?.map fun v => ⟨afterSign g.link.sign v, false⟩) := by
  rw [factor, eval_signed, Factor.eval, Numeral.read, Traced.result_map, result_read_number,
    Literal.result_readNumber g.plain_literal]
  cases g.literal.value? with
  | none => rfl
  | some v => exact congrArg Except.ok (signed_toList _ v)

theorem JoinedLink.hasZero_whole {l : Link} : (⟨l, none⟩ : JoinedLink).HasZero ↔ l.number = 0 := by
  simp [HasZero, links]

theorem JoinedLink.hasZero_fraction {l l' : Link} :
    (⟨l, some l'⟩ : JoinedLink).HasZero ↔ l.number = 0 ∨ l'.number = 0 := by
  simp [HasZero, links]

/-- A joined link with a zero has no value, or is zero. -/
theorem JoinedLink.value?_of_hasZero (h : g.HasZero) :
    g.literal.value? = none ∨ g.literal.value? = some 0 := by
  obtain ⟨l, _ | l'⟩ := g
  · have hl : Literal.digitsValue l.digits = 0 := hasZero_whole.1 h
    exact .inr (by simp [literal, Literal.value?, hl])
  · by_cases hl' : Literal.digitsValue l'.digits = 0
    · exact .inl (by simp [literal, Literal.value?, Literal.quotientValue?, hl'])
    · have hl : Literal.digitsValue l.digits = 0 := (hasZero_fraction.1 h).resolve_right hl'
      exact .inr (by simp [literal, Literal.value?, Literal.quotientValue?, hl, hl'])

theorem JoinedLink.exists_value? (h : ¬ g.HasZero) :
    ∃ v ≠ 0, g.literal.value? = some v ∧ afterSign g.link.sign v = g.value := by
  obtain ⟨l, _ | l'⟩ := g
  · have hl : l.number ≠ 0 := mt hasZero_whole.2 h
    exact ⟨l.number, Nat.cast_ne_zero.2 hl, rfl, rfl⟩
  · obtain ⟨hl, hl'⟩ := not_or.1 (mt hasZero_fraction.2 h)
    refine ⟨l.number / l'.number, div_ne_zero (Nat.cast_ne_zero.2 hl) (Nat.cast_ne_zero.2 hl'),
      if_neg hl', ?_⟩
    rw [value, Link.value]
    rcases l.sign with _ | _ | _
    · rfl
    · rfl
    · exact (neg_div _ _).symm

/-- A division by a joined link is a division by its value, and fails if there is a zero in it. -/
theorem result_eval_binary (ht : t.eval.result = .ok ⟨q, false⟩) :
    (g.HasZero → (Term.binary t .div Operator.rank_div g.factor).eval.result =
      .error .divisionByZero) ∧
    (¬ g.HasZero → (Term.binary t .div Operator.rank_div g.factor).eval.result =
      .ok ⟨q / g.value, false⟩) := by
  have hbinary : (Term.binary t .div Operator.rank_div g.factor).eval.result =
      g.factor.eval.result.bind fun b => Quantity.combine .div ⟨q, false⟩ b := by
    rw [Term.eval, Traced.result_bind, ht, Except.bind, Traced.result_bind]
    rfl
  have hcombine (v : Rat) : Quantity.combine .div ⟨q, false⟩ ⟨v, false⟩ =
      if v = 0 then .error .divisionByZero else .ok ⟨q / v, false⟩ := by
    simp [Quantity.combine]
  rw [hbinary, g.result_eval_factor]
  refine ⟨fun h => ?_, fun h => ?_⟩
  · rcases JoinedLink.value?_of_hasZero h with hv | hv
    · rw [hv]
      rfl
    · rw [hv]
      exact (hcombine _).trans (if_pos ((afterSign_eq_zero_iff _ 0).2 rfl))
  · obtain ⟨v, hne, hv, hvalue⟩ := JoinedLink.exists_value? h
    rw [hv, ← hvalue]
    exact (hcombine _).trans (if_neg (mt (afterSign_eq_zero_iff _ v).1 hne))

/-- What fails is not divided. -/
theorem result_eval_dividedBy_of_error {e : CalcError} (gs : List JoinedLink)
    (ht : t.eval.result = .error e) :
    (dividedBy t gs).eval.result = .error e := by
  induction gs generalizing t with
  | nil => exact ht
  | cons g gs ih =>
    refine ih ?_
    rw [Term.eval, Traced.result_bind, ht]
    rfl

/-- **A term is divided by joined links from left to right, and not by zero.** -/
theorem result_eval_dividedBy (ht : t.eval.result = .ok ⟨q, false⟩) (gs : List JoinedLink) :
    ((∃ g ∈ gs, g.HasZero) → (dividedBy t gs).eval.result = .error .divisionByZero) ∧
    ((∀ g ∈ gs, ¬ g.HasZero) →
      (dividedBy t gs).eval.result = .ok ⟨gs.foldl (fun q g => q / g.value) q, false⟩) := by
  induction gs generalizing t q with
  | nil => exact ⟨fun ⟨g, hg, _⟩ => (List.not_mem_nil hg).elim, fun _ => ht⟩
  | cons g gs ih =>
    obtain ⟨hzero, hvalue⟩ := result_eval_binary (g := g) ht
    by_cases hg : g.HasZero
    · have hfail := result_eval_dividedBy_of_error gs (hzero hg)
      exact ⟨fun _ => hfail, fun h => absurd hg (h g List.mem_cons_self)⟩
    · obtain ⟨hfail, hok⟩ := ih (hvalue hg)
      refine ⟨fun ⟨g', hg', hz⟩ => hfail ⟨g', (List.mem_cons.1 hg').resolve_left ?_, hz⟩,
        fun h => hok fun g' hg' => h g' (List.mem_cons_of_mem g hg')⟩
      rintro rfl
      exact hg hz

end Tree

/-! ## Left to right, joined and as written -/

/-- The unsigned links directly after a signed one. -/
def absorbed : List Link → List Link
  | l :: l' :: ls =>
    if l.sign ≠ none ∧ l'.sign = none then l' :: absorbed (l' :: ls) else absorbed (l' :: ls)
  | _ => []

/-- The product of the numbers of links without their signs. -/
def numberProduct (ls : List Link) : Nat := (ls.map Link.number).prod

theorem absorbed_unsigned {l : Link} (hl : l.sign = none) (ls : List Link) :
    absorbed (l :: ls) = absorbed ls := by
  cases ls with
  | nil => rfl
  | cons l' ls => rw [absorbed, if_neg fun h => h.1 hl]

/-- The denominators of joined links are the unsigned links after signed ones. -/
theorem filterMap_den_joinedLinks (ls : List Link) :
    (joinedLinks ls).filterMap JoinedLink.den = absorbed ls := by
  fun_induction joinedLinks ls with
  | case1 => rfl
  | case2 l => rfl
  | case3 l l' ls h ih =>
    rw [absorbed, if_pos h, absorbed_unsigned h.2, ← ih]
    rfl
  | case4 l l' ls h ih =>
    rw [absorbed, if_neg h, ← ih]
    rfl

theorem foldl_div {α : Type} (f : α → Rat) (q : Rat) (xs : List α) :
    xs.foldl (fun q x => q / f x) q = q / (xs.map f).prod := by
  induction xs generalizing q with
  | nil => exact (div_one q).symm
  | cons x xs ih => rw [List.foldl_cons, ih, List.map_cons, List.prod_cons, div_div]

/-- A denominator divides a divisor of the chain, instead of being one. -/
theorem prod_value_links {ls : List Link} (h : ∀ l ∈ ls, l.number ≠ 0) :
    (ls.map Link.value).prod =
      ((joinedLinks ls).map JoinedLink.value).prod * (numberProduct (absorbed ls) : Rat) ^ 2 := by
  rw [← filterMap_den_joinedLinks]
  fun_induction joinedLinks ls with
  | case1 => simp [numberProduct]
  | case2 l => simp [numberProduct, JoinedLink.value]
  | case3 l l' ls hsign ih =>
    have hne : (l'.number : Rat) ≠ 0 := Nat.cast_ne_zero.2 (h l' (by simp))
    have hvalue : l'.value = l'.number := by rw [Link.value, hsign.2]; rfl
    have hls := ih fun l hl => h l (by simp [hl])
    simp only [List.map_cons, List.prod_cons, hls, hvalue, JoinedLink.value, numberProduct,
      List.filterMap_cons, Nat.cast_mul]
    field_simp
  | case4 l l' ls hsign ih =>
    rw [List.map_cons, List.prod_cons, ih fun l' hl' => h l' (List.mem_cons_of_mem l hl')]
    exact (mul_assoc _ _ _).symm

theorem exists_hasZero_iff (ls : List Link) :
    (∃ g ∈ joinedLinks ls, g.HasZero) ↔ ∃ l ∈ ls, l.number = 0 := by
  conv => rhs; rw [← flatMap_links_joinedLinks ls]
  simp only [JoinedLink.HasZero, List.mem_flatMap]
  grind

theorem numberProduct_eq_one_iff {ls : List Link} :
    numberProduct ls = 1 ↔ ∀ l ∈ ls, l.number = 1 := by
  induction ls with
  | nil => simp [numberProduct]
  | cons l ls ih =>
    rw [List.forall_mem_cons, ← ih, numberProduct, List.map_cons, List.prod_cons]
    exact ⟨fun h => ⟨Nat.eq_one_of_mul_eq_one_right h, Nat.eq_one_of_mul_eq_one_left h⟩,
      fun ⟨hl, hls⟩ => by rw [hl, ← numberProduct, hls]⟩

namespace Chain

/-- **Joining the links of a chain keeps its quotient exactly where it joins only ones.** -/
theorem joinedQuotient_eq_quotient_iff {c : Chain} (h : ∀ l ∈ c.links, l.number ≠ 0) :
    c.joinedQuotient = c.quotient ↔ c.number = 0 ∨ ∀ l ∈ absorbed c.links, l.number = 1 := by
  have hlinks : (c.links.map Link.value).prod ≠ 0 := by
    refine List.prod_ne_zero fun hmem => ?_
    obtain ⟨l, hl, hvalue⟩ := List.mem_map.1 hmem
    exact h l hl (Nat.cast_eq_zero.1 ((afterSign_eq_zero_iff _ _).1 hvalue))
  have hsquare (n : Nat) : (n : Rat) ^ 2 = 1 ↔ n = 1 := by
    rw [← Nat.cast_pow, Nat.cast_eq_one, Nat.pow_eq_one]
    simp
  rw [joinedQuotient, quotient, foldl_div, foldl_div, ← numberProduct_eq_one_iff]
  rw [prod_value_links h] at hlinks ⊢
  obtain ⟨hjoined, -⟩ := mul_ne_zero_iff.1 hlinks
  rw [div_eq_div_iff hjoined hlinks, mul_eq_mul_left_iff, mul_eq_left₀ hjoined, hsquare,
    Nat.cast_eq_zero, or_comm]

/-- The tokens of a chain have the joined quotient, and fail for a zero divisor. -/
theorem result_evaluate (c : Chain) :
    ((∃ l ∈ c.links, l.number = 0) → (evaluate c.tokens).result = .error .divisionByZero) ∧
    ((∀ l ∈ c.links, l.number ≠ 0) →
      (evaluate c.tokens).result = .ok ⟨c.joinedQuotient, false⟩) := by
  have hfirst : (Term.factor (.number ⟨c.first, none⟩)).eval.result = .ok ⟨c.number, false⟩ := by
    have hread := Literal.result_readNumber (l := .whole c.first) c.plain
    rw [Literal.text] at hread
    rw [Term.eval, Factor.eval, Numeral.read, result_read_number, hread]
    rfl
  have htokens : c.tokens = (Expression.term
      (dividedBy (.factor (.number ⟨c.first, none⟩)) (joinedLinks c.links))).tokens := by
    rw [Expression.tokens, tokens_dividedBy]
    rfl
  rw [htokens, result_evaluate_tokens, Expression.eval]
  obtain ⟨hzero, hvalue⟩ := result_eval_dividedBy hfirst (joinedLinks c.links)
  rw [exists_hasZero_iff] at hzero
  refine ⟨hzero, fun h => hvalue fun g hg hz => ?_⟩
  obtain ⟨l, hl, hl'⟩ := (exists_hasZero_iff c.links).1 ⟨g, hg, hz⟩
  exact h l hl hl'

/-! ### The text of a chain -/

theorem not_typographic_link (l : Link) : ∀ d ∈ l.text, d ∉ typographicSigns := by
  have hsign : ∀ d ∈ signText l.sign, d ∉ typographicSigns := by
    rcases l.sign with _ | _ | _ <;> decide
  rw [Link.text]
  refine List.forall_mem_append.2 ⟨not_typographic_of_blank l.blank_before,
    List.forall_mem_cons.2 ⟨by decide, List.forall_mem_append.2
      ⟨not_typographic_of_blank l.blank_after, List.forall_mem_append.2 ⟨hsign, ?_⟩⟩⟩⟩
  exact PlainRun.not_typographic l.plain.2

theorem head_text (c : Chain) : ∀ d ∈ c.text.head?, isBlank d = false :=
  Literal.isBlank_head_run c.plain.digits _

theorem getLast_linksText (run : List Char) (hr : DigitRun run) (ls : List Link) :
    ∀ d ∈ (run ++ linksText ls).getLast?, isDigit d = true := by
  induction ls generalizing run with
  | nil =>
    intro d hd
    rw [linksText, List.flatMap_nil, List.append_nil] at hd
    exact hr.2 d (List.mem_of_getLast? hd)
  | cons l ls ih =>
    have hne : l.digits ++ linksText ls ≠ [] := fun h =>
      l.plain.1 (List.append_eq_nil_iff.1 h).1
    have htext : run ++ linksText (l :: ls) =
        (run ++ (l.before ++ '/' :: (l.after ++ signText l.sign))) ++
          (l.digits ++ linksText ls) := by
      simp [linksText_cons, l.text_append]
    rw [htext, List.getLast?_append_of_ne_nil _ hne]
    exact ih l.digits l.plain.digits

theorem joined_text (c : Chain) : joined c.text = joinFractions c.text := by
  have htrim : trim c.text = c.text := trim_eq_self c.head_text fun d hd =>
    isBlank_eq_false_of_isDigit (getLast_linksText c.first c.plain.digits c.links d hd)
  have hplain : plainSigns c.text = c.text := plainSigns_of_forall <|
    List.forall_mem_append.2 ⟨PlainRun.not_typographic c.plain.2,
      List.forall_mem_flatMap.2 fun l _ => not_typographic_link l⟩
  rw [joined, htrim, hplain]

/-- **In both modes a chain is evaluated as its tokens.** -/
theorem result_evaluateExpression (mode : Mode) (u : OutputUnit) (c : Chain) :
    ((∃ l ∈ c.links, l.number = 0) →
      (evaluateExpression mode u c.text).result = .error .divisionByZero) ∧
    ((∀ l ∈ c.links, l.number ≠ 0) →
      (evaluateExpression mode u c.text).result = .ok ⟨c.joinedQuotient, false⟩) := by
  obtain ⟨hzero, hvalue⟩ := c.result_evaluate
  cases mode with
  | basic =>
    obtain ⟨ts, hts, hgroup⟩ := exists_read reader_basicReading c
    rw [← joined_text] at hts
    rw [result_basic_of_reading hts, evaluate_of_regrouped hgroup]
    exact ⟨hzero, hvalue⟩
  | advanced =>
    obtain ⟨ts, hts, hgroup⟩ := exists_read reader_reading c
    rw [← joined_text] at hts
    rw [result_advanced_of_reading hts, evaluate_of_regrouped hgroup]
    refine ⟨fun h => ?_, fun h => ?_⟩
    · rw [hzero h]
      rfl
    · rw [hvalue h]
      rfl

end Chain

/--
**A chain of divisions, as far as it is done from left to right.** In both modes a chain fails, by a
division by zero, exactly where one of the numbers that are divided by is zero, and otherwise its
value is the joined quotient. This is the quotient of the chain as it is written exactly where the
first number is zero or every unsigned divisor directly after a signed one is one.
-/
theorem evaluateExpression_chain (mode : Mode) (u : OutputUnit) (c : Chain) :
    ((evaluateExpression mode u c.text).result = .error .divisionByZero ↔
      ∃ l ∈ c.links, l.number = 0) ∧
    ((evaluateExpression mode u c.text).result = .ok ⟨c.joinedQuotient, false⟩ ↔
      ∀ l ∈ c.links, l.number ≠ 0) ∧
    ((evaluateExpression mode u c.text).result = .ok ⟨c.quotient, false⟩ ↔
      (∀ l ∈ c.links, l.number ≠ 0) ∧ (c.number = 0 ∨ ∀ l ∈ absorbed c.links, l.number = 1)) := by
  obtain ⟨hzero, hvalue⟩ := c.result_evaluateExpression mode u
  by_cases h : ∃ l ∈ c.links, l.number = 0
  · have hsome : ¬ ∀ l ∈ c.links, l.number ≠ 0 := fun hne =>
      h.elim fun l hl => hne l hl.1 hl.2
    rw [hzero h]
    exact ⟨iff_of_true rfl h, iff_of_false nofun hsome, iff_of_false nofun fun hne => hsome hne.1⟩
  · have hne : ∀ l ∈ c.links, l.number ≠ 0 := fun l hl hz => h ⟨l, hl, hz⟩
    rw [hvalue hne, ← Chain.joinedQuotient_eq_quotient_iff hne]
    refine ⟨iff_of_false nofun h, iff_of_true rfl hne, ?_⟩
    simp only [Except.ok.injEq, Quantity.mk.injEq, and_true]
    exact (and_iff_right hne).symm

/-- Six is divided by minus four and then by two, but minus four is divided by two first. -/
theorem exists_chain_regrouped :
    ∃ c : Chain, c.text = "6 / -4 / 2".toList ∧ c.quotient = -3 / 4 ∧
      (evaluateExpression .basic .feetInches c.text).result = .ok ⟨-3, false⟩ ∧
      (evaluateExpression .advanced .feetInches c.text).result = .ok ⟨-3, false⟩ := by
  refine ⟨⟨['6'], [⟨[' '], [' '], some true, ['4'], blank_space, blank_space, by decide⟩,
    ⟨[' '], [' '], none, ['2'], blank_space, blank_space, by decide⟩], by decide⟩, rfl, ?_⟩
  refine ⟨?_, ?_, ?_⟩ <;> decide +kernel

end Footrule
