import Footrule.Proofs.Exact.Numbers
import Footrule.Proofs.Exact.Printed
import Footrule.Proofs.Preparation.Grouping

/-!
# The numbers found are the numbers read

A formula is cut into numbers by the digits of all decimal systems, and numbers are read by the
digits `0` to `9` alone. A number that is found is read, or has denominator zero, if all its digits
are ASCII digits (`Literal.Digital.result_readNumber`), and is refused if not
(`result_readNumber_of_not_ascii`). The preparation keeps all digits (`asciiDigits_formula`), and
every number of a formula is read when it is evaluated. So an expression with another digit has no
value, and one without is never refused for a number (`numbers_agree`).
-/

namespace Footrule

open Formula Traced

/-! ## Reading the numbers found -/

/-- The literal is a fraction or a mixed fraction with denominator zero. -/
def Literal.HasZeroDenominator : Literal → Prop
  | fraction _ den => digitsValue den = 0
  | mixed _ _ _ den => digitsValue den = 0
  | _ => False

/-- A literal has no value exactly if its denominator is zero. -/
theorem Literal.value?_eq_none_iff (l : Literal) : l.value? = none ↔ l.HasZeroDenominator := by
  cases l with
  | whole run => simp [value?, HasZeroDenominator]
  | decimal run decimals => simp [value?, HasZeroDenominator]
  | fraction num den => simp [value?, quotientValue?, HasZeroDenominator]
  | mixed run gap num den => simp [value?, quotientValue?, HasZeroDenominator]

/-- **A number in ASCII digits is read**, or is a division by zero. -/
theorem Literal.Digital.result_readNumber {l : Literal} (hl : l.Digital)
    (ha : AsciiDigits l.text) : (readNumber l.text).result = orDivisionByZero l.value? :=
  Literal.result_readNumber (hl.plain ha)

/-- What denotes a number has no other digits than ASCII digits. -/
theorem Denotes.asciiDigits {cs : List Char} {v? : Option Rat} (h : Denotes cs v?) :
    AsciiDigits cs := by
  have hnil : AsciiDigits [] := List.forall_mem_nil _
  have hrun {run : List Char} (hr : PlainRun run) : AsciiDigits run := fun c hc _ => hr.2 c hc
  have hgap {gap : List Char} (hg : ∀ c ∈ gap, isBlank c = true) : AsciiDigits gap := by
    intro c hc hd
    rw [isDigit_eq_false_of_isBlank (hg c hc)] at hd
    cases hd
  have happend {cs k : List Char} (h : AsciiDigits cs) (h' : AsciiDigits k) :
      AsciiDigits (cs ++ k) := List.forall_mem_append.2 ⟨h, h'⟩
  have hcons {c : Char} {k : List Char} (hc : isDigit c = false) (h : AsciiDigits k) :
      AsciiDigits (c :: k) :=
    List.forall_mem_cons.2 ⟨fun hd => absurd hd (by simp [hc]), h⟩
  cases h with
  | empty => exact hnil
  | point => exact hcons (by decide) hnil
  | whole hr => exact hrun hr
  | wholePoint hr => exact happend (hrun hr) (hcons (by decide) hnil)
  | decimal hr hd => exact happend (hrun hr) (hcons (by decide) (hrun hd))
  | decimals hd => exact hcons (by decide) (hrun hd)
  | fraction hn hg hg' hd =>
    exact happend (happend (hrun hn) (hgap hg)) (hcons (by decide) (happend (hgap hg') (hrun hd)))
  | mixed hr hg hn hd =>
    exact happend (happend (happend (hrun hr) (hgap hg.2)) (hrun hn)) (hcons (by decide) (hrun hd))

/-- **A number with another digit is refused.** -/
theorem result_readNumber_of_not_ascii {text : List Char} (h : ¬ AsciiDigits text) :
    (readNumber text).result = .error .invalidNumber := by
  refine result_readNumber_eq_invalid_iff.2 fun v? hv => h fun c hc hd => ?_
  have htrim : c ∈ trim text := by
    have hb : isBlank c = false := isBlank_eq_false_of_isDigit hd
    have hcount := (Thinned.trim text).count hb
    exact List.count_pos_iff.1 (hcount ▸ List.count_pos_iff.2 hc)
  exact hv.asciiDigits c htrim hd

/-! ## The digits of a formula -/

/-- A digit is no blank and no sign of a sum, so it is found in what is left without them. -/
theorem mem_bare_iff {c : Char} (hd : isDigit c = true) (cs : List Char) : c ∈ bare cs ↔ c ∈ cs := by
  have hsign : c ∉ sumSigns := fun hs => by
    rw [(by decide : ∀ c ∈ sumSigns, isDigit c = false) c hs] at hd
    cases hd
  simp [bare, unblanked, isBlank_eq_false_of_isDigit hd, hsign]

theorem mem_plainSigns_iff {c : Char} (hd : isDigit c = true) (cs : List Char) :
    c ∈ plainSigns cs ↔ c ∈ cs := by
  have htypographic (c' : Char) (hs : c' ∈ typographicSigns) :
      isDigit c' = false ∧ isDigit (plainSign c') = false :=
    (by decide : ∀ c ∈ typographicSigns, isDigit c = false ∧ isDigit (plainSign c) = false) c' hs
  refine ⟨fun h => ?_, fun h => List.mem_map.2 ⟨c, h, ?_⟩⟩
  · obtain ⟨c', hc', rfl⟩ := List.mem_map.1 h
    by_cases hs : c' ∈ typographicSigns
    · rw [(htypographic c' hs).2] at hd
      cases hd
    · rwa [plainSign_eq_self hs]
  · refine plainSign_eq_self fun hs => ?_
    rw [(htypographic c hs).1] at hd
    cases hd

/-- **The formula of an expression has the digits of the expression.** -/
theorem asciiDigits_formula (mode : Mode) (cs : List Char) :
    AsciiDigits (finish mode (joinFractions (plainSigns (trim cs)))) ↔ AsciiDigits cs := by
  obtain ⟨thin, n, hthin, hgroup⟩ := grouped_formula mode cs
  have hmem (c : Char) (hd : isDigit c = true) :
      c ∈ finish mode (joinFractions (plainSigns (trim cs))) ↔ c ∈ cs := by
    rw [← mem_bare_iff hd, hgroup.bare, hthin.bare, mem_bare_iff hd, mem_plainSigns_iff hd]
  exact ⟨fun h c hc hd => h c ((hmem c hd).2 hc) hd, fun h c hc hd => h c ((hmem c hd).1 hc) hd⟩

/-! ## The numbers of a formula -/

section Tokens

variable {mode : Mode} {formula : List Char} {ts : List Token}

/-- The numbers that a formula is cut into are literals. -/
theorem exists_literal_of_mem (h : (tokenize mode formula).result = .ok ts) {text : List Char}
    {name : Option (List Char)} (ht : .number text name ∈ ts) :
    ∃ l : Literal, (l.Digital ∧ ∀ c ∈ l.text, c ∈ formula) ∧ l.text = text := by
  obtain ⟨-, rfl⟩ := accepted?_eq_some_iff.1 (result_tokenize_eq_ok_iff.1 h)
  refine number_mem_tokensOf (P := fun l _ => l.Digital ∧ ∀ c ∈ l.text, c ∈ formula)
    (fun num den ⟨hf, hmem⟩ => ?_) (fun l name hl => ?_) ht
  · obtain ⟨hnum, hden⟩ := List.forall_mem_append.1 hmem
    exact ⟨⟨hf.1, hnum⟩, hf.2, (List.forall_mem_cons.1 hden).2⟩
  · obtain ⟨hdigital, -, hmem⟩ := (cut_iff.2 rfl : Cut mode formula _).digital_mem hl
    exact ⟨hdigital, hmem⟩

/-- Every digit of a formula belongs to one of its numbers. -/
theorem exists_number_of_digit (h : (tokenize mode formula).result = .ok ts) {c : Char}
    (hc : c ∈ formula) (hd : isDigit c = true) :
    ∃ text name, .number text name ∈ ts ∧ c ∈ text := by
  obtain ⟨hstray, rfl⟩ := accepted?_eq_some_iff.1 (result_tokenize_eq_ok_iff.1 h)
  have hunblanked : c ∈ unblanked ((tokensOf false (lexemes mode formula)).flatMap Token.text) := by
    rw [unblanked_tokensOf hstray, flatMap_text_lexemes]
    exact List.mem_filter.2 ⟨hc, by simp [isBlank_eq_false_of_isDigit hd]⟩
  obtain ⟨t, ht, hct⟩ := List.mem_flatMap.1 (List.mem_of_mem_filter hunblanked)
  cases t with
  | mark m =>
    rw [List.mem_singleton.1 hct, m.sign_neither.1] at hd
    cases hd
  | number text name =>
    refine ⟨text, name, ht, (List.mem_append.1 hct).resolve_right fun hname => ?_⟩
    obtain ⟨l, hl, -⟩ := number_mem_tokensOf (P := fun _ name => IsUnitName mode name)
      (fun _ _ h => ⟨h, h⟩)
      (fun l name hl => ((cut_iff.2 rfl : Cut mode formula _).digital_mem hl).2.1) ht
    cases name with
    | none => cases hname
    | some letters =>
      rw [isDigit_eq_false_of_isAlpha (hl.2.2 c hname)] at hd
      cases hd

end Tokens

/-! ## Evaluating the numbers -/

/-- The computation does not fail for a text that is no number. -/
def Traced.NeverInvalid {α : Type} (x : Traced α) : Prop :=
  x.Meets (fun _ => True) (· ≠ .invalidNumber)

/-- The token is not a number that is refused. -/
def Token.Legible : Token → Prop
  | number text _ => (readNumber text).result ≠ .error .invalidNumber
  | mark _ => True

namespace Quantity

theorem neverInvalid_read {text : List Char} {name : Option (List Char)}
    (h : (Token.number text name).Legible) : (read text name).NeverInvalid := by
  have hnumber : (readNumber text).NeverInvalid := ⟨fun _ _ => trivial, fun e he hinv => h (hinv ▸ he)⟩
  refine hnumber.bind fun v _ => ?_
  cases name with
  | none => exact meets_pure trivial
  | some name =>
    have hunit : (ofExcept (LengthUnit.ofName name)).NeverInvalid := by
      refine ⟨fun _ _ => trivial, fun e he => ?_⟩
      rw [result_ofExcept, LengthUnit.ofName] at he
      split at he
      · cases he
      · cases he
        exact CalcError.noConfusion
    exact hunit.bind fun _ _ => (meets_note _).bind fun _ _ => meets_pure trivial

/-- An operation fails for the units or for a division by zero. -/
theorem combine_ne_invalid (o : Operator) (l r : Quantity) :
    combine o l r ≠ .error .invalidNumber := by
  intro h
  cases o <;> simp only [combine] at h <;> split at h
  case div.isFalse => split at h <;> cases h
  all_goals cases h

theorem neverInvalid_operate (o : Operator) (l r : Quantity) : (operate o l r).NeverInvalid :=
  (meets_note _).bind fun _ _ =>
    ⟨fun _ _ => trivial, fun _ he hinv => combine_ne_invalid o l r (hinv ▸ he)⟩

theorem neverInvalid_convert (u : OutputUnit) (q : Quantity) : (q.convert u).NeverInvalid := by
  rw [convert]
  split
  · exact (meets_note _).bind fun _ _ => meets_pure trivial
  · exact meets_pure trivial

end Quantity

theorem neverInvalid_settle (rank : Nat) (pending : List Pending) (values : List Quantity) :
    (settle rank pending values).NeverInvalid := by
  induction pending generalizing values with
  | nil => exact meets_pure trivial
  | cons p pending ih =>
    cases p with
    | opening => exact meets_pure trivial
    | operation o =>
      rw [settle]
      split
      · have happly : (o.apply values).NeverInvalid := by
          unfold Operation.apply
          split
          · exact meets_pure trivial
          · exact (Quantity.neverInvalid_operate _ _ _).bind fun _ _ => meets_pure trivial
          · exact meets_fail CalcError.noConfusion
        exact happly.bind fun values _ => ih values
      · exact meets_pure trivial

namespace Machine

/-- **A step is refused for a number only if the number is.** -/
theorem neverInvalid_step (m : Machine) {t : Token} (ht : t.Legible) :
    (m.step t).NeverInvalid := by
  obtain ⟨values, pending, afterValue⟩ := m
  cases t with
  | number text name =>
    cases afterValue with
    | true => exact meets_fail CalcError.noConfusion
    | false => exact (Quantity.neverInvalid_read ht).bind fun _ _ => meets_pure trivial
  | mark mark =>
    cases mark with
    | opening =>
      cases afterValue with
      | true => exact meets_fail CalcError.noConfusion
      | false => exact meets_pure trivial
    | closing =>
      cases afterValue with
      | false => exact meets_fail CalcError.noConfusion
      | true =>
        rw [step_closing_of_value]
        refine (neverInvalid_settle 0 pending values).bind fun settled _ => ?_
        unfold pop
        split
        · exact meets_pure trivial
        · exact meets_fail CalcError.noConfusion
    | operator o =>
      cases afterValue with
      | false =>
        cases o with
        | add => exact meets_pure trivial
        | sub => exact meets_pure trivial
        | mul => exact meets_fail CalcError.noConfusion
        | div => exact meets_fail CalcError.noConfusion
      | true =>
        rw [step_operator_of_value]
        exact (neverInvalid_settle o.rank pending values).bind fun _ _ => meets_pure trivial

theorem neverInvalid_run (m : Machine) {ts : List Token} (hts : ∀ t ∈ ts, t.Legible) :
    (m.run ts).NeverInvalid := by
  induction ts generalizing m with
  | nil => exact meets_pure trivial
  | cons t ts ih =>
    obtain ⟨ht, hts⟩ := List.forall_mem_cons.1 hts
    simp only [run, List.foldlM_cons]
    exact (m.neverInvalid_step ht).bind fun m _ => ih m hts

theorem neverInvalid_finish (m : Machine) : m.finish.NeverInvalid := by
  rw [finish_eq]
  refine (neverInvalid_settle 0 m.pending m.values).bind fun settled _ => ?_
  unfold conclude
  split
  · exact meets_pure trivial
  all_goals exact meets_fail CalcError.noConfusion

/-- A number that is refused is met on every way through the tokens, unless one fails before. -/
theorem fails_run {ts : List Token} {text : List Char} {name : Option (List Char)}
    (ht : .number text name ∈ ts) (hread : (readNumber text).result = .error .invalidNumber)
    (m : Machine) : (m.run ts).Fails := by
  have hstep (m : Machine) : (m.step (.number text name)).Fails := by
    rw [step, number]
    split
    · exact ⟨_, rfl⟩
    · have hnumber : (readNumber text).Fails := ⟨_, hread⟩
      exact (hnumber.bind _).bind _
  induction ts generalizing m with
  | nil => cases ht
  | cons t ts ih =>
    simp only [run, List.foldlM_cons]
    rcases List.mem_cons.1 ht with rfl | ht
    · exact (hstep m).bind _
    · exact fails_bind fun m => ih ht m

end Machine

theorem neverInvalid_evaluate {ts : List Token} (hts : ∀ t ∈ ts, t.Legible) :
    (evaluate ts).NeverInvalid := by
  refine (Machine.initial.neverInvalid_run hts).bind fun m _ => ?_
  split
  · exact meets_fail CalcError.noConfusion
  · exact m.neverInvalid_finish.bind fun _ _ => (meets_note _).bind fun _ _ => meets_pure trivial

/-! ## Expressions -/

/-- All numbers of a formula are legible if its digits are ASCII digits. -/
theorem legible_of_asciiDigits {mode : Mode} {formula : List Char} (ha : AsciiDigits formula)
    {ts : List Token} (h : (tokenize mode formula).result = .ok ts) : ∀ t ∈ ts, t.Legible := by
  intro t ht
  cases t with
  | mark m => trivial
  | number text name =>
    obtain ⟨l, ⟨hl, hmem⟩, rfl⟩ := exists_literal_of_mem h ht
    rw [Token.Legible, hl.result_readNumber fun c hc => ha c (hmem c hc)]
    exact orDivisionByZero_ne_invalid _

/-- **An expression in ASCII digits is never refused for a number.** -/
theorem neverInvalid_evaluateExpression (mode : Mode) (u : OutputUnit) {cs : List Char}
    (ha : AsciiDigits cs) : (evaluateExpression mode u cs).NeverInvalid := by
  have hprepare : (prepare mode cs).Meets AsciiDigits (· ≠ .invalidNumber) := by
    refine ⟨fun formula h => ?_, fun e h => by cases h⟩
    cases h
    exact (asciiDigits_formula mode cs).2 ha
  have htokenize (mode : Mode) {formula : List Char} (hf : AsciiDigits formula) :
      (tokenize mode formula).Meets (fun ts => ∀ t ∈ ts, t.Legible) (· ≠ .invalidNumber) := by
    refine ⟨fun ts h => legible_of_asciiDigits hf h, fun e h => ?_⟩
    obtain ⟨g, -, rfl⟩ := result_tokenize_eq_error_iff.1 h
    exact CalcError.noConfusion
  refine hprepare.bind fun formula hf => ?_
  cases mode with
  | basic =>
    exact (meets_note _).bind fun _ _ => (htokenize _ hf).bind fun ts hts => neverInvalid_evaluate hts
  | advanced =>
    exact (htokenize _ hf).bind fun ts hts =>
      (neverInvalid_evaluate hts).bind fun q _ => q.neverInvalid_convert u

/-- **An expression with another digit has no value.** -/
theorem fails_evaluateExpression (mode : Mode) (u : OutputUnit) {cs : List Char}
    (ha : ¬ AsciiDigits cs) : (evaluateExpression mode u cs).Fails := by
  have hevaluate {formula : List Char} (hf : ¬ AsciiDigits formula) {ts : List Token}
      (h : (tokenize mode formula).result = .ok ts) : (evaluate ts).Fails := by
    obtain ⟨c, hc, hd, hascii⟩ : ∃ c ∈ formula, isDigit c = true ∧ c.isDigit ≠ true := by
      simpa [AsciiDigits] using hf
    obtain ⟨text, name, ht, hct⟩ := exists_number_of_digit h hc hd
    have hread := result_readNumber_of_not_ascii fun htext => hascii (htext c hct hd)
    exact (Machine.fails_run ht hread _).bind _
  refine fails_bind_of_ok fun formula hprepare => ?_
  cases hprepare
  have hf := mt (asciiDigits_formula mode cs).1 ha
  cases mode with
  | basic => exact fails_bind fun _ => fails_bind_of_ok fun ts hts => hevaluate hf hts
  | advanced => exact fails_bind_of_ok fun ts hts => (hevaluate hf hts).bind _

/-- There is one error that says so. -/
theorem CalcError.message_eq_invalidNumber_iff (e : CalcError) :
    e.message = "Invalid number" ↔ e = .invalidNumber := by
  refine ⟨fun h => ?_, fun h => h ▸ rfl⟩
  have happend {s : String} (hs : ¬ s.toList <+: "Invalid number".toList) (t : String) :
      s ++ t ≠ "Invalid number" :=
    fun h => hs ⟨t.toList, by rw [← h, String.toList_append]⟩
  cases e with
  | invalidNumber => rfl
  | unexpected stretch =>
    have hassoc : "Unexpected: '" ++ stretch ++ "'" = "Unexpected: '" ++ (stretch ++ "'") :=
      String.append_assoc
    exact (happend (by decide) _ (hassoc.symm.trans h)).elim
  | notFinite number => cases number <;> exact absurd h (by decide)
  | unknownUnit _ | unknownMode _ | internal _ => exact (happend (by decide) _ h).elim
  | _ => exact absurd h (by decide)

/--
**The scanner and the number reader agree.** Every number that a formula is cut into is read, or is
a fraction with denominator zero, if its digits are ASCII digits; if not, it is no valid number. So
an expression with a digit that is none in ASCII has no value in either mode, and no expression
whose digits are all in ASCII is ever refused for a number that is not valid.
-/
theorem numbers_agree (mode : Mode) :
    (∀ formula ts, (tokenize mode formula).result = .ok ts → ∀ text name, .number text name ∈ ts →
      (AsciiDigits text →
        ((∃ v, (readNumber text).result = .ok v) ∨
          (readNumber text).result = .error .divisionByZero) ∧
        ((readNumber text).result = .error .divisionByZero ↔
          ∃ l : Literal, l.Plain ∧ l.text = text ∧ l.HasZeroDenominator)) ∧
      (¬ AsciiDigits text → (readNumber text).result = .error .invalidNumber)) ∧
    (∀ u expression, ¬ AsciiDigits expression → (evaluateExpression mode u expression).Fails) ∧
    (∀ u expression, AsciiDigits expression → ∀ e,
      (evaluateExpression mode u expression).result = .error e → e.message ≠ "Invalid number") ∧
    CalcError.invalidNumber.message = "Invalid number" := by
  refine ⟨fun formula ts h text name ht => ⟨fun ha => ?_, result_readNumber_of_not_ascii⟩,
    fun u cs => fails_evaluateExpression mode u, fun u cs ha e he => ?_, rfl⟩
  · obtain ⟨l, ⟨hl, -⟩, rfl⟩ := exists_literal_of_mem h ht
    have hread := hl.result_readNumber ha
    refine ⟨?_, fun hzero => ⟨l, hl.plain ha, rfl, ?_⟩, ?_⟩
    · cases hv : l.value? with
      | some v => exact .inl ⟨v, by rw [hread, hv]; rfl⟩
      | none => exact .inr (by rw [hread, hv]; rfl)
    · exact l.value?_eq_none_iff.1 (orDivisionByZero_injective (hread.symm.trans hzero))
    · rintro ⟨l', hl', htext, hzero⟩
      rw [← htext, Literal.result_readNumber hl', l'.value?_eq_none_iff.2 hzero]
      rfl
  · exact mt e.message_eq_invalidNumber_iff.1 ((neverInvalid_evaluateExpression mode u ha).2 e he)

/-- A fraction with denominator zero, and a number in Arabic digits. -/
theorem numbers_agree_inches :
    (tokenize .advanced "3/0in-٣ft".toList).result =
        .ok [.number "3/0".toList (some "in".toList), .mark (.operator .sub),
          .number "٣".toList (some "ft".toList)] ∧
      (readNumber "3/0".toList).result = .error .divisionByZero ∧
      (readNumber "٣".toList).result = .error .invalidNumber ∧
      (evaluateExpression .advanced .feetInches "3/0in-٣ft".toList).Fails ∧
      (evaluateExpression .advanced .feetInches "3/0in".toList).result = .error .divisionByZero ∧
      CalcError.divisionByZero.message ≠ "Invalid number" := by
  obtain ⟨hread, hfails, hvalid, -⟩ := numbers_agree .advanced
  have htokens : (tokenize .advanced "3/0in-٣ft".toList).result =
      .ok [.number "3/0".toList (some "in".toList), .mark (.operator .sub),
        .number "٣".toList (some "ft".toList)] := by
    decide +kernel
  have hzero : (evaluateExpression .advanced .feetInches "3/0in".toList).result =
      .error .divisionByZero := by
    decide +kernel
  have hfraction := hread _ _ htokens "3/0".toList (some "in".toList) (by decide)
  have harabic := hread _ _ htokens "٣".toList (some "ft".toList) (by decide)
  refine ⟨htokens, (hfraction.1 (by decide)).2.2 ⟨.fraction ['3'] ['0'], by decide, rfl, rfl⟩,
    harabic.2 (by decide), hfails _ _ (by decide), hzero, hvalid _ _ (by decide) _ hzero⟩

end Footrule
