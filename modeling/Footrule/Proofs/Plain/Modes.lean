import Footrule.Proofs.Plain.Sums
import Footrule.Proofs.Shown.Unitless
import Footrule.Proofs.Written.Lengths
import Mathlib.Control.Monad.Basic

/-!
# Plain arithmetic in the two modes

An expression that has a value in basic mode carries no units. Advanced mode reads it alike, with
a literal for each mixed fraction in place of a sum (`readsOn`), and comes to the same value
(`evaluateExpression_advanced_of_basic`). There is one exception: a division of a number by a mixed
fraction is joined to a fraction with the whole part of the divisor. Basic mode then still writes
the divisor as a sum, but in advanced mode two fractions stand side by side, and no value comes of
it.
-/

namespace Footrule

open Formula

/-! ## Two fractions side by side -/

/-- Both literals are fractions. -/
def Literal.areFractions : Literal → Literal → Bool
  | fraction _ _, fraction _ _ => true
  | _, _ => false

/-- Some fraction is followed by blanks and another fraction. -/
def crowded (ls : List Lexeme) : Bool := sideBySide Literal.areFractions ls

/-! ## Mixed fractions and their sums -/

/-- The first tokens say what the second do, unless fractions stand side by side in the text. -/
def SaysAlike (cs : List Char) (ts ts' : List Token) : Prop :=
  crowded (lexemes .basic cs) = true ∨ ∀ dividing, Regrouped dividing ts ts'

theorem SaysAlike.append {cs k : List Char} {x : Lexeme} {ts ts' : List Token}
    (h : SaysAlike k ts ts') (hx : lexemes .basic cs = x :: lexemes .basic k) (us : List Token) :
    SaysAlike cs (us ++ ts) (us ++ ts') := by
  rcases h with h | h
  · exact .inl (hx ▸ sideBySide_cons h x)
  · exact .inr fun dividing => .append us h

/-- Basic mode's tokens for a text say what is read in the text itself. -/
def ReadsOn (afterDiv : Bool) (cs : List Char) : Prop :=
  ∀ ts, basicReading afterDiv cs = some ts →
    ∃ ts', reading afterDiv cs = some ts' ∧ SaysAlike cs ts ts'

section ReadsOn

variable {afterDiv : Bool} {cs k : List Char}

/-- What is kept as it is. -/
theorem ReadsOn.keep {before : Bool} (h : ReadsOn before k) {x : Lexeme} (us : List Token)
    (hbasic : basicReading afterDiv cs = (basicReading before k).map (us ++ ·))
    (hread : reading afterDiv cs = (reading before k).map (us ++ ·))
    (hx : lexemes .basic cs = x :: lexemes .basic k) : ReadsOn afterDiv cs := by
  intro ts hts
  rw [hbasic, Option.map_eq_some_iff] at hts
  obtain ⟨ts₁, hts₁, rfl⟩ := hts
  obtain ⟨ts₂, hts₂, hsay⟩ := h ts₁ hts₁
  exact ⟨us ++ ts₂, by rw [hread, hts₂, Option.map_some], hsay.append hx us⟩

/-- A literal that is no fraction and no mixed fraction. -/
theorem ReadsOn.number (h : ReadsOn false k) {l : Literal} (hl : ¬ l.IsFraction)
    (hscan : Literal.scan? cs = some (l, k))
    (hbasic : basicReading afterDiv cs = (basicReading false k).map (.number l.text none :: ·)) :
    ReadsOn afterDiv cs := by
  refine h.keep [.number l.text none] hbasic ?_ (lexemes_literal hscan)
  rw [reading_literal hscan, numberTokens_of_not_fraction hl]

/-- A mixed fraction and its sum. -/
theorem ReadsOn.mixed {run gap num den : List Char} (hr : DigitRun run) (hg : BlankRun gap)
    (hn : DigitRun num) (hd : DigitRun den) (hk : NoDigitFirst k) (h : ReadsOn false k) :
    ReadsOn afterDiv (run ++ (gap ++ (num ++ '/' :: (den ++ k)))) := by
  have hscan := scan?_mixed hr hg hn hd hk
  intro ts hts
  rw [basicReading_mixed hr hg hn hd hk, Option.map_eq_some_iff] at hts
  obtain ⟨ts₁, hts₁, rfl⟩ := hts
  obtain ⟨ts₂, hts₂, hsay⟩ := h ts₁ hts₁
  refine ⟨.number (Literal.mixed run gap num den).text none :: ts₂, ?_, ?_⟩
  · rw [reading_literal hscan, numberTokens_of_not_fraction id, hts₂]
    rfl
  · rcases hsay with hcrowd | hgroup
    · exact .inl (lexemes_literal hscan ▸ sideBySide_cons hcrowd _)
    · exact .inr fun dividing => .sum (readsAsSum_mixed ⟨hr, hg, hn, hd⟩) (hgroup false)

/-- A fraction whose denominator is the whole part of a mixed fraction for basic mode. -/
theorem ReadsOn.divided {run den gap num' den' : List Char} (hr : DigitRun run) (hd : DigitRun den)
    (hg : BlankRun gap) (hn' : DigitRun num') (hd' : DigitRun den') (hk : NoDigitFirst k)
    (h : ReadsOn false k) :
    ReadsOn afterDiv (run ++ '/' :: (den ++ (gap ++ (num' ++ '/' :: (den' ++ k))))) := by
  have hscan := scan?_fraction hr hd (Literal.noDigitFirst_gap hg (k := num' ++ '/' :: (den' ++ k)))
  have hscan' := scan?_fraction hn' hd' hk
  intro ts hts
  rw [basicReading_divided hr hd (spacedFraction?_ne_none hg hn' hd' hk),
    basicReading_mixed hd hg hn' hd' hk, Option.map_map, Option.map_eq_some_iff] at hts
  obtain ⟨ts₁, hts₁, -⟩ := hts
  obtain ⟨ts₂, hts₂, -⟩ := h ts₁ hts₁
  refine ⟨numberTokens afterDiv (.fraction run den) none ++
    (numberTokens false (.fraction num' den') none ++ ts₂), ?_, .inl ?_⟩
  · rw [reading_literal hscan, reading_gap hg.2, reading_literal hscan', hts₂]
    rfl
  · rw [lexemes_literal hscan, lexemes_gap hg.2, lexemes_literal hscan', crowded, sideBySide,
      nextNumber?_gap]
    rfl

/-- A decimal. -/
theorem ReadsOn.decimal {run decimals : List Char} (hr : ∀ c ∈ run, isDigit c = true)
    (hd : DigitRun decimals) (hk : NoDigitFirst k) (h : ReadsOn false k) :
    ReadsOn afterDiv (run ++ '.' :: (decimals ++ k)) := by
  cases hs : spacedFraction? k with
  | none =>
    exact h.number (l := .decimal run decimals) id (scan?_decimal hr hd hk)
      (basicReading_decimal hr hd hk hs)
  | some found =>
    intro ts hts
    rw [basicReading_point_mixed hr hd (by rw [hs]; exact Option.some_ne_none _)] at hts
    cases hts

/-- **What basic mode reads in a text with its mixed fractions as sums, is read in the text.** -/
theorem readsOn (cs : List Char) (afterDiv : Bool) : ReadsOn afterDiv cs := by
  induction cs using text_induction generalizing afterDiv with
  | nil => exact fun ts hts => ⟨[], reading_nil, .inr fun _ => by simp_all [Regrouped.nil]⟩
  | @blank c k hb ih =>
    refine (ih afterDiv).keep [] ?_ ?_ (lexemes_blank hb .basic k)
    · rw [basicReading_blank hb]
      simp
    · rw [reading_blank hb]
      simp
  | @sign m k ih =>
    exact (ih _).keep [.mark m] (basicReading_sign m k) (reading_sign m k) (lexemes_sign m .basic k)
  | point hk =>
    intro ts hts
    rw [basicReading_point hk] at hts
    cases hts
  | stray hd hp hb hm =>
    intro ts hts
    rw [basicReading_stray hd hp hb hm] at hts
    cases hts
  | whole hr hk ih =>
    exact (ih false).number id (scan?_whole hr hk) (basicReading_whole hr hk)
  | decimal hr hd hk ih => exact (ih false).decimal hr hd hk
  | fraction hn hd hk hs ih =>
    have hscan := scan?_fraction hn hd hk
    exact (ih false).keep _ (basicReading_fraction hn hd hk hs) (reading_literal hscan)
      (lexemes_literal hscan)
  | divided hr hd hg hn' hd' hk ih => exact (ih false).divided hr hd hg hn' hd' hk
  | mixed hr hg hn hd hk ih => exact (ih false).mixed hr hg hn hd hk

end ReadsOn

/-! ## Texts without letters -/

/-- The text has no letters. -/
def Letterless (cs : List Char) : Prop := ∀ c ∈ cs, c.isAlpha = false ∧ c ≠ 'ſ'

theorem letterless_append {cs k : List Char} :
    Letterless (cs ++ k) ↔ Letterless cs ∧ Letterless k := List.forall_mem_append

theorem letterless_cons {c : Char} {k : List Char} :
    Letterless (c :: k) ↔ (c.isAlpha = false ∧ c ≠ 'ſ') ∧ Letterless k := List.forall_mem_cons

theorem Literal.Digital.letterless {l : Literal} (hl : l.Digital) : Letterless l.text :=
  fun c hc => (Digital.isNumeric hl c hc).noLetter

/-- A text that basic mode accepts has no letters. -/
theorem letterless_of_accepted {cs : List Char} {afterDiv : Bool} {ts : List Token}
    (h : accepted? afterDiv (lexemes .basic cs) = some ts) : Letterless cs := by
  obtain ⟨hstray, -⟩ := accepted?_eq_some_iff.1 h
  clear h
  fun_induction lexemes .basic cs with
  | case1 => exact List.forall_mem_nil _
  | case2 c cs l rest hscan _ ih =>
    rw [Literal.append_of_scan? hscan]
    exact letterless_append.2 ⟨(Literal.digital_of_scan? hscan).letterless,
      ih fun d hd => hstray d (List.mem_cons_of_mem _ hd)⟩
  | case3 c cs hscan ih =>
    refine letterless_cons.2 ⟨?_, ih fun d hd => hstray d (List.mem_cons_of_mem _ hd)⟩
    unfold Lexeme.single at hstray
    split at hstray
    · next m hm =>
      rw [← Mark.sign_of_ofSign? hm]
      cases m with
      | operator o => cases o <;> decide
      | _ => decide
    · exact noLetter_of_isBlank (hstray c List.mem_cons_self)

section Letterless

variable {cs : List Char}

theorem Letterless.of_suffix {k : List Char} (h : Letterless cs) (hk : k <:+ cs) : Letterless k :=
  fun c hc => h c (hk.mem hc)

theorem Letterless.takeWhile_isAlpha (h : Letterless cs) : cs.takeWhile Char.isAlpha = [] :=
  takeWhile_eq_nil_of_head fun c hc => (h c (List.mem_of_head? hc)).1

theorem Letterless.noLetterFirst (h : Letterless cs) : NoLetterFirst cs :=
  fun c hc => h c (List.mem_of_head? hc)

/-- Without letters there are no units to be joined. -/
theorem Letterless.joinUnits (h : Letterless cs) : joinUnits cs = cs := by
  refine Rule.pass_eq_self fun {t} ht => ?_
  simp only [unitRule, joinedUnit?]
  cases hs : Literal.scan? t with
  | none => rfl
  | some found =>
    obtain ⟨l, rest⟩ := found
    have hrest : Letterless (trimStart rest) := by
      have happ := (h.of_suffix ht)
      rw [Literal.append_of_scan? hs] at happ
      exact (letterless_append.1 happ).2.of_suffix (List.dropWhile_suffix _)
    simp [hrest.takeWhile_isAlpha]

/-- Without letters there are no feet and inches. -/
theorem Letterless.sumFeetInches (h : Letterless cs) : sumFeetInches cs = cs := by
  refine Rule.pass_eq_self fun {t} ht => ?_
  have hfeet : measureAt? .foot t = none := by
    rw [measureAt?]
    cases hs : Literal.scan? t with
    | none => rfl
    | some found =>
      obtain ⟨l, rest⟩ := found
      have hrest : Letterless rest := by
        have happ := (h.of_suffix ht)
        rw [Literal.append_of_scan? hs] at happ
        exact (letterless_append.1 happ).2
      have hword : firstWordAt? LengthUnit.foot.aliases rest = none := by
        refine List.findSome?_eq_none_iff.2 fun word hword => ?_
        obtain ⟨hne, hletters⟩ := LengthUnit.letters_of_mem_aliases hword
        obtain ⟨letter, w, hw⟩ := List.exists_cons_of_ne_nil hne
        rw [hw] at hletters ⊢
        cases rest with
        | nil => rfl
        | cons c rest =>
          rw [wordAt?, if_neg]
          simp [isFormOf_eq_false (hletters letter List.mem_cons_self) (hrest c List.mem_cons_self)]
      simp only [Option.bind_some, hword, Option.map_none]
  simp only [feetInchesRule, feetInchesSum?, hfeet, Option.bind_none]

/-- Without letters both modes cut a text alike. -/
theorem Letterless.lexemes (h : Letterless cs) : lexemes .advanced cs = lexemes .basic cs := by
  fun_induction Footrule.lexemes .basic cs with
  | case1 => exact lexemes_nil _
  | case2 c cs l rest hscan _ ih =>
    have hrest : Letterless rest := by
      rw [Literal.append_of_scan? hscan] at h
      exact (letterless_append.1 h).2
    rw [lexemes_of_scan? hscan, unitName_none hrest.noLetterFirst]
    exact congrArg _ (ih hrest)
  | case3 c cs hscan ih =>
    rw [lexemes_of_not_scan? hscan, ih (letterless_cons.1 h).2]

end Letterless

/-! ## The two modes -/

/-- The text of an expression with its fractions joined. -/
def Formula.joined (expression : List Char) : List Char :=
  joinFractions (plainSigns (trim expression))

theorem evaluateExpression_basic_eq_ok_iff {u : OutputUnit} {cs : List Char} {q : Quantity} :
    (evaluateExpression .basic u cs).result = .ok q ↔
      ∃ ts, basicReading false (joined cs) = some ts ∧ (evaluate ts).result = .ok q := by
  have hread (ts : List Token) : basicReading false (joined cs) = some ts ↔
      (tokenize .basic (finish .basic (joined cs))).result = .ok ts :=
    result_tokenize_eq_ok_iff.symm
  rw [evaluateExpression, Traced.result_bind_eq_ok_iff]
  simp only [result_prepare, hread]
  constructor
  · rintro ⟨formula, hf, h⟩
    cases hf
    obtain ⟨-, -, h⟩ := Traced.result_bind_eq_ok_iff.1 h
    exact Traced.result_bind_eq_ok_iff.1 h
  · rintro ⟨ts, hts, h⟩
    exact ⟨_, rfl, Traced.result_bind_eq_ok_iff.2
      ⟨(), rfl, Traced.result_bind_eq_ok_iff.2 ⟨ts, hts, h⟩⟩⟩

theorem result_basic_of_reading {u : OutputUnit} {cs : List Char} {ts : List Token}
    (h : basicReading false (joined cs) = some ts) :
    (evaluateExpression .basic u cs).result = (evaluate ts).result := by
  have htokens : (tokenize .basic (finish .basic (joined cs))).result = .ok ts :=
    result_tokenize_eq_ok_iff.2 h
  rw [joined] at htokens
  rw [evaluateExpression, Traced.result_bind, result_prepare]
  simp only [Except.bind, Traced.result_bind, Traced.result_note, htokens]

/-- In advanced mode an accepted text without letters is evaluated as it is. -/
theorem result_advanced_of_reading {u : OutputUnit} {cs : List Char} {ts : List Token}
    (h : reading false (joined cs) = some ts) :
    (evaluateExpression .advanced u cs).result =
      (evaluate ts).result.bind fun q => (q.convert u).result := by
  have hletters : Letterless (joined cs) := letterless_of_accepted h
  have hformula : finish .advanced (joined cs) = joined cs := by
    rw [finish, hletters.joinUnits, hletters.sumFeetInches]
  have htokens : (tokenize .advanced (finish .advanced (joined cs))).result = .ok ts := by
    rw [hformula, result_tokenize_eq_ok_iff, hletters.lexemes]
    exact h
  rw [joined] at htokens
  rw [evaluateExpression, Traced.result_bind, result_prepare]
  simp only [Except.bind, Traced.result_bind, htokens]

/--
**Advanced mode comes to the value of basic mode, or to none.** An expression that has a value in
basic mode is a plain number, and in advanced mode it has the same value, for every output unit,
unless joining its fractions puts two of them side by side; then advanced mode fails.
-/
theorem evaluateExpression_advanced_of_basic {u u' : OutputUnit} {cs : List Char} {q : Quantity}
    (h : (evaluateExpression .basic u cs).result = .ok q) :
    q.isLength = false ∧
    (crowded (lexemes .basic (joined cs)) = false →
      (evaluateExpression .advanced u' cs).result = .ok q) ∧
    (crowded (lexemes .basic (joined cs)) = true → (evaluateExpression .advanced u' cs).Fails) := by
  have hnumber : q.isLength = false := isLength_of_basic h
  obtain ⟨ts, hts, hq⟩ := evaluateExpression_basic_eq_ok_iff.1 h
  obtain ⟨ts', hts', hsay⟩ := readsOn (joined cs) false ts hts
  have hresult := result_advanced_of_reading (u := u') hts'
  refine ⟨hnumber, fun hcrowd => ?_, fun hcrowd => ?_⟩
  · have hgroup := hsay.resolve_left (Bool.eq_false_iff.1 hcrowd) false
    rw [hresult, ← evaluate_of_regrouped hgroup, hq]
    simp [Except.bind, Quantity.convert, hnumber]
  · obtain ⟨-, rfl⟩ := accepted?_eq_some_iff.1 hts'
    obtain ⟨e, he⟩ := (collides_tokensOf hcrowd false).fails
    exact ⟨e, by rw [hresult, he]; rfl⟩

theorem evaluateExpression_advanced_of_basic_mixed :
    (evaluateExpression .advanced (.single .inch) "3 / 4 - 1 1/2".toList).result =
      .ok ⟨-3 / 4, false⟩ :=
  (evaluateExpression_advanced_of_basic (u := .feetInches) (by decide +kernel)).2.1
    (by decide +kernel)

/-- A division by a mixed fraction has a value in basic mode only. -/
theorem exists_basic_advanced_fails :
    (evaluateExpression .basic .feetInches "8 / 2 1/2".toList).result = .ok ⟨16 / 5, false⟩ ∧
      (evaluateExpression .advanced .feetInches "8 / 2 1/2".toList).result =
        .error .missingOperator := by
  constructor <;> decide +kernel

end Footrule
