import Footrule.Proofs.Breaks.Stretches
import Mathlib.Control.Monad.Basic

/-!
# Feet and inches within an expression

A length in feet and inches is prepared into the same lexemes as the sum of its two lengths in
parentheses, whatever the spacing and the case of its names (`pieces_compound`). What is written
before it does not matter as long as a value may come next and no division is open
(`AwaitsValue`), and what is written after it as long as a value may end there (`Closes`). So the
length may be exchanged for its sum in any expression (`evaluateExpression_compound`).
-/

namespace Footrule

open Formula Piece

/-! ## What is written after a value -/

namespace Closes

variable {k : List Char}

theorem of_blank (h : ∀ c ∈ k, isBlank c = true) : Closes k := by
  intro c hc
  rw [trimStart, dropWhile_eq_nil_iff_forall.2 h] at hc
  cases hc

theorem gap_cons {gap : List Char} (hg : ∀ c ∈ gap, isBlank c = true) {c : Char}
    (hc : c ∈ closers) (post : List Char) : Closes (gap ++ c :: post) :=
  (forall_head_gap_cons hg ((by decide : ∀ c ∈ closers, isBlank c = false) c hc) post).2 hc

/-- Where the first blanks of a text are kept, and a sign after them, a value still ends. -/
theorem change {f : List Char → List Char} (hnil : f [] = [])
    (hgap : ∀ {gap : List Char}, (∀ c ∈ gap, isBlank c = true) → ∀ k, f (gap ++ k) = gap ++ f k)
    (hsign : ∀ c ∈ closers, ∀ post, ∃ post', f (c :: post) = c :: post') (hk : Closes k) :
    Closes (f k) := by
  rcases blank_or_gap_cons hk with hblank | ⟨gap, c, post, hg, hc, rfl⟩
  · have hkept := hgap hblank []
    rw [List.append_nil, hnil, List.append_nil] at hkept
    rw [hkept]
    exact of_blank hblank
  · obtain ⟨post', hpost⟩ := hsign c hc post
    rw [hgap hg, hpost]
    exact gap_cons hg hc post'

theorem joinFractions (hk : Closes k) : Closes (joinFractions k) := by
  refine hk.change (Rule.pass_nil _) joinFractions_blank fun c hc post => ?_
  by_cases hslash : c = '/'
  · -- what is joined after a slash is written with the slash first
    subst hslash
    have hfire : fractionRule.fire? ('/' :: post) = (Division.scan? (trimStart post)).map
        fun found => ('/' :: (post.takeWhile isBlank ++ found.1.text), found.2) := rfl
    cases hscan : Division.scan? (trimStart post) with
    | none =>
      rw [hscan] at hfire
      exact ⟨_, Rule.pass_of_not_fire hfire⟩
    | some found =>
      rw [hscan] at hfire
      exact ⟨_, Rule.pass_of_fire hfire⟩
  · have hdigit : isDigit c = false := (by decide : ∀ c ∈ closers, isDigit c = false) c hc
    exact ⟨_, joinFractions_cons hdigit hslash post⟩

theorem pass {r : Rule} {safe : Literal → List Char → Prop} (hr : r.FiresAtLiterals safe)
    (hk : Closes k) : Closes (r.pass k) := by
  refine hk.change r.pass_nil (fun hg k => Rule.pass_blank hr hg k)
    fun c hc post => ⟨r.pass post, ?_⟩
  have hneither : ∀ d ∈ [c], isDigit d = false ∧ d ≠ '.' := List.forall_mem_singleton.2
    ((by decide : ∀ c ∈ closers, isDigit c = false ∧ c ≠ '.') c hc)
  exact Rule.pass_text hr hneither post

theorem joinUnits (hk : Closes k) : Closes (joinUnits k) := hk.pass firesAtLiterals_unit

theorem sumFeetInches (hk : Closes k) : Closes (sumFeetInches k) :=
  hk.pass firesAtLiterals_feetInches

theorem sign {m : Mark} (hm : m.sign ∈ closers) (k : List Char) :
    Closes (plainSigns (m.sign :: k)) := by
  rw [plainSigns_sign]
  exact gap_cons blank_nil hm _

end Closes

/-! ## Lengths side by side -/

namespace Compound

/-- The length with its units directly after their numbers. -/
def closed (c : Compound) : Compound :=
  { c with feetSuffix := c.feetSuffix.closed, inchesSuffix := c.inchesSuffix.closed }

/-- The lexemes of the sum of the two lengths in parentheses. -/
def lexemes (c : Compound) : List Lexeme :=
  [.mark .opening, .number c.feet.literal (some c.feetSuffix.name), .mark (.operator .add),
    .number c.inches.literal (some c.inchesSuffix.name), .mark .closing]

/-- How the sum of the two lengths is written in parentheses. -/
def sumText (c : Compound) : List Char :=
  '(' :: (c.first.text ++ ([' ', '+', ' '] ++ (c.second.text ++ [')'])))

end Compound

/-- A number with its unit directly after it is one lexeme. -/
theorem lexemes_closed (l : PlainLiteral) (s : Suffix) {k : List Char} (hk : Closes k) :
    lexemes .advanced ((Measure.closed ⟨l, some s⟩).text ++ k) =
      .number l.literal (some s.name) :: lexemes .advanced k := by
  refine lexemes_measure (m := Measure.closed ⟨l, some s⟩) ?_ hk nofun
  rintro s' ⟨⟩
  rfl

theorem lexemes_sumLengths (c : Compound) (k : List Char) :
    lexemes .advanced (written (sumLengths (.compound c.closed)) ++ k) =
      c.lexemes ++ lexemes .advanced k := by
  have htext : written (sumLengths (.compound c.closed)) ++ k =
      Mark.opening.sign :: ((Measure.closed c.first).text ++ (Mark.operator .add).sign ::
        ((Measure.closed c.second).text ++ Mark.closing.sign :: k)) := by
    simp [sumLengths, Piece.text, Mark.sign, Operator.sign]
    rfl
  have hadd (k : List Char) : Closes ((Mark.operator .add).sign :: k) :=
    .gap_cons blank_nil (by decide) k
  have hclosing : Closes (Mark.closing.sign :: k) := .gap_cons blank_nil (by decide) k
  rw [htext, lexemes_sign, Compound.first, lexemes_closed _ _ (hadd _), lexemes_sign,
    Compound.second, lexemes_closed _ _ hclosing, lexemes_sign]
  rfl

/-- **A length in feet and inches is prepared as the sum of its two lengths.** -/
theorem pieces_compound (c : Compound) {k : List Char} (hk : Closes (plainSigns k)) :
    pieces .advanced (c.text ++ k) = c.lexemes ++ pieces .advanced k := by
  have hplain : plainSigns c.text = c.text := by
    have hwritten := plainSigns_written [.compound c]
    rwa [written_singleton] at hwritten
  have hunits {k : List Char} (hk : Closes k) :
      joinUnits (c.text ++ k) = c.closed.text ++ joinUnits k :=
    joinUnits_compound c hk.noLetterFirst
  have hsum {k : List Char} (hk : Closes k) : sumFeetInches (c.closed.text ++ k) =
      written (sumLengths (.compound c.closed)) ++ sumFeetInches k :=
    sumFeetInches_compound (isClosed_closed (.compound c)) hk.noLetterFirst
  rw [pieces, plainSigns_append, hplain, finish, joinFractions_compound, hunits hk.joinFractions,
    hsum hk.joinFractions.joinUnits, lexemes_sumLengths, pieces, finish]

/-- A length in one unit is prepared as a number with its unit. -/
theorem pieces_suffixed (l : PlainLiteral) (s : Suffix) {k : List Char}
    (hk : Closes (plainSigns k)) :
    pieces .advanced ((⟨l, some s⟩ : Measure).text ++ k) =
      .number l.literal (some s.name) :: pieces .advanced k := by
  have hplain : plainSigns (⟨l, some s⟩ : Measure).text = (⟨l, some s⟩ : Measure).text := by
    have hwritten := plainSigns_written [.measure ⟨l, some s⟩]
    rwa [written_singleton] at hwritten
  have hunits {k : List Char} (hk : Closes k) := joinUnits_suffixed l s hk.noLetterFirst
  have hsum {k : List Char} (hk : Closes k) :
      sumFeetInches ((Measure.closed ⟨l, some s⟩).text ++ k) =
        (Measure.closed ⟨l, some s⟩).text ++ sumFeetInches k :=
    sumFeetInches_suffixed l (s := s.closed) rfl hk
  rw [pieces, plainSigns_append, hplain, finish, joinFractions_suffixed, hunits hk.joinFractions,
    hsum hk.joinFractions.joinUnits, lexemes_closed l s hk.joinFractions.joinUnits.sumFeetInches,
    pieces, finish]

/-- Written as a sum without blanks about its sign, the length has the same lexemes. -/
theorem pieces_sumOf (c : Compound) (k : List Char) :
    pieces .advanced (sumOf c.first.text c.second.text ++ k) =
      c.lexemes ++ pieces .advanced k := by
  have htext : sumOf c.first.text c.second.text ++ k =
      Mark.opening.sign :: (c.first.text ++ (Mark.operator .add).sign ::
        (c.second.text ++ Mark.closing.sign :: k)) := by
    simp [sumOf, Mark.sign, Operator.sign]
  have hadd (k : List Char) := Closes.sign (m := .operator .add) (by decide) k
  have hclosing := Closes.sign (m := .closing) (by decide) k
  rw [htext, pieces_sign _ (by decide), Compound.first, pieces_suffixed _ _ (hadd _),
    pieces_sign _ (by decide), Compound.second, pieces_suffixed _ _ hclosing,
    pieces_sign _ (by decide)]
  rfl

/-! ## What is written before a value -/

/-- The text is blank, or it ends with an opening parenthesis or an operator that is no division. -/
def AwaitsValue (before : List Char) : Prop :=
  ∀ c ∈ (dropTrailing isBlank before).getLast?, c ∈ ['(', '+', '-', '*']

theorem pieces_plainSigns (mode : Mode) (cs : List Char) :
    pieces mode (plainSigns cs) = pieces mode cs := by
  rw [pieces, plainSigns_of_forall (not_typographic_plainSigns cs), pieces]

namespace AwaitsValue

variable {before : List Char}

/-- Before a value a text is blank, or it ends with one of the signs and blanks. -/
theorem cases (hb : AwaitsValue before) : (∀ c ∈ before, isBlank c = true) ∨
    ∃ pre m gap, m ≠ Mark.operator .div ∧ (∀ c ∈ gap, isBlank c = true) ∧
      before = pre ++ m.sign :: gap := by
  cases hlast : (dropTrailing isBlank before).getLast? with
  | none => exact .inl (dropTrailing_eq_nil_iff.1 (List.getLast?_eq_none_iff.1 hlast))
  | some c =>
    obtain ⟨pre, hpre⟩ := List.getLast?_eq_some_iff.1 hlast
    obtain ⟨m, -, hm, rfl⟩ := (by decide : ∀ c ∈ ['(', '+', '-', '*'],
      ∃ m ∈ Mark.all, m ≠ .operator .div ∧ m.sign = c) c (hb c hlast)
    refine .inr ⟨pre, m, (before.reverse.takeWhile isBlank).reverse, hm, fun c hc => ?_, ?_⟩
    · exact List.all_eq_true.1 List.all_takeWhile c (List.mem_reverse.1 hc)
    · rw [← List.singleton_append, ← List.append_assoc, ← hpre, dropTrailing_append_takeWhile]

/-- A value that comes next does not go on with anything before it. -/
theorem pieces_append (hb : AwaitsValue before) (mode : Mode) (k : List Char) :
    pieces mode (before ++ k) = pieces mode before ++ pieces mode k := by
  rcases hb.cases with hblank | ⟨pre, m, gap, hm, hg, rfl⟩
  · rw [pieces_gap mode hblank, pieces_blank mode hblank]
  · rw [List.append_assoc, List.cons_append, Footrule.pieces_append mode pre (.sign hm _),
      Footrule.pieces_append mode pre (.sign hm _), pieces_sign mode hm, pieces_sign mode hm,
      pieces_gap mode hg, pieces_blank mode hg, List.append_assoc, List.cons_append]

end AwaitsValue

/-! ## Expressions -/

/--
**A length in feet and inches means the sum of its two lengths in parentheses.** Its numbers may be
of any form and its names in letters of either case, with any blanks before, between and after them.
Where it stands as a value that no division sign precedes, the expression has the same value with
the sum in its place, in every output unit, or fails with the same error.
-/
theorem evaluateExpression_compound (c : Compound) {before after : List Char}
    (hb : AwaitsValue (plainSigns before)) (ha : Closes (plainSigns after)) (u : OutputUnit) :
    (evaluateExpression .advanced u (before ++ (c.text ++ after))).result =
      (evaluateExpression .advanced u (before ++ (c.sumText ++ after))).result := by
  have hbefore (k : List Char) :
      pieces .advanced (before ++ k) = pieces .advanced before ++ pieces .advanced k := by
    rw [← pieces_plainSigns, plainSigns_append, hb.pieces_append, pieces_plainSigns,
      pieces_plainSigns]
  have htight : pieces .advanced (before ++ (c.text ++ after)) =
      pieces .advanced (before ++ (sumOf c.first.text c.second.text ++ after)) := by
    rw [hbefore, hbefore, pieces_compound c ha, pieces_sumOf]
  have hspaced := outline_gap_sign_gap .advanced (before ++ '(' :: c.first.text) blank_space
    (m := .operator .add) (by decide) blank_space (c.second.text ++ ')' :: after)
  refine result_of_outline ?_ u
  rw [htight]
  simpa [sumOf, Compound.sumText, Mark.sign, Operator.sign] using hspaced.symm

/-- Half of a length in parentheses, with its inches directly after the name of its feet. -/
theorem evaluateExpression_compound_halved :
    (evaluateExpression .advanced .feetInches "-(5 Ft3 1/2 IN) / 2".toList).result =
        (evaluateExpression .advanced .feetInches "-((5 Ft + 3 1/2 IN)) / 2".toList).result ∧
      (evaluateExpression .advanced .feetInches "-((5 Ft + 3 1/2 IN)) / 2".toList).result =
        .ok ⟨-127 / 4, true⟩ := by
  have hlast : (dropTrailing isBlank (plainSigns "-(".toList)).getLast? = some '(' := by decide
  have hbefore : AwaitsValue (plainSigns "-(".toList) := by
    rw [AwaitsValue, hlast]
    rintro c ⟨⟩
    decide
  have hafter : Closes (plainSigns ") / 2".toList) :=
    .gap_cons blank_nil (by decide : ')' ∈ closers) " / 2".toList
  refine ⟨evaluateExpression_compound
    { feet := ⟨.whole "5".toList, by decide⟩
      feetSuffix := ⟨[' '], "Ft".toList, .foot, blank_space, by decide⟩
      gap := []
      inches := ⟨.mixed "3".toList [' '] "1".toList "2".toList, by decide⟩
      inchesSuffix := ⟨[' '], "IN".toList, .inch, blank_space, by decide⟩
      isFoot := rfl
      blank := blank_nil
      isInch := rfl } hbefore hafter .feetInches, ?_⟩
  decide +kernel

end Footrule
