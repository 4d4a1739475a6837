import Footrule.Proofs.Plain.Joining

/-!
# Severed decimals

In `7/3.5` the fraction `7/3` is found first, and `.5` is left to be read as a number of its own.
A text where this happens is severed (`severed`). It is the only place where it matters whether
blanks stand beside a division sign, and no value comes of a severed text in basic mode
(`collides_of_severed`).
-/

namespace Footrule

open Formula

/-- A fraction, plain or mixed, and a decimal with nothing before its point. -/
def Literal.cutsDecimal : Literal → Literal → Bool
  | fraction _ _, decimal [] _ => true
  | mixed _ _ _ _, decimal [] _ => true
  | _, _ => false

theorem Literal.cutsDecimal_mixed (run gap num den : List Char) :
    cutsDecimal (mixed run gap num den) = cutsDecimal (fraction num den) := by
  funext l
  cases l with
  | decimal run' decimals => cases run' <;> rfl
  | _ => rfl

/-- Some fraction is followed by the decimals of a number that it has taken the whole part of. -/
def severed (ls : List Lexeme) : Bool := sideBySide Literal.cutsDecimal ls

/-- No number is severed in the text. -/
def Unsevered (cs : List Char) : Prop := severed (lexemes .basic cs) = false

theorem Literal.exists_of_cutsDecimal {l l' : Literal} (h : l.cutsDecimal l' = true) :
    ∃ decimals, l' = .decimal [] decimals := by
  unfold cutsDecimal at h
  split at h
  · exact ⟨_, rfl⟩
  · exact ⟨_, rfl⟩
  · cases h

/-! ## Parts of a text that is not severed -/

namespace Unsevered

variable {cs k : List Char}

theorem of_lexemes {x : Lexeme} (h : Unsevered cs)
    (hx : lexemes .basic cs = x :: lexemes .basic k) : Unsevered k := by
  rw [Unsevered, hx] at h
  refine Bool.eq_false_iff.2 fun hk => ?_
  exact Bool.eq_false_iff.1 h (sideBySide_cons hk x)

theorem of_literal {l : Literal} (h : Unsevered cs) (hscan : Literal.scan? cs = some (l, k)) :
    Unsevered k :=
  h.of_lexemes (lexemes_literal hscan)

theorem of_cons {c : Char} (h : Unsevered (c :: k)) (hc : isDigit c = false) (hp : c ≠ '.') :
    Unsevered k :=
  h.of_lexemes (lexemes_single ⟨hc, hp⟩ k)

theorem of_slash (h : Unsevered ('/' :: k)) : Unsevered k :=
  h.of_cons (by decide) (by decide)

theorem of_gap {gap : List Char} (h : Unsevered (gap ++ k)) (hg : ∀ c ∈ gap, isBlank c = true) :
    Unsevered k := by
  induction gap with
  | nil => exact h
  | cons c gap ih =>
    obtain ⟨hc, hg⟩ := List.forall_mem_cons.1 hg
    exact ih (h.of_lexemes (lexemes_blank hc .basic _)) hg

/-- What follows a division sign, with blanks beside it or without. -/
theorem of_gap_slash {gap gap' : List Char} (h : Unsevered (gap ++ '/' :: (gap' ++ k)))
    (hg : ∀ c ∈ gap, isBlank c = true) (hg' : ∀ c ∈ gap', isBlank c = true) : Unsevered k :=
  (h.of_gap hg).of_slash.of_gap hg'

theorem of_decimal {run decimals : List Char} (h : Unsevered (run ++ '.' :: (decimals ++ k)))
    (hr : ∀ c ∈ run, isDigit c = true) (hd : DigitRun decimals) (hk : NoDigitFirst k) :
    Unsevered k :=
  h.of_literal (scan?_decimal hr hd hk)

theorem of_fraction {num den : List Char} (h : Unsevered (num ++ '/' :: (den ++ k)))
    (hn : DigitRun num) (hd : DigitRun den) (hk : NoDigitFirst k) : Unsevered k :=
  h.of_literal (scan?_fraction hn hd hk)

/-- What follows a run of digits that is no dividend and has no decimals. -/
theorem of_run {run : List Char} (h : Unsevered (run ++ k)) (hr : DigitRun run)
    (hk : NoDigitFirst k) (hs : signedRun? '/' k = none) (hp : signedRun? '.' k = none) :
    Unsevered k := by
  cases hf : spacedFraction? k with
  | none => exact h.of_literal (scan?_whole hr ⟨hk, hs, hp, hf⟩)
  | some found =>
    obtain ⟨rfl, hg, hn, hd, hk'⟩ := Literal.spacedFraction?_eq_some_iff.1 hf
    -- It is the fraction that cuts a decimal, with a whole part before it or without.
    rw [Unsevered, severed, lexemes_literal (scan?_mixed hr hg hn hd hk')] at h
    rw [Unsevered, severed, lexemes_gap hg.2, sideBySide_gap,
      lexemes_literal (scan?_fraction hn hd hk'), sideBySide, ← Literal.cutsDecimal_mixed]
    exact h

/-- The whole part of a decimal is not taken for a denominator. -/
theorem false_of_fraction {num den decimals : List Char}
    (h : Unsevered (num ++ '/' :: (den ++ '.' :: (decimals ++ k)))) (hn : DigitRun num)
    (hd : DigitRun den) (hdec : DigitRun decimals) (hk : NoDigitFirst k) : False := by
  have hpoint : lexemes .basic ('.' :: (decimals ++ k)) =
      .number (.decimal [] decimals) none :: lexemes .basic k :=
    lexemes_literal (scan?_decimal no_digits hdec hk)
  rw [Unsevered, lexemes_literal (scan?_fraction hn hd (Literal.noDigitFirst_point _)), hpoint] at h
  cases h

/-- A division by a decimal has blanks beside its sign. -/
theorem loose {num gap gap' run decimals : List Char}
    (h : Unsevered (num ++ (gap ++ '/' :: (gap' ++ (run ++ (decimals ++ k)))))) (hn : DigitRun num)
    (hdiv : Divisor run decimals k) (hne : decimals ≠ []) : gap ≠ [] ∨ gap' ≠ [] := by
  cases gap with
  | cons c gap => exact .inl (List.cons_ne_nil c gap)
  | nil =>
    cases gap' with
    | cons c gap' => exact .inr (List.cons_ne_nil c gap')
    | nil =>
      cases hdiv with
      | whole => exact absurd rfl hne
      | decimal hr hd hk => exact (h.false_of_fraction hn hr hd hk).elim

end Unsevered

/-! ## No value comes of a severed text -/

section Severed

variable {afterDiv : Bool} {cs k : List Char} {ts : List Token}

/-- A decimal with nothing before its point that comes next is the first token. -/
theorem exists_eq_number_of_nextNumber? {decimals : List Char}
    (hnext : nextNumber? (lexemes .basic k) = some (.decimal [] decimals))
    (hts : basicReading afterDiv k = some ts) :
    ∃ ts', ts = .number ('.' :: decimals) none :: ts' := by
  induction k using text_induction generalizing afterDiv ts with
  | nil =>
    rw [lexemes_nil] at hnext
    cases hnext
  | blank hb ih =>
    rw [lexemes_blank hb] at hnext
    rw [basicReading_blank hb] at hts
    exact ih hnext hts
  | sign m ih =>
    rw [lexemes_sign] at hnext
    cases hnext
  | point hk =>
    rw [basicReading_point hk] at hts
    cases hts
  | stray hd hp hb hm =>
    rw [basicReading_stray hd hp hb hm] at hts
    cases hts
  | whole hr hk =>
    rw [lexemes_literal (scan?_whole hr hk)] at hnext
    cases hnext
  | @decimal run decimals' k hr hd hk =>
    rw [lexemes_literal (scan?_decimal hr hd hk)] at hnext
    obtain ⟨rfl, rfl⟩ := Literal.decimal.inj (Option.some.inj hnext)
    obtain ⟨ts', -, rfl⟩ := Option.map_eq_some_iff.1 (basicReading_decimal_of_some hr hd hk hts)
    exact ⟨ts', rfl⟩
  | fraction hn hd hk =>
    rw [lexemes_literal (scan?_fraction hn hd hk)] at hnext
    cases hnext
  | divided hr hd hg hn' hd' hk =>
    rw [lexemes_literal (scan?_fraction hr hd (Literal.noDigitFirst_gap hg))] at hnext
    cases hnext
  | mixed hr hg hn hd hk =>
    rw [lexemes_literal (scan?_mixed hr hg hn hd hk)] at hnext
    cases hnext

/-- A number that is read as tokens that end a value, and the text after it. -/
theorem collides_of_number {l : Literal} {t : Token} (ht : t.endsValue = true) (us : List Token)
    (h : severed (.number l none :: lexemes .basic k) = true)
    (hts : basicReading false k = some ts)
    (ih : severed (lexemes .basic k) = true → Collides ts) : Collides (us ++ t :: ts) := by
  rcases Bool.or_eq_true_iff.1 h with h | h
  · obtain ⟨l', hl', hcut⟩ := (Option.any_eq_true _ _).1 h
    obtain ⟨decimals, rfl⟩ := Literal.exists_of_cutsDecimal hcut
    obtain ⟨ts', rfl⟩ := exists_eq_number_of_nextNumber? hl' hts
    exact collides_number ht us _ none ts'
  · rw [List.append_cons]
    exact (ih h).append (us ++ [t])

/-- Where a number is severed, its decimals stand directly after a value. -/
theorem collides_of_severed (h : severed (lexemes .basic cs) = true)
    (hts : basicReading afterDiv cs = some ts) : Collides ts := by
  induction cs using text_induction generalizing afterDiv ts with
  | nil =>
    rw [lexemes_nil] at h
    cases h
  | blank hb ih =>
    rw [lexemes_blank hb] at h
    rw [basicReading_blank hb] at hts
    exact ih h hts
  | sign m ih =>
    rw [lexemes_sign] at h
    rw [basicReading_sign, Option.map_eq_some_iff] at hts
    obtain ⟨ts, hts, rfl⟩ := hts
    exact (ih h hts).append [.mark m]
  | point hk =>
    rw [basicReading_point hk] at hts
    cases hts
  | stray hd hp hb hm =>
    rw [basicReading_stray hd hp hb hm] at hts
    cases hts
  | whole hr hk ih =>
    rw [lexemes_literal (scan?_whole hr hk)] at h
    rw [basicReading_whole hr hk, Option.map_eq_some_iff] at hts
    obtain ⟨ts, hts, rfl⟩ := hts
    exact collides_of_number rfl [] h hts fun h => ih h hts
  | decimal hr hd hk ih =>
    rw [lexemes_literal (scan?_decimal hr hd hk)] at h
    obtain ⟨ts', hts', rfl⟩ := Option.map_eq_some_iff.1 (basicReading_decimal_of_some hr hd hk hts)
    exact collides_of_number rfl [] h hts' fun h => ih h hts'
  | @fraction num den k hn hd hk hs ih =>
    rw [lexemes_literal (scan?_fraction hn hd hk)] at h
    rw [basicReading_fraction hn hd hk hs, Option.map_eq_some_iff] at hts
    obtain ⟨ts, hts, rfl⟩ := hts
    obtain ⟨us, text, name, hlast⟩ :=
      exists_numberTokens_eq_concat afterDiv (.fraction num den) none
    rw [hlast, List.append_assoc]
    exact collides_of_number rfl us h hts fun h => ih h hts
  | @divided run den gap num' den' k hr hd hg hn' hd' hk ih =>
    rw [lexemes_literal (scan?_fraction hr hd (Literal.noDigitFirst_gap hg)), lexemes_gap hg.2,
      lexemes_literal (scan?_fraction hn' hd' hk), severed, sideBySide, nextNumber?_gap,
      sideBySide_gap] at h
    rw [basicReading_divided hr hd (spacedFraction?_ne_none hg hn' hd' hk),
      basicReading_mixed hd hg hn' hd' hk, Option.map_map, Option.map_eq_some_iff] at hts
    obtain ⟨ts, hts, rfl⟩ := hts
    have hcollides := collides_of_number (t := .mark .closing) rfl
      ((sumTokens den num' den').dropLast) h hts fun h => ih h hts
    exact hcollides.append [.number run none, .mark (.operator .div)]
  | @mixed run gap num den k hr hg hn hd hk ih =>
    rw [lexemes_literal (scan?_mixed hr hg hn hd hk)] at h
    rw [basicReading_mixed hr hg hn hd hk, Option.map_eq_some_iff] at hts
    obtain ⟨ts, hts, rfl⟩ := hts
    exact collides_of_number (t := .mark .closing) rfl ((sumTokens run num den).dropLast) h hts
      fun h => ih h hts

end Severed

end Footrule
