import Footrule.Proofs.Plain.Joining
import Footrule.Proofs.Written.Reading
import Mathlib.Algebra.Order.Field.Rat
import Mathlib.Tactic.Positivity

/-!
# The numbers that are read

A number is written in one of eight ways, once the blanks around it are gone (`Denotes`). A text
that is written so is read as what it denotes (`Denotes.result_readTrimmed`), and every other text
is refused (`denotes_or_invalid`). So the number reader accepts exactly these texts, and fails for a
division by zero exactly where a denominator is zero (`readNumber_exact`).
-/

namespace Footrule

open Literal

/--
What is denoted by a text without blanks around it: a number, or nothing for a fraction whose
denominator is zero.
-/
inductive Denotes : List Char → Option Rat → Prop
  | empty : Denotes [] (some 0)
  | point : Denotes ['.'] (some 0)
  /-- `12` -/
  | whole {run : List Char} : PlainRun run → Denotes run (some (digitsValue run))
  /-- `12.` -/
  | wholePoint {run : List Char} : PlainRun run →
      Denotes (run ++ ['.']) (some (digitsValue run))
  /-- `1.5` -/
  | decimal {run decimals : List Char} : PlainRun run → PlainRun decimals →
      Denotes (run ++ '.' :: decimals)
        (some (digitsValue run + digitsValue decimals / Nat.pow 10 decimals.length))
  /-- `.5` -/
  | decimals {decimals : List Char} : PlainRun decimals →
      Denotes ('.' :: decimals) (some (digitsValue decimals / Nat.pow 10 decimals.length))
  /-- `3/8`, with any blanks beside the slash -/
  | fraction {num gap gap' den : List Char} : PlainRun num → (∀ c ∈ gap, isBlank c = true) →
      (∀ c ∈ gap', isBlank c = true) → PlainRun den →
      Denotes (num ++ gap ++ '/' :: (gap' ++ den)) (quotientValue? num den)
  /-- `1 3/4`, with no blanks beside the slash -/
  | mixed {run gap num den : List Char} : PlainRun run → BlankRun gap → PlainRun num →
      PlainRun den →
      Denotes (run ++ gap ++ num ++ '/' :: den)
        ((quotientValue? num den).map fun part => digitsValue run + part)

/-! ## What is denoted is read -/

theorem result_readNumber_trimmed (text : List Char) :
    (readNumber text).result = (readTrimmed (trim text)).result := by
  rw [readNumber, Traced.result_bind]
  rfl

/-- The text is not a mixed fraction and nothing else. -/
def NotMixed (cs : List Char) : Prop :=
  ∀ run gap num den, scan? cs ≠ some (.mixed run gap num den, [])

/-- A text that is no mixed fraction and has one point at most is read about its first slash. -/
theorem NotMixed.readTrimmed {cs : List Char} (h : NotMixed cs) (hp : ¬ 1 < cs.count '.') :
    readTrimmed cs = match splitAtSign? '/' cs with
      | some (num, den) => readFraction num den
      | none => readPlain cs := by
  rw [Footrule.readTrimmed, if_neg hp]
  split
  · next hscan => exact (h _ _ _ _ hscan).elim
  · rfl

/-- A run of digits that no blanks and fraction follow begins no mixed fraction. -/
theorem notMixed_run {run k : List Char} (hr : DigitRun run) (hk : NoDigitFirst k)
    (hs : spacedFraction? k = none) : NotMixed (run ++ k) := by
  intro whole gap num den h
  rw [scan?_append hr hk, continueRun, hs] at h
  cases hslash : signedRun? '/' k <;> cases hpoint : signedRun? '.' k <;>
    simp [hslash, hpoint] at h

section Gaps

variable {run gap : List Char}

/-- A run of digits and blanks holds no other character. -/
theorem not_mem_run_append_gap (h : PlainRun run) (hg : ∀ c ∈ gap, isBlank c = true) {c : Char}
    (hd : isDigit c = false) (hb : isBlank c = false) : c ∉ run ++ gap := by
  intro hc
  rcases List.mem_append.1 hc with hc | hc
  · exact h.digits.not_mem hd hc
  · rw [hg c hc] at hb
    cases hb

theorem readNatural_run_append_gap (h : PlainRun run) (hg : ∀ c ∈ gap, isBlank c = true) :
    readNatural (run ++ gap) = .ok (digitsValue run) := by
  rw [readNatural, trim_append_gap hg, ← readNatural, h.readNatural]

theorem readNatural_gap_append_run (h : PlainRun run) (hg : ∀ c ∈ gap, isBlank c = true) :
    readNatural (gap ++ run) = .ok (digitsValue run) := by
  rw [readNatural, trim_gap_append hg, ← readNatural, h.readNatural]

end Gaps

/-- The text of a literal is read as it is, without being trimmed. -/
theorem Literal.Plain.result_readTrimmed {l : Literal} (hl : l.Plain) :
    (readTrimmed l.text).result = orDivisionByZero l.value? := by
  rw [← result_readNumber hl, result_readNumber_trimmed, trim_text hl.digital]

/-- A fraction is read with blanks beside its slash too. -/
theorem result_readTrimmed_fraction {num gap gap' den : List Char} (hn : PlainRun num)
    (hg : ∀ c ∈ gap, isBlank c = true) (hg' : ∀ c ∈ gap', isBlank c = true) (hd : PlainRun den) :
    (readTrimmed (num ++ gap ++ '/' :: (gap' ++ den))).result =
      orDivisionByZero (quotientValue? num den) := by
  have hmixed : NotMixed (num ++ gap ++ '/' :: (gap' ++ den)) := by
    rw [List.append_assoc]
    exact notMixed_run hn.digits (noDigitFirst_gap_slash hg _) (spacedFraction?_gap_slash hg _)
  have hpoint : (num ++ gap ++ '/' :: (gap' ++ den)).count '.' = 0 := by
    have hleft : '.' ∉ num ++ gap := not_mem_run_append_gap hn hg (by decide) (by decide)
    have hright : '.' ∉ den ++ gap' := not_mem_run_append_gap hd hg' (by decide) (by decide)
    refine List.count_eq_zero.2 fun hmem => ?_
    rcases List.mem_append.1 hmem with h | h
    · exact hleft h
    · rcases List.mem_cons.1 h with h | h
      · exact absurd h (by decide)
      · exact hright (List.mem_append.2 (List.mem_append.1 h).symm)
  have hslash : splitAtSign? '/' (num ++ gap ++ '/' :: (gap' ++ den)) =
      some (num ++ gap, gap' ++ den) :=
    splitAtSign?_append (not_mem_run_append_gap hn hg (by decide) (by decide)) _
  rw [hmixed.readTrimmed (by omega), hslash]
  exact result_readFraction (readNatural_run_append_gap hn hg) (readNatural_gap_append_run hd hg')

/-- A whole number is read with a point after it too. -/
theorem result_readTrimmed_point {run : List Char} (hr : PlainRun run) :
    (readTrimmed (run ++ ['.'])).result = .ok (digitsValue run : Rat) := by
  have hmixed : NotMixed (run ++ ['.']) :=
    notMixed_run hr.digits (noDigitFirst_point []) (spacedFraction?_cons (by decide) [])
  have hcount : (run ++ ['.']).count '.' = 1 := by
    rw [List.count_append, List.count_eq_zero.2 (hr.digits.not_mem (by decide))]
    rfl
  have hslash : splitAtSign? '/' (run ++ ['.']) = none := by
    refine splitAtSign?_eq_none fun hmem => ?_
    rcases List.mem_append.1 hmem with h | h
    · exact hr.digits.not_mem (by decide) h
    · exact absurd h (by decide)
  have hread := result_readPlain_decimal hr.2 (List.forall_mem_nil _)
    (List.append_ne_nil_of_left_ne_nil hr.1 [])
  have hzero : (digitsValue run + digitsValue [] / (Nat.pow 10 0 : Nat) : Rat) =
      digitsValue run := by
    have hnone : digitsValue [] = 0 := rfl
    rw [hnone]
    grind
  rw [hmixed.readTrimmed (by omega), hslash]
  exact hread.trans (congrArg Except.ok hzero)

/-- **What a text denotes is what is read.** -/
theorem Denotes.result_readTrimmed {cs : List Char} {v? : Option Rat} (h : Denotes cs v?) :
    (readTrimmed cs).result = orDivisionByZero v? := by
  cases h with
  | empty => rfl
  | point => rfl
  | whole hr => exact Literal.Plain.result_readTrimmed (l := .whole _) hr
  | wholePoint hr => exact result_readTrimmed_point hr
  | decimal hr hd => exact Literal.Plain.result_readTrimmed (l := .decimal _ _) ⟨hr.2, hd⟩
  | @decimals decimals hd =>
    have hread := Literal.Plain.result_readTrimmed (l := .decimal [] decimals)
      ⟨List.forall_mem_nil _, hd⟩
    have hzero : (digitsValue [] : Rat) = 0 := rfl
    rw [value?, hzero, Rat.zero_add] at hread
    exact hread
  | fraction hn hg hg' hd => exact result_readTrimmed_fraction hn hg hg' hd
  | mixed hr hg hn hd =>
    exact Literal.Plain.result_readTrimmed (l := .mixed _ _ _ _) ⟨hr, hg, hn, hd⟩

/-! ## What denotes nothing is refused -/

/-- A text is read as a natural number exactly if it is a run of digits between blanks. -/
theorem readNatural_eq_ite (cs : List Char) :
    readNatural cs =
      if PlainRun (trim cs) then .ok (digitsValue (trim cs)) else .error .invalidNumber := by
  have hdigits : (trim cs ≠ [] ∧ (trim cs).all Char.isDigit = true) ↔ PlainRun (trim cs) := by
    rw [List.all_eq_true, PlainRun]
  by_cases h : PlainRun (trim cs)
  · rw [if_pos h]
    exact if_pos (hdigits.2 h)
  · rw [if_neg h]
    exact if_neg (mt hdigits.1 h)

theorem trim_run {run : List Char} (h : DigitRun run) : trim run = run := trim_of_forall h.isBlank

/-- A mixed fraction is refused if not all of its digits are ASCII digits. -/
theorem denotes_or_invalid_mixed {run gap num den : List Char}
    (h : (Literal.mixed run gap num den).Digital) :
    (∃ v?, Denotes (Literal.mixed run gap num den).text v?) ∨
      (readMixed run num den).result = .error .invalidNumber := by
  obtain ⟨hr, hg, hn, hd⟩ := h
  by_cases hplain : PlainRun run ∧ PlainRun num ∧ PlainRun den
  · exact .inl ⟨_, .mixed hplain.1 hg hplain.2.1 hplain.2.2⟩
  · right
    simp only [readMixed, readNatural_eq_ite, trim_run hr, trim_run hn, trim_run hd,
      Traced.result_bind, Traced.liftM_eq, Traced.result_ofExcept]
    by_cases hrun : PlainRun run
    · by_cases hnum : PlainRun num
      · have hden : ¬ PlainRun den := fun hden => hplain ⟨hrun, hnum, hden⟩
        rw [if_pos hrun, if_pos hnum, if_neg hden]
        rfl
      · rw [if_pos hrun, if_neg hnum]
        rfl
    · rw [if_neg hrun]
      rfl

/-- A text that begins with no blank is what is left when it is trimmed, and blanks. -/
theorem exists_eq_trim_append {cs : List Char} (h : ∀ c ∈ cs.head?, isBlank c = false) :
    ∃ gap, (∀ c ∈ gap, isBlank c = true) ∧ cs = trim cs ++ gap := by
  obtain ⟨gap, gap', hg, hg', hcs⟩ := exists_eq_gap_trim_gap cs
  cases gap with
  | nil => exact ⟨gap', hg', hcs⟩
  | cons c gap =>
    have hc := h c (by rw [hcs]; rfl)
    rw [hg c List.mem_cons_self] at hc
    cases hc

/-- A text that ends with no blank is blanks, and what is left when it is trimmed. -/
theorem exists_eq_append_trim {cs : List Char} (h : ∀ c ∈ cs.getLast?, isBlank c = false) :
    ∃ gap, (∀ c ∈ gap, isBlank c = true) ∧ cs = gap ++ trim cs := by
  obtain ⟨gap, gap', hg, hg', hcs⟩ := exists_eq_gap_trim_gap cs
  rcases List.eq_nil_or_concat gap' with rfl | ⟨init, c, rfl⟩
  · exact ⟨gap, hg, by rwa [List.append_nil] at hcs⟩
  · have hc := h c (by rw [hcs, List.concat_eq_append]; simp)
    rw [hg' c (by simp)] at hc
    cases hc

/-- A fraction is refused if there are not just digits on both sides, but for blanks. -/
theorem denotes_or_invalid_fraction {num den : List Char}
    (hfirst : ∀ c ∈ (num ++ '/' :: den).head?, isBlank c = false)
    (hlast : ∀ c ∈ (num ++ '/' :: den).getLast?, isBlank c = false) :
    (∃ v?, Denotes (num ++ '/' :: den) v?) ∨
      (readFraction num den).result = .error .invalidNumber := by
  by_cases hnum : PlainRun (trim num)
  · by_cases hden : PlainRun (trim den)
    · left
      obtain ⟨gap, hg, hn⟩ := exists_eq_trim_append fun c hc => hfirst c <| by
        rw [List.head?_append, Option.mem_def.1 hc]
        rfl
      obtain ⟨gap', hg', hd⟩ := exists_eq_append_trim fun c hc => hlast c <| by
        rw [List.getLast?_append, List.getLast?_cons, Option.mem_def.1 hc]
        rfl
      rw [hn, hd]
      exact ⟨_, .fraction hnum hg hg' hden⟩
    · right
      simp only [readFraction, readNatural_eq_ite, Traced.result_bind, Traced.liftM_eq,
        Traced.result_ofExcept, if_pos hnum, if_neg hden]
      rfl
  · right
    simp only [readFraction, readNatural_eq_ite, Traced.result_bind, Traced.liftM_eq,
      Traced.result_ofExcept, if_neg hnum]
    rfl

theorem eq_of_splitAtSign? {sign : Char} {cs before after : List Char}
    (h : splitAtSign? sign cs = some (before, after)) : cs = before ++ sign :: after := by
  unfold splitAtSign? at h
  split at h
  · cases h
  · next c rest hdrop =>
    obtain ⟨rfl, rfl⟩ := Prod.mk.inj (Option.some.inj h)
    have hhead := List.head?_dropWhile_not (fun c => decide (c ≠ sign)) cs
    rw [hdrop] at hhead
    obtain rfl : c = sign := by simpa using hhead
    rw [← hdrop, List.takeWhile_append_dropWhile]

/-- Digits with a point among them denote a number, if there are any digits. -/
theorem exists_denotes_decimal {run decimals : List Char} (hne : run ++ decimals ≠ [])
    (h : ∀ c ∈ run ++ decimals, c.isDigit = true) :
    ∃ v?, Denotes (run ++ '.' :: decimals) v? := by
  obtain ⟨hr, hd⟩ := List.forall_mem_append.1 h
  by_cases hrun : run = []
  · subst hrun
    exact ⟨_, .decimals ⟨hne, hd⟩⟩
  · by_cases hdec : decimals = []
    · subst hdec
      exact ⟨_, .wholePoint ⟨hrun, hr⟩⟩
    · exact ⟨_, .decimal ⟨hrun, hr⟩ ⟨hdec, hd⟩⟩

/-- A text without a slash is refused if it is not digits with one point among them at most. -/
theorem denotes_or_invalid_plain (cs : List Char) :
    (∃ v?, Denotes cs v?) ∨ (readPlain cs).result = .error .invalidNumber := by
  by_cases hempty : cs = [] ∨ cs = ['.']
  · rcases hempty with rfl | rfl
    · exact .inl ⟨_, .empty⟩
    · exact .inl ⟨_, .point⟩
  have hinvalid (h : readDecimal cs = .error .invalidNumber) :
      (readPlain cs).result = .error .invalidNumber := by
    rw [readPlain, if_neg hempty, h]
    rfl
  cases hsplit : splitAtSign? '.' cs with
  | none =>
    by_cases hdigits : cs ++ [] ≠ [] ∧ (cs ++ []).all Char.isDigit = true
    · rw [List.append_nil, List.all_eq_true] at hdigits
      exact .inl ⟨_, .whole hdigits⟩
    · refine .inr (hinvalid ?_)
      rw [readDecimal, hsplit]
      exact if_neg hdigits
  | some found =>
    obtain ⟨run, decimals⟩ := found
    by_cases hdigits : run ++ decimals ≠ [] ∧ (run ++ decimals).all Char.isDigit = true
    · rw [List.all_eq_true] at hdigits
      rw [eq_of_splitAtSign? hsplit]
      exact .inl (exists_denotes_decimal hdigits.1 hdigits.2)
    · refine .inr (hinvalid ?_)
      rw [readDecimal, hsplit]
      exact if_neg hdigits

/-- **A text that denotes nothing is refused.** -/
theorem denotes_or_invalid {cs : List Char} (hfirst : ∀ c ∈ cs.head?, isBlank c = false)
    (hlast : ∀ c ∈ cs.getLast?, isBlank c = false) :
    (∃ v?, Denotes cs v?) ∨ (readTrimmed cs).result = .error .invalidNumber := by
  by_cases hp : 1 < cs.count '.'
  · right
    rw [readTrimmed, if_pos hp]
    rfl
  by_cases hmixed : ∃ run gap num den, scan? cs = some (.mixed run gap num den, [])
  · obtain ⟨run, gap, num, den, hscan⟩ := hmixed
    have hcs := append_of_scan? hscan
    rw [List.append_nil] at hcs
    rw [readTrimmed, if_neg hp, hscan, hcs]
    exact denotes_or_invalid_mixed (digital_of_scan? hscan)
  · have hnot : NotMixed cs := fun run gap num den h => hmixed ⟨run, gap, num, den, h⟩
    rw [hnot.readTrimmed hp]
    cases hsplit : splitAtSign? '/' cs with
    | none => exact denotes_or_invalid_plain cs
    | some found =>
      obtain ⟨num, den⟩ := found
      obtain rfl := eq_of_splitAtSign? hsplit
      exact denotes_or_invalid_fraction hfirst hlast

/-! ## The reader and its grammar -/

/-- What a text denotes is not negative. -/
theorem Denotes.nonneg {cs : List Char} {v? : Option Rat} (h : Denotes cs v?) :
    ∀ v ∈ v?, 0 ≤ v := by
  have hquotient (num den : List Char) : ∀ v ∈ quotientValue? num den, 0 ≤ v := by
    intro v hv
    unfold quotientValue? at hv
    split at hv
    · cases hv
    · cases hv
      positivity
  cases h with
  | fraction => exact hquotient _ _
  | mixed =>
    intro v hv
    obtain ⟨part, hpart, rfl⟩ := Option.map_eq_some_iff.1 hv
    have hpart := hquotient _ _ part hpart
    positivity
  | _ =>
    intro v hv
    cases hv
    positivity

theorem orDivisionByZero_injective {α : Type} {a b : Option α}
    (h : orDivisionByZero a = orDivisionByZero b) : a = b := by
  cases a <;> cases b <;> cases h <;> rfl

theorem orDivisionByZero_ne_invalid {α : Type} (a : Option α) :
    orDivisionByZero a ≠ .error .invalidNumber := by
  cases a <;> exact nofun

/-- Something is read, or a zero denominator found, exactly where a text denotes it. -/
theorem result_readNumber_iff {text : List Char} {v? : Option Rat} :
    (readNumber text).result = orDivisionByZero v? ↔ Denotes (trim text) v? := by
  rw [result_readNumber_trimmed]
  refine ⟨fun h => ?_, Denotes.result_readTrimmed⟩
  rcases denotes_or_invalid (isBlank_head_trim text) (isBlank_getLast_trim text) with
    ⟨w?, hw⟩ | hinv
  · rw [hw.result_readTrimmed] at h
    rwa [← orDivisionByZero_injective h]
  · exact (orDivisionByZero_ne_invalid v? (h.symm.trans hinv)).elim

theorem result_readNumber_eq_invalid_iff {text : List Char} :
    (readNumber text).result = .error .invalidNumber ↔ ∀ v?, ¬ Denotes (trim text) v? := by
  refine ⟨fun h v? hv => ?_, fun h => ?_⟩
  · exact orDivisionByZero_ne_invalid v? ((result_readNumber_iff.2 hv).symm.trans h)
  · rw [result_readNumber_trimmed]
    exact (denotes_or_invalid (isBlank_head_trim text) (isBlank_getLast_trim text)).resolve_left
      fun ⟨v?, hv⟩ => h v? hv

/--
**The number reader accepts exactly the written numbers.** A text is read as the number that it
denotes without the blanks around it, which is not negative. A fraction with denominator zero is a
division by zero, and every other text is no valid number.
-/
theorem readNumber_exact (text : List Char) :
    (∀ v, (readNumber text).result = .ok v ↔ Denotes (trim text) (some v)) ∧
      (∀ v, Denotes (trim text) (some v) → 0 ≤ v) ∧
      ((readNumber text).result = .error .divisionByZero ↔ Denotes (trim text) none) ∧
      ((readNumber text).result = .error .invalidNumber ↔ ∀ v?, ¬ Denotes (trim text) v?) ∧
      CalcError.invalidNumber.kind.label = "ValueError" ∧
      CalcError.invalidNumber.message = "Invalid number" := by
  refine ⟨fun v => ?_, fun v hv => hv.nonneg v rfl, ?_, result_readNumber_eq_invalid_iff, rfl, rfl⟩
  · exact @result_readNumber_iff text (some v)
  · exact @result_readNumber_iff text none

/-- A fraction may have blanks beside its slash, but a mixed fraction may not. -/
example : (readNumber " 3 / 8 ".toList).result = .ok (3 / 8) ∧
    (readNumber "1 3 / 8".toList).result = .error .invalidNumber := by decide +kernel

end Footrule
