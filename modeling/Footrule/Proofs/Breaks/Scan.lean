import Footrule.Proofs.Plain.Spacing

/-!
# Scanners stop at breaks

The signs `+`, `-` and `*` and the parentheses belong to no number, unit or fraction, and so a text
breaks at them (`Breaks`). What is found in a text does not depend on what follows its break
(`StopsAtBreaks`): this is shown for every scanner, from the digits up to the rules of the
preparation.
-/

namespace Footrule

open Formula

/-! ## Breaks -/

/-- After its blanks the text ends, or a mark follows that is no division. -/
def Breaks (k : List Char) : Prop :=
  ∀ c ∈ (trimStart k).head?, ∃ m : Mark, m ≠ .operator .div ∧ c = m.sign

/-- The character is a blank, or the sign of a mark that is no division. -/
def StartsBreak (c : Char) : Prop :=
  isBlank c = true ∨ ∃ m : Mark, m ≠ .operator .div ∧ c = m.sign

namespace Mark

theorem eq_div_of_sign {m : Mark} (h : m.sign = '/') : m = .operator .div := by
  have hm := ofSign?_sign m
  rw [h] at hm
  exact (Option.some.inj hm).symm

theorem noLetter_sign (m : Mark) : m.sign.isAlpha = false ∧ m.sign ≠ 'ſ' := by
  cases m with
  | operator o => cases o <;> decide
  | _ => decide

end Mark

namespace StartsBreak

variable {c : Char}

theorem neither (h : StartsBreak c) : isDigit c = false ∧ c ≠ '.' := by
  rcases h with hb | ⟨m, -, rfl⟩
  · refine ⟨isDigit_eq_false_of_isBlank hb, ?_⟩
    rintro rfl
    exact absurd hb (by decide)
  · exact m.sign_neither

theorem ne_slash (h : StartsBreak c) : c ≠ '/' := by
  rcases h with hb | ⟨m, hm, rfl⟩
  · rintro rfl
    exact absurd hb (by decide)
  · exact mt Mark.eq_div_of_sign hm

theorem noLetter (h : StartsBreak c) : c.isAlpha = false ∧ c ≠ 'ſ' := by
  rcases h with hb | ⟨m, -, rfl⟩
  · exact noLetter_of_isBlank hb
  · exact m.noLetter_sign

theorem plainSign (h : StartsBreak c) : plainSign c = c := by
  rcases h with hb | ⟨m, -, rfl⟩
  · have hgap : plainSigns [c] = [c] := plainSigns_gap (List.forall_mem_singleton.2 hb)
    exact List.singleton_inj.1 hgap
  · exact m.plainSign_sign

end StartsBreak

namespace Breaks

variable {k : List Char}

theorem nil : Breaks [] := fun c hc => (Option.not_mem_none c hc).elim

theorem sign {m : Mark} (hm : m ≠ .operator .div) (k : List Char) : Breaks (m.sign :: k) :=
  (forall_head_gap_cons blank_nil m.isBlank_sign k).2 ⟨m, hm, rfl⟩

theorem gap_append {gap : List Char} (hg : ∀ c ∈ gap, isBlank c = true) :
    Breaks (gap ++ k) ↔ Breaks k := by
  rw [Breaks, trimStart_append_of_blank hg, Breaks]

theorem trimStart (h : Breaks k) : Breaks (trimStart k) := by
  rwa [Breaks, trimStart_eq_self (isBlank_head_trimStart k)]

theorem head (h : Breaks k) : ∀ c ∈ k.head?, StartsBreak c := head_of_trimStart h

theorem noDigitFirst (h : Breaks k) : NoDigitFirst k := fun c hc => (h.head c hc).neither.1

theorem noLetterFirst (h : Breaks k) : NoLetterFirst k := fun c hc => (h.head c hc).noLetter

/-- A text that breaks is a gap alone, or a gap and the sign of a mark. -/
theorem cases (h : Breaks k) : (∀ c ∈ k, isBlank c = true) ∨
    ∃ gap m post, (∀ c ∈ gap, isBlank c = true) ∧ m ≠ Mark.operator .div ∧
      k = gap ++ m.sign :: post := by
  rcases blank_or_gap_cons h with hblank | ⟨gap, -, post, hg, ⟨m, hm, rfl⟩, hk⟩
  · exact .inl hblank
  · exact .inr ⟨gap, m, post, hg, hm, hk⟩

end Breaks

/-! ## Scanners -/

section Runs

variable {p : Char → Bool} {k : List Char}

theorem takeWhile_append_of_not_head (hk : ∀ c ∈ k.head?, p c = false) (cs : List Char) :
    (cs ++ k).takeWhile p = cs.takeWhile p := by
  induction cs with
  | nil => exact takeWhile_eq_nil_of_head hk
  | cons c cs ih => simp only [List.cons_append, List.takeWhile_cons, ih]

theorem dropWhile_append_of_not_head (hk : ∀ c ∈ k.head?, p c = false) (cs : List Char) :
    (cs ++ k).dropWhile p = cs.dropWhile p ++ k := by
  induction cs with
  | nil => exact dropWhile_eq_self_of_head hk
  | cons c cs ih =>
    simp only [List.cons_append, List.dropWhile_cons, ih]
    split <;> rfl

/-- A text is blank, or its blanks at the start end before its end. -/
theorem trimStart_append_cases (cs k : List Char) :
    (trimStart cs = [] ∧ trimStart (cs ++ k) = trimStart k) ∨
      ((cs ++ k).takeWhile isBlank = cs.takeWhile isBlank ∧
        trimStart (cs ++ k) = trimStart cs ++ k) := by
  induction cs with
  | nil => exact .inl ⟨rfl, rfl⟩
  | cons c cs ih =>
    by_cases hc : isBlank c = true
    · simpa [trimStart, hc] using ih
    · simp [trimStart, hc]

end Runs

/-- What a scanner finds before a break does not depend on what follows. -/
def StopsAtBreaks {α : Type} (f : List Char → Option (α × List Char)) : Prop :=
  ∀ (cs : List Char) {k : List Char}, Breaks k →
    f (cs ++ k) = (f cs).map fun (found, rest) => (found, rest ++ k)

namespace StopsAtBreaks

variable {α β : Type} {f : List Char → Option (α × List Char)}

theorem bind (hf : StopsAtBreaks f) {g : α → List Char → Option (β × List Char)}
    (hg : ∀ a, StopsAtBreaks (g a)) :
    StopsAtBreaks fun cs => (f cs).bind fun (a, rest) => g a rest := by
  intro cs k hk
  simp only [hf cs hk]
  cases f cs with
  | none => rfl
  | some found => exact hg _ _ hk

theorem map (hf : StopsAtBreaks f) (g : α → β) :
    StopsAtBreaks fun cs => (f cs).map fun (a, rest) => (g a, rest) := by
  intro cs k hk
  simp only [hf cs hk, Option.map_map]
  rfl

/-- Blanks that are passed over first do not matter, if nothing is found in the empty text. -/
theorem afterGap {f : List Char → List Char → Option (α × List Char)}
    (hf : ∀ gap, StopsAtBreaks (f gap)) (hnil : ∀ gap, f gap [] = none) :
    StopsAtBreaks fun cs => f (cs.takeWhile isBlank) (trimStart cs) := by
  intro cs k hk
  rcases trimStart_append_cases cs k with ⟨hnone, happ⟩ | ⟨hgap, happ⟩
  · -- the text is blank, and what breaks it is not found either
    have hbreak := hf ((cs ++ k).takeWhile isBlank) [] hk.trimStart
    rw [hnil] at hbreak
    simp only [hnone, happ, hnil]
    exact hbreak
  · simp only [hgap, happ, hf _ _ hk]

theorem afterBlanks (hf : StopsAtBreaks f) (hnil : f [] = none) :
    StopsAtBreaks fun cs => f (trimStart cs) :=
  afterGap (f := fun _ => f) (fun _ => hf) fun _ => hnil

end StopsAtBreaks

theorem digitRun?_stops : StopsAtBreaks digitRun? := by
  intro cs k hk
  rw [digitRun?, takeWhile_append_of_not_head hk.noDigitFirst,
    dropWhile_append_of_not_head hk.noDigitFirst, digitRun?]
  split <;> rfl

theorem signedRun?_stops {sign : Char} (hsign : ¬ StartsBreak sign) :
    StopsAtBreaks (signedRun? sign) := by
  intro cs k hk
  cases cs with
  | nil =>
    refine signedRun?_eq_none fun c hc => ?_
    rintro rfl
    exact hsign (hk.head c hc)
  | cons c cs =>
    simp only [List.cons_append, signedRun?]
    split
    · exact digitRun?_stops cs hk
    · rfl

theorem not_startsBreak_slash : ¬ StartsBreak '/' := fun h => h.ne_slash rfl

theorem not_startsBreak_point : ¬ StartsBreak '.' := fun h => h.neither.2 rfl

theorem fractionRun?_stops : StopsAtBreaks fractionRun? :=
  digitRun?_stops.bind fun num =>
    (signedRun?_stops not_startsBreak_slash).map fun den => (num, den)

theorem spacedFraction?_stops : StopsAtBreaks spacedFraction? := by
  intro cs k hk
  have hfraction := fractionRun?_stops.afterBlanks rfl cs hk
  simp only [trimStart] at hfraction
  rcases trimStart_append_cases cs k with ⟨hblank, -⟩ | ⟨hgap, -⟩
  · have hnone : fractionRun? (cs.dropWhile isBlank) = none := by
      rw [← trimStart, hblank]
      rfl
    simp only [spacedFraction?, hnone, hfraction, Option.map_none]
    split <;> split <;> rfl
  · simp only [spacedFraction?, hgap, hfraction]
    split
    · rfl
    · simp only [Option.map_map]
      rfl

namespace Literal

theorem continueRun_append (run cs : List Char) {k : List Char} (hk : Breaks k) :
    continueRun run (cs ++ k) = ((continueRun run cs).1, (continueRun run cs).2 ++ k) := by
  unfold continueRun
  rw [signedRun?_stops not_startsBreak_slash cs hk, signedRun?_stops not_startsBreak_point cs hk,
    spacedFraction?_stops cs hk]
  cases signedRun? '/' cs with
  | some found => rfl
  | none =>
    cases signedRun? '.' cs with
    | some found => rfl
    | none => cases spacedFraction? cs <;> rfl

theorem scan?_stops : StopsAtBreaks scan? := by
  intro cs k hk
  unfold scan?
  rw [digitRun?_stops cs hk, signedRun?_stops not_startsBreak_point cs hk]
  cases digitRun? cs with
  | some found => exact congrArg some (continueRun_append _ _ hk)
  | none =>
    simp only [Option.map_none, Option.map_map]
    rfl

end Literal

namespace Division

theorem decimalsOf_append (cs : List Char) {k : List Char} (hk : Breaks k) :
    decimalsOf (cs ++ k) = ((decimalsOf cs).1, (decimalsOf cs).2 ++ k) := by
  unfold decimalsOf
  rw [signedRun?_stops not_startsBreak_point cs hk]
  cases signedRun? '.' cs <;> rfl

theorem continueWith?_stops (dividend gap : List Char) :
    StopsAtBreaks (continueWith? dividend gap) := by
  have hdivisor (gapAfter : List Char) : StopsAtBreaks fun cs =>
      (digitRun? cs).map fun found =>
        ((⟨dividend, gap, gapAfter, found.1, (decimalsOf found.2).1⟩ : Division),
          (decimalsOf found.2).2) := by
    intro cs k hk
    simp only [digitRun?_stops cs hk]
    cases digitRun? cs with
    | none => rfl
    | some found => simp only [Option.map_some, decimalsOf_append _ hk]
  intro cs k hk
  cases cs with
  | nil =>
    cases k with
    | nil => rfl
    | cons c k => exact if_neg (hk.head c rfl).ne_slash
  | cons c cs =>
    simp only [List.cons_append, continueWith?]
    split
    · exact StopsAtBreaks.afterGap hdivisor (fun _ => rfl) cs hk
    · rfl

theorem scan?_stops : StopsAtBreaks scan? :=
  digitRun?_stops.bind fun dividend =>
    .afterGap (continueWith?_stops dividend) fun _ => rfl

end Division

/-! ## Rules -/

theorem fractionRule_stops : StopsAtBreaks fractionRule.fire? := by
  have hkept (gap : List Char) := Division.scan?_stops.map fun d => '/' :: gap ++ d.text
  have hjoined := Division.scan?_stops.map Division.joined
  intro cs k hk
  cases cs with
  | nil =>
    cases k with
    | nil => rfl
    | cons c k =>
      have hnone := hjoined [] hk
      simp only [fractionRule, joinedFraction?, List.nil_append, if_neg (hk.head c rfl).ne_slash]
      exact hnone
  | cons c cs =>
    simp only [fractionRule, List.cons_append, joinedFraction?]
    split
    · next hc =>
      subst hc
      exact StopsAtBreaks.afterGap hkept (fun _ => rfl) cs hk
    · exact hjoined (c :: cs) hk

theorem unitRule_stops : StopsAtBreaks unitRule.fire? := by
  have hname (l : Literal) (gap : List Char) : StopsAtBreaks fun rest =>
      if gap = [] ∨ rest.takeWhile Char.isAlpha = [] then none
      else some (l.text ++ rest.takeWhile Char.isAlpha, rest.dropWhile Char.isAlpha) := by
    intro rest k hk
    have hletter : ∀ c ∈ k.head?, c.isAlpha = false := fun c hc => (hk.noLetterFirst c hc).1
    simp only [takeWhile_append_of_not_head hletter, dropWhile_append_of_not_head hletter]
    split <;> rfl
  intro cs k hk
  simp only [unitRule, joinedUnit?, Literal.scan?_stops cs hk]
  cases Literal.scan? cs with
  | none => rfl
  | some found =>
    exact StopsAtBreaks.afterGap (hname found.1) (fun _ => if_pos (.inr rfl)) found.2 hk

theorem wordAt?_stops {word : List Char} (hword : ∀ c ∈ word, c.isAlpha = true) :
    StopsAtBreaks (wordAt? word) := by
  intro cs k hk
  fun_induction wordAt? word cs with
  | case1 cs => rfl
  | case2 letter word =>
    cases k with
    | nil => rfl
    | cons c k =>
      have hform := isFormOf_eq_false (hword letter List.mem_cons_self) (hk.head c rfl).noLetter
      simp [wordAt?, hform]
  | case3 letter word c cs hc ih =>
    rw [List.cons_append, wordAt?, if_pos hc, ih (List.forall_mem_cons.1 hword).2]
    simp only [Option.map_map]
    rfl
  | case4 letter word c cs hc =>
    rw [List.cons_append, wordAt?, if_neg hc]
    rfl

theorem firstWordAt?_stops {words : List String}
    (hwords : ∀ word ∈ words, ∀ c ∈ word.toList, c.isAlpha = true) :
    StopsAtBreaks (firstWordAt? words) := by
  intro cs k hk
  induction words with
  | nil => rfl
  | cons word words ih =>
    obtain ⟨hword, hwords⟩ := List.forall_mem_cons.1 hwords
    have hfirst := wordAt?_stops hword cs hk
    have hothers := ih hwords
    simp only [firstWordAt?, List.findSome?_cons] at hothers ⊢
    rw [hfirst]
    cases wordAt? word.toList cs with
    | none => exact hothers
    | some found => rfl

theorem measureAt?_stops (u : LengthUnit) : StopsAtBreaks (measureAt? u) :=
  Literal.scan?_stops.bind fun l =>
    (firstWordAt?_stops fun _ hword => (LengthUnit.letters_of_mem_aliases hword).2).map
      fun name => l.text ++ name

theorem feetInchesRule_stops : StopsAtBreaks feetInchesRule.fire? :=
  (measureAt?_stops .foot).bind fun feet =>
    ((measureAt?_stops .inch).afterBlanks rfl).map fun inches => sumOf feet inches

theorem mixedRule_stops : StopsAtBreaks mixedRule.fire? := by
  intro cs k hk
  simp only [mixedRule, mixedSum?, Literal.scan?_stops cs hk]
  cases Literal.scan? cs with
  | none => rfl
  | some found =>
    obtain ⟨l, rest⟩ := found
    cases l <;> rfl

end Footrule
