import Footrule.Proofs.Plain.Modes
import Footrule.Proofs.Plain.Severed
import Footrule.Proofs.Plain.Spacing

/-!
# Blanks beside marks in basic mode

Where no number is severed, basic mode reads a text as it reads the evenly spaced one
(`spacedAlike`). The induction is on the length of the text: what follows a number or a mark is read
alike, and so is what a division sign divides by (`dividesAlike`). Texts that differ only in the
blanks beside their marks therefore have the same value in basic mode, except that a severed text
has none (`evaluateExpression_basic_respaced`).
-/

namespace Footrule

open Formula

/-! ## Evenly spaced divisions -/

section Division

variable {afterMark : Bool} {dividend gap gap' run decimals k : List Char}

theorem spaced_decimals (h : Divisor run decimals k) :
    spaced false (decimals ++ k) = decimals ++ spaced false k := by
  cases h with
  | whole => rfl
  | decimal _ hd => rw [List.cons_append, spaced_point, spaced_append (neither_of_digits hd.2)]; rfl

theorem spaced_division (h : Divisor run decimals k) (hn : DigitRun dividend)
    (hg : ∀ c ∈ gap, isBlank c = true) (hg' : ∀ c ∈ gap', isBlank c = true) :
    spaced afterMark (dividend ++ (gap ++ '/' :: (gap' ++ (run ++ (decimals ++ k))))) =
      dividend ++ ([' '] ++ '/' :: ([' '] ++ (run ++ (decimals ++ spaced false k)))) := by
  rw [spaced_run hn, spaced_gap_slash hg, spaced_true_gap hg', spaced_run h.digitRun,
    spaced_decimals h]
  rfl

/-- A division sign that no division follows is kept in the evenly spaced text. -/
theorem joinFractions_spaced_slash (h : Division.scan? (trimStart k) = none) :
    joinFractions (spaced afterMark ('/' :: k)) =
      ' ' :: '/' :: ' ' :: joinFractions (spaced true k) := by
  have hscan : Division.scan? (trimStart (' ' :: spaced true k)) = none := by
    rw [show ' ' :: spaced true k = [' '] ++ spaced true k from rfl,
      trimStart_append_of_blank blank_space, scan?_spaced_eq_none h]
  rw [show '/' = (Mark.operator .div).sign from rfl, spaced_sign,
    joinFractions_cons (by decide) (by decide), show (Mark.operator .div).sign = '/' from rfl,
    joinFractions_slash hscan, joinFractions_cons (by decide) (by decide)]

/-- A division after a division sign is kept in the evenly spaced text. -/
theorem joinFractions_spaced_division {first : List Char} (h : Divisor run decimals k)
    (hf : ∀ c ∈ first, isBlank c = true) (hn : DigitRun dividend)
    (hg : ∀ c ∈ gap, isBlank c = true) (hg' : ∀ c ∈ gap', isBlank c = true) :
    joinFractions (spaced afterMark
        ('/' :: (first ++ (dividend ++ (gap ++ '/' :: (gap' ++ (run ++ (decimals ++ k)))))))) =
      [' '] ++ '/' :: ([' '] ++ (dividend ++ ([' '] ++
        '/' :: ([' '] ++ (run ++ (decimals ++ joinFractions (spaced false k))))))) := by
  have hspaced := @spaced_gap_slash afterMark [] blank_nil
    (first ++ (dividend ++ (gap ++ '/' :: (gap' ++ (run ++ (decimals ++ k))))))
  rw [spaced_true_gap hf, spaced_division h hn hg hg', List.nil_append] at hspaced
  rw [hspaced, joinFractions_cons (by decide) (by decide)]
  exact congrArg _
    (joinFractions_slash_division blank_space hn blank_space blank_space h.spaced)

end Division

/-! ## A number and what follows it -/

/-- What follows a number in a text is alike in the evenly spaced text. -/
inductive AfterNumber (k : List Char) : Prop
  | plain : spacedFraction? (joinFractions k) = none →
      spacedFraction? (joinFractions (spaced false k)) = none → AfterNumber k
  | mixed {gap num den k' : List Char} : BlankRun gap → DigitRun num → DigitRun den →
      NoDigitFirst k' → k'.length ≤ k.length →
      joinFractions k = gap ++ (num ++ '/' :: (den ++ joinFractions k')) →
      joinFractions (spaced false k) =
        gap ++ (num ++ '/' :: (den ++ joinFractions (spaced false k'))) → AfterNumber k

theorem afterNumber {k : List Char} (hk : NoDigitFirst k) (h : Unsevered (joinFractions k)) :
    AfterNumber k := by
  obtain ⟨gap, hblank, he⟩ := exists_eq_gap_append k
  cases hd : digitRun? (trimStart k) with
  | none =>
    have hfirst := noDigitFirst_of_digitRun? hd
    refine .plain (spacedFraction?_of_noDigit ?_) (spacedFraction?_of_noDigit ?_)
    · rwa [NoDigitFirst, head?_trimStart_joinFractions]
    · rwa [NoDigitFirst, head?_trimStart_joinFractions, head?_trimStart_spaced]
  | some found =>
    obtain ⟨num, k₁⟩ := found
    obtain ⟨hrun, hn, hk₁⟩ := digitRun?_eq_some_iff_append.1 hd
    rw [hrun] at he
    clear hd hrun
    subst he
    have hg : BlankRun gap := by
      refine ⟨?_, hblank⟩
      rintro rfl
      obtain ⟨c, num, rfl⟩ := List.exists_cons_of_ne_nil hn.1
      have hc := hk c rfl
      rw [hn.2 c List.mem_cons_self] at hc
      cases hc
    have hhead : ∀ c ∈ (num ++ k₁).head?, isBlank c = false ∧ isMark c = false := by
      obtain ⟨c, num, rfl⟩ := List.exists_cons_of_ne_nil hn.1
      intro c' hc'
      rw [← Option.some.inj hc']
      exact neither_of_digits hn.2 c List.mem_cons_self
    cases divided k₁ with
    | no hno =>
      have hjoin : joinFractions (gap ++ (num ++ k₁)) = gap ++ (num ++ joinFractions k₁) := by
        rw [joinFractions_blank hg.2, joinFractions_run hn.2 hk₁ hno]
      have hspaced : joinFractions (spaced false (gap ++ (num ++ k₁))) =
          gap ++ (num ++ joinFractions (spaced false k₁)) := by
        rw [spaced_gap hg.2 hhead, spaced_run hn, joinFractions_blank hg.2,
          joinFractions_run hn.2 hk₁.spaced hno.spaced]
      refine .plain ?_ ?_
      · rw [hjoin]
        exact spacedFraction?_of_not_slash hg hn hk₁.joinFractions
          (signedRun?_slash_of_noDivision hno)
      · rw [hspaced]
        exact spacedFraction?_of_not_slash hg hn hk₁.spaced.joinFractions (slash_spaced k₁)
    | @divisor g g' run decimals k' hgb hgb' hdiv =>
      by_cases hne : decimals = []
      · subst hne
        refine .mixed hg hn hdiv.digitRun hdiv.noDigitFirst ?_ ?_ ?_
        · simp only [List.length_append, List.length_cons]
          omega
        · rw [joinFractions_blank hg.2, List.nil_append, joinFractions_whole hn hgb hgb' hdiv]
        · rw [spaced_gap hg.2 hhead, spaced_division hdiv hn hgb hgb', joinFractions_blank hg.2,
            List.nil_append, joinFractions_whole hn blank_space blank_space hdiv.spaced]
      · have hjoin := joinFractions_decimal hn hgb hgb' hdiv hne
        have hspaced := joinFractions_decimal hn blank_space blank_space hdiv.spaced hne
        rw [joinFractions_blank hg.2, hjoin] at h
        refine .plain ?_ ?_
        · rw [joinFractions_blank hg.2, hjoin]
          have hloose := (h.of_gap hg.2).loose hn hdiv.joinFractions hne
          exact spacedFraction?_of_not_slash hg hn (noDigitFirst_gap_slash hgb _)
            (signedRun?_slash_of_loose hgb hgb' hloose _)
        · rw [spaced_gap hg.2 hhead, spaced_division hdiv hn hgb hgb', joinFractions_blank hg.2,
            hspaced]
          exact spacedFraction?_of_not_slash hg hn (noDigitFirst_gap_slash blank_space _)
            (signedRun?_slash_of_loose blank_space blank_space (.inl (List.cons_ne_nil _ _)) _)

/-! ## Reading numbers -/

/-- What is read of a number and the text after it, which may make it a mixed fraction. -/
def numberReading (run t : List Char) : Option (List Token) :=
  match spacedFraction? t with
  | some ((_, num, den), rest) => (basicReading false rest).map (sumTokens run num den ++ ·)
  | none => (basicReading false t).map (.number run none :: ·)

section Reading

variable {afterDiv : Bool} {gap gap' run num den k t : List Char}

theorem numberReading_of_none (h : spacedFraction? t = none) (run : List Char) :
    numberReading run t = (basicReading false t).map (.number run none :: ·) := by
  rw [numberReading, h]

theorem numberReading_gap (hg : BlankRun gap) (hn : DigitRun num) (hd : DigitRun den)
    (ht : NoDigitFirst t) (run : List Char) :
    numberReading run (gap ++ (num ++ '/' :: (den ++ t))) =
      (basicReading false t).map (sumTokens run num den ++ ·) := by
  rw [numberReading, Literal.spacedFraction?_eq_some_iff.2 ⟨rfl, hg, hn, hd, ht⟩]

theorem basicReading_number (hr : DigitRun run) (ht : NoDigitFirst t)
    (hs : signedRun? '/' t = none) (hp : signedRun? '.' t = none) :
    basicReading afterDiv (run ++ t) = numberReading run t := by
  cases hf : spacedFraction? t with
  | none => rw [basicReading_whole hr ⟨ht, hs, hp, hf⟩, numberReading_of_none hf]
  | some found =>
    obtain ⟨rfl, hg, hn, hd, hk⟩ := Literal.spacedFraction?_eq_some_iff.1 hf
    rw [basicReading_mixed hr hg hn hd hk, numberReading_gap hg hn hd hk]

/-- After a division sign a fraction is a number and what it is divided by. -/
theorem basicReading_tight (hn : DigitRun num) (hd : DigitRun den) (ht : NoDigitFirst t) :
    basicReading true (num ++ '/' :: (den ++ t)) =
      (numberReading den t).map fun ts => .number num none :: .mark (.operator .div) :: ts := by
  cases hf : spacedFraction? t with
  | none =>
    rw [basicReading_fraction hn hd ht hf, numberReading_of_none hf, Option.map_map]
    rfl
  | some found =>
    obtain ⟨rfl, hg, hnum, hden, hk⟩ := Literal.spacedFraction?_eq_some_iff.1 hf
    rw [basicReading_divided hn hd (spacedFraction?_ne_none hg hnum hden hk),
      basicReading_mixed hd hg hnum hden hk, numberReading_gap hg hnum hden hk]

/-- A division sign with blanks beside it is read as it stands. -/
theorem basicReading_loose (hr : DigitRun run) (hg : ∀ c ∈ gap, isBlank c = true)
    (hg' : ∀ c ∈ gap', isBlank c = true) (h : gap ≠ [] ∨ gap' ≠ []) (t : List Char) :
    basicReading afterDiv (run ++ (gap ++ '/' :: (gap' ++ t))) =
      (basicReading true t).map fun ts => .number run none :: .mark (.operator .div) :: ts := by
  rw [basicReading_whole hr (endsRun_of_loose hg hg' h t), basicReading_gap_slash hg hg',
    Option.map_map]
  rfl

end Reading

/-! ## Reading evenly spaced texts -/

/-- A text is read as the evenly spaced one is, if no number is severed in it. -/
def SpacedAlike (cs : List Char) : Prop :=
  ∀ afterDiv afterMark, Unsevered (joinFractions cs) →
    (afterDiv = true → Division.scan? (trimStart cs) = none) →
    basicReading afterDiv (joinFractions cs) =
      basicReading afterDiv (joinFractions (spaced afterMark cs))

/-- Texts of at most the given length are read as the evenly spaced ones are. -/
def SpacedUpTo (n : Nat) : Prop := ∀ k, k.length ≤ n → SpacedAlike k

section Alike

variable {afterDiv afterMark : Bool} {dividend gap gap' run decimals k : List Char}

theorem SpacedUpTo.alike (h : SpacedUpTo k.length) (hk : Unsevered (joinFractions k)) :
    basicReading false (joinFractions k) = basicReading false (joinFractions (spaced false k)) :=
  h k (Nat.le_refl _) false false hk nofun

theorem SpacedUpTo.mono {m n : Nat} (h : SpacedUpTo n) (hm : m ≤ n) : SpacedUpTo m :=
  fun k hk => h k (Nat.le_trans hk hm)

/-- A number is read alike. -/
theorem numberReading_spaced (hk : NoDigitFirst k) (h : Unsevered (joinFractions k))
    (ih : SpacedUpTo k.length) (run : List Char) :
    numberReading run (joinFractions k) = numberReading run (joinFractions (spaced false k)) := by
  cases afterNumber hk h with
  | plain hf hf' => rw [numberReading_of_none hf, numberReading_of_none hf', ih.alike h]
  | mixed hg hn hd hk' hlen hjoin hspaced =>
    rw [hjoin] at h ⊢
    have hrest := (h.of_gap hg.2).of_fraction hn hd hk'.joinFractions
    rw [hspaced, numberReading_gap hg hn hd hk'.joinFractions,
      numberReading_gap hg hn hd hk'.spaced.joinFractions, (ih.mono hlen).alike hrest]

/-- A decimal is read alike. -/
theorem basicReading_decimal_spaced (hr : ∀ c ∈ run, isDigit c = true) (hd : DigitRun decimals)
    (hk : NoDigitFirst k) (h : Unsevered (joinFractions k)) (ih : SpacedUpTo k.length) :
    basicReading afterDiv (run ++ '.' :: (decimals ++ joinFractions k)) =
      basicReading afterDiv (run ++ '.' :: (decimals ++ joinFractions (spaced false k))) := by
  cases afterNumber hk h with
  | plain hf hf' =>
    rw [basicReading_decimal hr hd hk.joinFractions hf,
      basicReading_decimal hr hd hk.spaced.joinFractions hf', ih.alike h]
  | mixed hg hn hd' hk' hlen hjoin hspaced =>
    rw [hjoin, hspaced,
      basicReading_point_mixed hr hd (spacedFraction?_ne_none hg hn hd' hk'.joinFractions),
      basicReading_point_mixed hr hd (spacedFraction?_ne_none hg hn hd' hk'.spaced.joinFractions)]

/-- What follows a division sign with blanks beside it. -/
theorem Unsevered.of_loose {t : List Char}
    (h : Unsevered (dividend ++ (gap ++ '/' :: (gap' ++ t)))) (hn : DigitRun dividend)
    (hg : ∀ c ∈ gap, isBlank c = true) (hg' : ∀ c ∈ gap', isBlank c = true)
    (hloose : gap ≠ [] ∨ gap' ≠ []) : Unsevered t := by
  have hends := endsRun_of_loose hg hg' hloose t
  exact (h.of_run hn hends.noDigitFirst hends.slash hends.point).of_gap_slash hg hg'

/-- The text after a number that is divided by: a number follows, and no division after it. -/
theorem basicReading_tight_number {den : List Char} (hr : DigitRun run) (hd : DigitRun den)
    (hk : NoDigitFirst k) (hno : NoDivision k)
    (h : Unsevered (run ++ joinFractions ('/' :: (den ++ k)))) (ih : SpacedUpTo k.length) :
    basicReading true (run ++ joinFractions ('/' :: (den ++ k))) =
      basicReading true (run ++ joinFractions (spaced false ('/' :: (den ++ k)))) := by
  have hscan : Division.scan? (trimStart (den ++ k)) = none := by
    rw [trimStart_eq_self (Literal.isBlank_head_run hd k), Division.scan?_run hd hk, hno]
  have hspaced : joinFractions (spaced false ('/' :: (den ++ k))) =
      [' '] ++ '/' :: ([' '] ++ (den ++ joinFractions (spaced false k))) := by
    rw [joinFractions_spaced_slash hscan, spaced_run hd,
      joinFractions_run hd.2 hk.spaced hno.spaced]
    rfl
  have hpoint : signedRun? '.' k = none := by
    cases hp : signedRun? '.' k with
    | none => rfl
    | some found =>
      obtain ⟨rfl, hdec, hk'⟩ := signedRun?_eq_some_iff.1 hp
      obtain ⟨t, ht, hfirst⟩ := exists_joinFractions_run hdec hk'
      rw [joinFractions_slash hscan, joinFractions_run hd.2 hk hno,
        joinFractions_cons (by decide) (by decide), ht] at h
      exact (h.false_of_fraction hr hd hdec hfirst).elim
  rw [joinFractions_slash hscan, joinFractions_run hd.2 hk hno] at h ⊢
  rw [hspaced, basicReading_tight hr hd hk.joinFractions,
    basicReading_loose hr blank_space blank_space (.inl (List.cons_ne_nil _ _)),
    basicReading_number hd hk.spaced.joinFractions (slash_spaced k)
      (signedRun?_point_joinFractions (point_spaced hpoint)),
    numberReading_spaced hk (h.of_fraction hr hd hk.joinFractions) ih]

/-- **What a division sign divides by is read alike.** -/
theorem dividesAlike (hdiv : Divisor run decimals k)
    (h : Unsevered (run ++ (decimals ++ joinFractions k))) (ih : SpacedUpTo k.length) :
    basicReading true (run ++ (decimals ++ joinFractions k)) =
      basicReading true (run ++ (decimals ++ joinFractions (spaced false k))) := by
  induction hn : k.length using Nat.strongRecOn generalizing run decimals k with
  | ind n hrec =>
  subst hn
  cases hdiv with
  | decimal hr hd hk =>
    exact basicReading_decimal_spaced hr.2 hd hk (h.of_decimal hr.2 hd hk.joinFractions) ih
  | whole hr hk hp =>
    rw [List.nil_append] at h
    rw [List.nil_append, List.nil_append]
    have hpoint := signedRun?_point_joinFractions hp
    cases hs : signedRun? '/' (joinFractions k) with
    | none =>
      rw [basicReading_number hr hk.joinFractions hs hpoint,
        basicReading_number hr hk.spaced.joinFractions (slash_spaced k)
          (signedRun?_point_joinFractions (point_spaced hp)),
        numberReading_spaced hk (h.of_run hr hk.joinFractions hs hpoint) ih]
    | some found =>
      obtain ⟨den, k₁, rfl, hd, hk₁⟩ := exists_of_signedRun?_slash hs
      clear hs hpoint hp hk
      cases divided k₁ with
      | no hno =>
        refine basicReading_tight_number hr hd hk₁ hno h (ih.mono ?_)
        simp only [List.length_append, List.length_cons]
        omega
      | @divisor gap gap' run' decimals k' hg hg' hdiv =>
        -- The number is divided by the next one, and the quotient by the divisor after that.
        rw [← List.nil_append (den ++ _)] at h ⊢
        rw [joinFractions_slash_division blank_nil hd hg hg' hdiv, List.nil_append] at h ⊢
        have hrest := (h.of_fraction hr hd (noDigitFirst_gap_slash hg _)).of_gap_slash hg hg'
        have hlen : k'.length <
            ('/' :: (den ++ (gap ++ '/' :: (gap' ++ (run' ++ (decimals ++ k')))))).length := by
          simp only [List.length_append, List.length_cons]
          omega
        rw [joinFractions_spaced_division hdiv blank_nil hd hg hg',
          basicReading_tight hr hd (noDigitFirst_gap_slash hg _),
          numberReading_of_none (spacedFraction?_gap_slash hg _), basicReading_gap_slash hg hg',
          hrec _ hlen hdiv hrest (ih.mono (Nat.le_of_lt hlen)) rfl,
          basicReading_loose hr blank_space blank_space (.inl (List.cons_ne_nil _ _)),
          basicReading_loose hd blank_space blank_space (.inl (List.cons_ne_nil _ _)),
          Option.map_map, Option.map_map, Option.map_map]
        rfl

/-- A division after a division sign is read alike. -/
theorem basicReading_division_spaced (hdiv : Divisor run decimals k) (hn : DigitRun dividend)
    (hg : ∀ c ∈ gap, isBlank c = true) (hg' : ∀ c ∈ gap', isBlank c = true)
    (h : Unsevered (dividend ++ (gap ++ '/' :: (gap' ++ (run ++ (decimals ++ joinFractions k))))))
    (ih : SpacedUpTo k.length) :
    basicReading true
        (dividend ++ (gap ++ '/' :: (gap' ++ (run ++ (decimals ++ joinFractions k))))) =
      (basicReading true (run ++ (decimals ++ joinFractions (spaced false k)))).map
        fun ts => .number dividend none :: .mark (.operator .div) :: ts := by
  by_cases hloose : gap ≠ [] ∨ gap' ≠ []
  · rw [basicReading_loose hn hg hg' hloose, dividesAlike hdiv (h.of_loose hn hg hg' hloose) ih]
  · obtain ⟨rfl, rfl⟩ : gap = [] ∧ gap' = [] := by simpa using hloose
    have hnil : decimals = [] := by
      by_cases hne : decimals = []
      · exact hne
      · exact absurd (h.loose hn hdiv.joinFractions hne) hloose
    subst hnil
    simp only [List.nil_append] at h ⊢
    cases hdiv with
    | whole hr hk hp =>
      rw [basicReading_tight hn hr hk.joinFractions,
        numberReading_spaced hk (h.of_fraction hn hr hk.joinFractions) ih,
        ← basicReading_number hr hk.spaced.joinFractions (slash_spaced k)
          (signedRun?_point_joinFractions (point_spaced hp))]

/-- The decimals of a number are read alike, with the text after them. -/
theorem basicReading_point_spaced (hr : ∀ c ∈ run, isDigit c = true) (hd : DigitRun decimals)
    (hk : NoDigitFirst k) (h : Unsevered (run ++ '.' :: joinFractions (decimals ++ k)))
    (ih : SpacedUpTo k.length) :
    basicReading afterDiv (run ++ '.' :: joinFractions (decimals ++ k)) =
      basicReading afterDiv (run ++ '.' :: joinFractions (spaced false (decimals ++ k))) := by
  cases divided k with
  | no hno =>
    rw [joinFractions_run hd.2 hk hno] at h ⊢
    rw [spaced_run hd, joinFractions_run hd.2 hk.spaced hno.spaced]
    exact basicReading_decimal_spaced hr hd hk (h.of_decimal hr hd hk.joinFractions) ih
  | @divisor gap gap' run' decimals' k' hg hg' hdiv =>
    have hdecimal {g g' : List Char} (hg : ∀ c ∈ g, isBlank c = true)
        (hg' : ∀ c ∈ g', isBlank c = true) (t : List Char) :
        basicReading afterDiv (run ++ '.' :: (decimals ++ (g ++ '/' :: (g' ++ t)))) =
          (basicReading true t).map fun ts =>
            .number (run ++ '.' :: decimals) none :: .mark (.operator .div) :: ts := by
      rw [basicReading_decimal hr hd (noDigitFirst_gap_slash hg _) (spacedFraction?_gap_slash hg _),
        basicReading_gap_slash hg hg', Option.map_map]
      rfl
    obtain ⟨g, g', hgb, hgb', hjoin⟩ := exists_joinFractions_division hd hg hg' hdiv
    obtain ⟨e, e', heb, heb', hspaced⟩ :=
      exists_joinFractions_division hd blank_space blank_space hdiv.spaced
    rw [hjoin] at h
    have hrest := (h.of_decimal hr hd (noDigitFirst_gap_slash hgb _)).of_gap_slash hgb hgb'
    have halike := dividesAlike hdiv hrest (ih.mono (by
      simp only [List.length_append, List.length_cons]
      omega))
    rw [spaced_division hdiv hd hg hg', hjoin, hspaced, hdecimal hgb hgb', hdecimal heb heb',
      halike]

/-! ### One piece of a text after the other -/

theorem spacedAlike_blank {c : Char} (hc : isBlank c = true) (ih : SpacedUpTo k.length) :
    SpacedAlike (c :: k) := by
  intro afterDiv afterMark h hdiv
  have hd : isDigit c = false := isDigit_eq_false_of_isBlank hc
  have hs : c ≠ '/' := by
    rintro rfl
    exact absurd hc (by decide)
  have htrim : trimStart (c :: k) = trimStart k := List.dropWhile_cons_of_pos hc
  rw [htrim] at hdiv
  rw [joinFractions_cons hd hs] at h ⊢
  have hk : Unsevered (joinFractions k) := h.of_lexemes (lexemes_blank hc .basic _)
  rw [basicReading_blank hc, spaced, if_pos hc]
  split
  · exact ih k (Nat.le_refl _) afterDiv afterMark hk hdiv
  · rw [joinFractions_cons hd hs, basicReading_blank hc]
    exact ih k (Nat.le_refl _) afterDiv false hk hdiv

theorem spacedAlike_slash (ih : SpacedUpTo k.length) : SpacedAlike ('/' :: k) := by
  intro afterDiv afterMark h _
  rcases slash_cases k with hscan | ⟨first, dividend, gap, gap', run, decimals, k', hf, hn, hg, hg',
    hdiv, rfl⟩
  · rw [joinFractions_slash hscan] at h ⊢
    rw [joinFractions_spaced_slash hscan, basicReading_slash, basicReading_blank (by decide),
      basicReading_slash, basicReading_blank (by decide),
      ih k (Nat.le_refl _) true true h.of_slash fun _ => hscan]
  · rw [joinFractions_slash_division hf hn hg hg' hdiv] at h ⊢
    have halike := basicReading_division_spaced hdiv hn hg hg' (h.of_slash.of_gap hf) (ih.mono (by
      simp only [List.length_append, List.length_cons]
      omega))
    rw [joinFractions_spaced_division hdiv hf hn hg hg', basicReading_slash, basicReading_gap hf,
      halike, basicReading_gap_slash blank_space blank_space,
      basicReading_loose hn blank_space blank_space (.inl (List.cons_ne_nil _ _))]

theorem spacedAlike_sign {m : Mark} (hm : m ≠ .operator .div) (ih : SpacedUpTo k.length) :
    SpacedAlike (m.sign :: k) := by
  intro afterDiv afterMark h _
  have hs : m.sign ≠ '/' := by
    cases m with
    | operator o => cases o <;> first | decide | exact absurd rfl hm
    | _ => decide
  have hspaced : joinFractions (spaced afterMark (m.sign :: k)) =
      ' ' :: m.sign :: ' ' :: joinFractions (spaced true k) := by
    rw [spaced_sign, joinFractions_cons (by decide) (by decide),
      joinFractions_cons m.sign_neither.1 hs, joinFractions_cons (by decide) (by decide)]
  rw [joinFractions_cons m.sign_neither.1 hs] at h ⊢
  have hk : Unsevered (joinFractions k) := h.of_lexemes (lexemes_sign m .basic _)
  have halike := ih k (Nat.le_refl _) (m = .operator .div) true hk
    fun he => absurd (of_decide_eq_true he) hm
  rw [hspaced, basicReading_blank (c := ' ') (by decide), basicReading_sign, basicReading_sign,
    basicReading_blank (c := ' ') (by decide), halike]

theorem spacedAlike_point (ih : SpacedUpTo k.length) : SpacedAlike ('.' :: k) := by
  intro afterDiv afterMark h _
  rw [joinFractions_cons (by decide) (by decide)] at h ⊢
  rw [spaced_point, joinFractions_cons (by decide) (by decide)]
  cases hd : digitRun? k with
  | none =>
    have hk := noDigitFirst_of_digitRun? hd
    rw [basicReading_point hk.joinFractions, basicReading_point hk.spaced.joinFractions]
  | some found =>
    obtain ⟨rfl, hr, hk⟩ := digitRun?_eq_some_iff_append.1 hd
    refine basicReading_point_spaced no_digits hr hk h (ih.mono ?_)
    simp only [List.length_append]
    omega

theorem spacedAlike_stray {c : Char} (hd : isDigit c = false) (hp : c ≠ '.')
    (hb : isBlank c = false) (hm : Mark.ofSign? c = none) : SpacedAlike (c :: k) := by
  intro afterDiv afterMark _ _
  have hs : c ≠ '/' := by
    rintro rfl
    exact absurd hm (by decide)
  rw [spaced_cons hb (by simp [isMark, hm]), joinFractions_cons hd hs, joinFractions_cons hd hs,
    basicReading_stray hd hp hb hm, basicReading_stray hd hp hb hm]

/-- A number that no division follows. -/
theorem spacedAlike_run (hr : DigitRun run) (hk : NoDigitFirst k) (hno : NoDivision k)
    (ih : SpacedUpTo k.length) : SpacedAlike (run ++ k) := by
  intro afterDiv afterMark h _
  rw [joinFractions_run hr.2 hk hno] at h ⊢
  rw [spaced_run hr, joinFractions_run hr.2 hk.spaced hno.spaced]
  cases hp : signedRun? '.' k with
  | none =>
    have hs := signedRun?_slash_of_noDivision hno
    have hpoint := signedRun?_point_joinFractions hp
    rw [basicReading_number hr hk.joinFractions hs hpoint,
      basicReading_number hr hk.spaced.joinFractions (slash_spaced k)
        (signedRun?_point_joinFractions (point_spaced hp)),
      numberReading_spaced hk (h.of_run hr hk.joinFractions hs hpoint) ih]
  | some found =>
    obtain ⟨rfl, hd, hk'⟩ := signedRun?_eq_some_iff.1 hp
    rw [joinFractions_cons (by decide) (by decide)] at h ⊢
    rw [spaced_point, joinFractions_cons (by decide) (by decide)]
    refine basicReading_point_spaced hr.2 hd hk' h (ih.mono ?_)
    simp only [List.length_append, List.length_cons]
    omega

/-- A number and a divisor: a fraction, or a division by a mixed fraction or by a decimal. -/
theorem spacedAlike_division (hn : DigitRun dividend) (hg : ∀ c ∈ gap, isBlank c = true)
    (hg' : ∀ c ∈ gap', isBlank c = true) (hdiv : Divisor run decimals k)
    (ih : SpacedUpTo k.length) :
    SpacedAlike (dividend ++ (gap ++ '/' :: (gap' ++ (run ++ (decimals ++ k))))) := by
  intro afterDiv afterMark h hdivides
  have hfirst : afterDiv = false := by
    refine Bool.eq_false_iff.2 fun he => ?_
    have hscan := hdivides he
    rw [trimStart_eq_self (Literal.isBlank_head_run hn _), hdiv.scan? hg hg' hn] at hscan
    cases hscan
  subst hfirst
  rw [spaced_division hdiv hn hg hg']
  by_cases hne : decimals = []
  · subst hne
    have hjoin := joinFractions_whole hn hg hg' hdiv
    have hspaced := joinFractions_whole hn blank_space blank_space hdiv.spaced
    have hk := hdiv.noDigitFirst
    simp only [List.nil_append] at h ⊢
    rw [hjoin] at h ⊢
    rw [hspaced]
    have hrest := h.of_fraction hn hdiv.digitRun hk.joinFractions
    cases afterNumber hk hrest with
    | plain hf hf' =>
      rw [basicReading_fraction hn hdiv.digitRun hk.joinFractions hf,
        basicReading_fraction hn hdiv.digitRun hk.spaced.joinFractions hf', ih.alike hrest]
    | mixed hgap hnum hden hk' hlen hjoin' hspaced' =>
      rw [hjoin'] at hrest
      have halike := (ih.mono hlen).alike
        ((hrest.of_gap hgap.2).of_fraction hnum hden hk'.joinFractions)
      rw [hjoin', hspaced',
        basicReading_divided hn hdiv.digitRun
          (spacedFraction?_ne_none hgap hnum hden hk'.joinFractions),
        basicReading_divided hn hdiv.digitRun
          (spacedFraction?_ne_none hgap hnum hden hk'.spaced.joinFractions),
        basicReading_mixed hdiv.digitRun hgap hnum hden hk'.joinFractions,
        basicReading_mixed hdiv.digitRun hgap hnum hden hk'.spaced.joinFractions, halike]
  · rw [joinFractions_decimal hn hg hg' hdiv hne] at h ⊢
    have hloose := h.loose hn hdiv.joinFractions hne
    rw [joinFractions_decimal hn blank_space blank_space hdiv.spaced hne,
      basicReading_loose hn hg hg' hloose,
      basicReading_loose hn blank_space blank_space (.inl (List.cons_ne_nil _ _)),
      dividesAlike hdiv (h.of_loose hn hg hg' hloose) ih]

/-- **A text is read as the evenly spaced one is.** -/
theorem spacedAlike (cs : List Char) : SpacedAlike cs := by
  induction hlen : cs.length using Nat.strongRecOn generalizing cs with
  | ind n ih =>
    subst hlen
    have hrest {k : List Char} (hk : k.length < cs.length) : SpacedUpTo k.length := fun k' hk' =>
      ih _ (Nat.lt_of_le_of_lt hk' hk) k' rfl
    clear ih
    cases beginning cs with
    | nil => exact fun _ _ _ _ => rfl
    | @other c k hc =>
      have hk : SpacedUpTo k.length := hrest (Nat.lt_succ_self _)
      cases noDigit hc with
      | blank hb => exact spacedAlike_blank hb hk
      | sign m =>
        by_cases hm : m = .operator .div
        · subst hm
          exact spacedAlike_slash hk
        · exact spacedAlike_sign hm hk
      | point => exact spacedAlike_point hk
      | stray hd hp hb hm => exact spacedAlike_stray hd hp hb hm
    | @run run k hr hk =>
      have hlen : 0 < run.length := List.length_pos_iff.2 hr.1
      cases divided k with
      | no hno =>
        refine spacedAlike_run hr hk hno (hrest ?_)
        simp only [List.length_append]
        omega
      | divisor hg hg' hdiv =>
        refine spacedAlike_division hr hg hg' hdiv (hrest ?_)
        simp only [List.length_append, List.length_cons]
        omega

end Alike

/-! ## The value of a respaced expression -/

/-- Texts that differ only in the blanks beside their marks are read alike. -/
theorem basicReading_respaced {cs cs' : List Char} (h : Respaced cs cs')
    (hcs : Unsevered (joinFractions cs)) (hcs' : Unsevered (joinFractions cs')) :
    basicReading false (joinFractions cs) = basicReading false (joinFractions cs') := by
  rw [spacedAlike cs false false hcs nofun, spacedAlike cs' false false hcs' nofun,
    h.spaced_eq false]

theorem unsevered_of_basic {u : OutputUnit} {cs : List Char} {q : Quantity}
    (h : (evaluateExpression .basic u cs).result = .ok q) : Unsevered (joined cs) := by
  obtain ⟨ts, hts, hq⟩ := evaluateExpression_basic_eq_ok_iff.1 h
  refine Bool.eq_false_iff.2 fun hsevered => ?_
  obtain ⟨e, he⟩ := (collides_of_severed hsevered hts).fails
  rw [he] at hq
  cases hq

/--
**Blanks beside marks do not count in basic mode, except where they keep a decimal whole.** When
blanks are added or taken away directly before or after some marks of an expression that has a
value, it has the same value, unless a fraction then takes the whole part of a decimal; then it has
none.
-/
theorem evaluateExpression_basic_respaced {u : OutputUnit} {cs cs' : List Char} {q : Quantity}
    (hrespaced : Respaced cs cs') (h : (evaluateExpression .basic u cs).result = .ok q) :
    (severed (lexemes .basic (joined cs')) = false →
      (evaluateExpression .basic u cs').result = .ok q) ∧
    (severed (lexemes .basic (joined cs')) = true → (evaluateExpression .basic u cs').Fails) := by
  refine ⟨fun hcs' => ?_, fun hsevered => ?_⟩
  · obtain ⟨ts, hts, hq⟩ := evaluateExpression_basic_eq_ok_iff.1 h
    refine evaluateExpression_basic_eq_ok_iff.2 ⟨ts, ?_, hq⟩
    rw [← hts]
    exact (basicReading_respaced hrespaced.trim.plainSigns (unsevered_of_basic h) hcs').symm
  · cases hv : (evaluateExpression .basic u cs').result with
    | error e => exact ⟨e, hv⟩
    | ok v =>
      have hcs' := unsevered_of_basic hv
      rw [Unsevered, hsevered] at hcs'
      cases hcs'

theorem evaluateExpression_basic_respaced_division :
    (evaluateExpression .basic .feetInches "8/2 - 1".toList).result = .ok ⟨3, false⟩ :=
  (evaluateExpression_basic_respaced (.symm (.before "8".toList (.operator .div) "2 - 1".toList
    blank_space)) (by decide +kernel)).1 (by decide +kernel)

/-- A division by a decimal has a value only if there are blanks beside its sign. -/
theorem exists_respaced_fails :
    Respaced "7 / 3.5".toList "7/3.5".toList ∧
      (evaluateExpression .basic .feetInches "7 / 3.5".toList).result = .ok ⟨2, false⟩ ∧
      (evaluateExpression .basic .feetInches "7/3.5".toList).result = .error .missingOperator := by
  refine ⟨.symm (.trans (.after "7".toList (.operator .div) "3.5".toList blank_space)
    (.before "7".toList (.operator .div) " 3.5".toList blank_space)), ?_, ?_⟩ <;> decide +kernel

end Footrule
