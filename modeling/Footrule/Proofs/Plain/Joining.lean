import Footrule.Proofs.Plain.Sums

/-!
# Joining fractions in any text

The way in which a text goes on after a run of digits decides whether a fraction is joined there
(`Divided`): a divisor may follow, with blanks beside the division sign, and it is a whole number or
a decimal (`Divisor`). There is one equation for each way, and one for a division after a division
sign, which is left as it is. The first character of a text is kept (`head?_joinFractions`), and so
is what decides how a number goes on: a division sign, a point or a gap before a fraction is found
after the joined number where it stands after the number itself.
-/

namespace Footrule

open Formula

/-! ## Divisors -/

/-- A run of digits with its decimals, if there are any, and what follows the number. -/
inductive Divisor (run : List Char) : List Char → List Char → Prop
  | whole {k : List Char} :
      DigitRun run → NoDigitFirst k → signedRun? '.' k = none → Divisor run [] k
  | decimal {decimals k : List Char} :
      DigitRun run → DigitRun decimals → NoDigitFirst k → Divisor run ('.' :: decimals) k

/-- How a text goes on after a run of digits: with a divisor or without. -/
inductive Divided : List Char → Prop
  | no {k : List Char} : NoDivision k → Divided k
  | divisor {gap gap' run decimals k : List Char} : (∀ c ∈ gap, isBlank c = true) →
      (∀ c ∈ gap', isBlank c = true) → Divisor run decimals k →
      Divided (gap ++ '/' :: (gap' ++ (run ++ (decimals ++ k))))

theorem divided (k : List Char) : Divided k := by
  obtain ⟨gap, hgap, hk⟩ := exists_eq_gap_append k
  cases hs : trimStart k with
  | nil => exact .no fun dividend gap => by rw [hs]; rfl
  | cons c cs =>
    by_cases hc : c = '/'
    · subst hc
      obtain ⟨gap', hgap', hcs⟩ := exists_eq_gap_append cs
      cases hd : digitRun? (trimStart cs) with
      | none =>
        refine .no fun dividend gap => ?_
        rw [hs, Division.continueWith?, if_pos rfl, hd]
        rfl
      | some found =>
        obtain ⟨run, k'⟩ := found
        obtain ⟨hrun, hr, hk'⟩ := digitRun?_eq_some_iff_append.1 hd
        rw [hk, hs, hcs, hrun]
        cases hp : signedRun? '.' k' with
        | none => exact .divisor hgap hgap' (.whole hr hk' hp)
        | some found =>
          obtain ⟨rfl, hdec, hk''⟩ := signedRun?_eq_some_iff.1 hp
          exact .divisor hgap hgap' (.decimal hr hdec hk'')
    · refine .no fun dividend gap => ?_
      rw [hs, Division.continueWith?, if_neg hc]

theorem noDigitFirst_gap_slash {gap : List Char} (hg : ∀ c ∈ gap, isBlank c = true)
    (k : List Char) : NoDigitFirst (gap ++ '/' :: k) := by
  cases gap with
  | nil => exact Literal.noDigitFirst_slash k
  | cons c gap => exact Literal.noDigitFirst_gap ⟨List.cons_ne_nil c gap, hg⟩

namespace Divisor

variable {run decimals k : List Char}

theorem digitRun (h : Divisor run decimals k) : DigitRun run := by
  cases h with
  | whole hr => exact hr
  | decimal hr => exact hr

theorem noDigitFirst (h : Divisor run decimals k) : NoDigitFirst k := by
  cases h with
  | whole _ hk => exact hk
  | decimal _ _ hk => exact hk

theorem noDigitFirst_append (h : Divisor run decimals k) : NoDigitFirst (decimals ++ k) := by
  cases h with
  | whole _ hk => exact hk
  | decimal => exact Literal.noDigitFirst_point _

theorem decimalsOf (h : Divisor run decimals k) :
    Division.decimalsOf (decimals ++ k) = (decimals, k) := by
  cases h with
  | whole _ _ hp => rw [List.nil_append, Division.decimalsOf, hp]
  | decimal _ hd hk => rw [List.cons_append, Division.decimalsOf, signedRun?_append hd hk]

variable {gap gap' : List Char}

/-- The division that a number before the divisor begins. -/
theorem continueWith? (h : Divisor run decimals k) (hg : ∀ c ∈ gap, isBlank c = true)
    (hg' : ∀ c ∈ gap', isBlank c = true) (dividend : List Char) :
    Division.continueWith? dividend
        (List.takeWhile isBlank (gap ++ '/' :: (gap' ++ (run ++ (decimals ++ k)))))
        (trimStart (gap ++ '/' :: (gap' ++ (run ++ (decimals ++ k))))) =
      some (⟨dividend, gap, gap', run, decimals⟩, k) := by
  have hslash : ∀ c ∈ ('/' :: (gap' ++ (run ++ (decimals ++ k)))).head?, isBlank c = false :=
    fun c hc => by rw [← Option.some.inj hc]; decide
  rw [takeWhile_append_of_head hg hslash, trimStart_append_of_blank hg, trimStart_eq_self hslash,
    Division.continueWith?_slash hg' h.digitRun h.noDigitFirst_append, h.decimalsOf]

theorem scan? (h : Divisor run decimals k) (hg : ∀ c ∈ gap, isBlank c = true)
    (hg' : ∀ c ∈ gap', isBlank c = true) {dividend : List Char} (hd : DigitRun dividend) :
    Division.scan? (dividend ++ (gap ++ '/' :: (gap' ++ (run ++ (decimals ++ k))))) =
      some (⟨dividend, gap, gap', run, decimals⟩, k) := by
  rw [Division.scan?_run hd (noDigitFirst_gap_slash hg _), h.continueWith? hg hg']

end Divisor

/-! ## Joining -/

section Joining

variable {run decimals gap gap' k : List Char}

theorem joinFractions_cons {c : Char} (hc : isDigit c = false) (hs : c ≠ '/') (k : List Char) :
    joinFractions (c :: k) = c :: joinFractions k := by
  refine @joinFractions_kept [c] (fun d hd => ?_) k
  rw [List.mem_singleton.1 hd]
  exact ⟨hc, hs⟩

/-- Where no division follows it, a division sign is kept. -/
theorem joinFractions_slash (h : Division.scan? (trimStart k) = none) :
    joinFractions ('/' :: k) = '/' :: joinFractions k := by
  refine Rule.pass_of_not_fire ?_
  simp only [fractionRule, joinedFraction?, if_true, h, Option.map_none]

/-- A division after a division sign is left as it is written. -/
theorem joinFractions_slash_division {first dividend : List Char}
    (hf : ∀ c ∈ first, isBlank c = true) (hd : DigitRun dividend)
    (hg : ∀ c ∈ gap, isBlank c = true) (hg' : ∀ c ∈ gap', isBlank c = true)
    (h : Divisor run decimals k) :
    joinFractions
        ('/' :: (first ++ (dividend ++ (gap ++ '/' :: (gap' ++ (run ++ (decimals ++ k))))))) =
      '/' :: (first ++ (dividend ++
        (gap ++ '/' :: (gap' ++ (run ++ (decimals ++ joinFractions k)))))) := by
  have hhead := Literal.isBlank_head_run hd (gap ++ '/' :: (gap' ++ (run ++ (decimals ++ k))))
  have htrim : trimStart (first ++ (dividend ++
      (gap ++ '/' :: (gap' ++ (run ++ (decimals ++ k)))))) =
        dividend ++ (gap ++ '/' :: (gap' ++ (run ++ (decimals ++ k)))) := by
    rw [trimStart_append_of_blank hf, trimStart_eq_self hhead]
  have hfire : joinedFraction? ('/' :: (first ++ (dividend ++
      (gap ++ '/' :: (gap' ++ (run ++ (decimals ++ k))))))) =
        some ('/' :: first ++ (⟨dividend, gap, gap', run, decimals⟩ : Division).text, k) := by
    rw [joinedFraction?, if_pos rfl, htrim, h.scan? hg hg' hd, takeWhile_append_of_head hf hhead]
    rfl
  refine (Rule.pass_of_fire hfire).trans ?_
  simp [Division.text, joinFractions]

/-- A number and a whole number that divides it are written as a fraction. -/
theorem joinFractions_whole {dividend : List Char} (hd : DigitRun dividend)
    (hg : ∀ c ∈ gap, isBlank c = true) (hg' : ∀ c ∈ gap', isBlank c = true)
    (h : Divisor run [] k) :
    joinFractions (dividend ++ (gap ++ '/' :: (gap' ++ (run ++ k)))) =
      dividend ++ '/' :: (run ++ joinFractions k) := by
  have hc := h.continueWith? hg hg' dividend
  rw [List.nil_append] at hc
  rw [joinFractions_division hd (noDigitFirst_gap_slash hg _) hc]
  simp [Division.joined]

/-- A decimal divisor keeps the division as it is written. -/
theorem joinFractions_decimal {dividend : List Char} (hd : DigitRun dividend)
    (hg : ∀ c ∈ gap, isBlank c = true) (hg' : ∀ c ∈ gap', isBlank c = true)
    (h : Divisor run decimals k) (hne : decimals ≠ []) :
    joinFractions (dividend ++ (gap ++ '/' :: (gap' ++ (run ++ (decimals ++ k))))) =
      dividend ++ (gap ++ '/' :: (gap' ++ (run ++ (decimals ++ joinFractions k)))) := by
  rw [joinFractions_division hd (noDigitFirst_gap_slash hg _) (h.continueWith? hg hg' dividend)]
  simp [Division.joined, Division.text, hne]

/-- A division sign is followed by a division, or it is kept. -/
theorem slash_cases (k : List Char) :
    Division.scan? (trimStart k) = none ∨
      ∃ first dividend gap gap' run decimals k', (∀ c ∈ first, isBlank c = true) ∧
        DigitRun dividend ∧ (∀ c ∈ gap, isBlank c = true) ∧ (∀ c ∈ gap', isBlank c = true) ∧
        Divisor run decimals k' ∧
        k = first ++ (dividend ++ (gap ++ '/' :: (gap' ++ (run ++ (decimals ++ k'))))) := by
  obtain ⟨first, hf, hk⟩ := exists_eq_gap_append k
  cases hd : digitRun? (trimStart k) with
  | none => exact .inl (Division.scan?_eq_none (noDigitFirst_of_digitRun? hd))
  | some found =>
    obtain ⟨dividend, k₁⟩ := found
    obtain ⟨hrun, hr, hk₁⟩ := digitRun?_eq_some_iff_append.1 hd
    rw [hrun] at hk ⊢
    clear hd hrun
    cases divided k₁ with
    | no h => exact .inl ((Division.scan?_run hr hk₁).trans (h _ _))
    | divisor hg hg' h => exact .inr ⟨first, dividend, _, _, _, _, _, hf, hr, hg, hg', h, hk⟩

/-- Joining fractions keeps the first character. -/
theorem head?_joinFractions (k : List Char) : (joinFractions k).head? = k.head? := by
  cases beginning k with
  | nil => rw [joinFractions, Rule.pass_nil]
  | @other c k hc =>
    by_cases hs : c = '/'
    · subst hs
      rcases slash_cases k with h | ⟨_, _, _, _, _, _, _, hf, hd, hg, hg', h, rfl⟩
      · rw [joinFractions_slash h]
        rfl
      · rw [joinFractions_slash_division hf hd hg hg' h]
        rfl
    · rw [joinFractions_cons hc hs]
      rfl
  | @run run k hr hk =>
    obtain ⟨c, run, rfl⟩ := List.exists_cons_of_ne_nil hr.1
    cases divided k with
    | no h =>
      rw [joinFractions_run hr.2 hk h]
      rfl
    | @divisor _ _ _ decimals _ hg hg' h =>
      by_cases hne : decimals = []
      · subst hne
        rw [List.nil_append, joinFractions_whole hr hg hg' h]
        rfl
      · rw [joinFractions_decimal hr hg hg' h hne]
        rfl

theorem NoDigitFirst.joinFractions (hk : NoDigitFirst k) : NoDigitFirst (joinFractions k) := by
  rwa [NoDigitFirst, head?_joinFractions]

end Joining

/-! ## What follows a number in a joined text -/

section Joined

variable {dividend gap gap' run decimals k t : List Char}

theorem signedRun?_slash_of_loose (hg : ∀ c ∈ gap, isBlank c = true)
    (hg' : ∀ c ∈ gap', isBlank c = true) (h : gap ≠ [] ∨ gap' ≠ []) (t : List Char) :
    signedRun? '/' (gap ++ '/' :: (gap' ++ t)) = none := by
  cases gap with
  | nil =>
    have hd : NoDigitFirst (gap' ++ t) :=
      Literal.noDigitFirst_gap ⟨h.resolve_left (fun h => h rfl), hg'⟩
    rw [List.nil_append, signedRun?, if_pos rfl, digitRun?_eq_none hd]
  | cons c gap =>
    refine if_neg ?_
    rintro rfl
    exact absurd (hg _ List.mem_cons_self) (by decide)

theorem signedRun?_slash_of_noDivision (h : NoDivision k) :
    signedRun? '/' (joinFractions k) = none := by
  cases k with
  | nil => rw [joinFractions, Rule.pass_nil]; rfl
  | cons c k =>
    by_cases hc : c = '/'
    · subst hc
      have hno : digitRun? (trimStart k) = none := by
        have hslash : trimStart ('/' :: k) = '/' :: k :=
          trimStart_gap_cons blank_nil (by decide) k
        have hcont := h [] []
        rw [hslash, Division.continueWith?, if_pos rfl, Option.map_eq_none_iff] at hcont
        exact hcont
      have hfirst : NoDigitFirst k := fun c hc => by
        rcases head_of_trimStart (noDigitFirst_of_digitRun? hno) c hc with hb | hd
        · exact isDigit_eq_false_of_isBlank hb
        · exact hd
      rw [joinFractions_slash (Division.scan?_eq_none (noDigitFirst_of_digitRun? hno)), signedRun?,
        if_pos rfl, digitRun?_eq_none hfirst.joinFractions]
    · refine signedRun?_eq_none fun d hd => ?_
      rw [head?_joinFractions] at hd
      rwa [← Option.some.inj hd]

theorem signedRun?_point_joinFractions (h : signedRun? '.' k = none) :
    signedRun? '.' (joinFractions k) = none := by
  cases k with
  | nil => rw [joinFractions, Rule.pass_nil]; rfl
  | cons c k =>
    by_cases hc : c = '.'
    · subst hc
      rw [signedRun?, if_pos rfl] at h
      rw [joinFractions_cons (by decide) (by decide), signedRun?, if_pos rfl,
        digitRun?_eq_none (noDigitFirst_of_digitRun? h).joinFractions]
    · refine signedRun?_eq_none fun d hd => ?_
      rw [head?_joinFractions] at hd
      rwa [← Option.some.inj hd]

theorem Divisor.joinFractions (h : Divisor run decimals k) :
    Divisor run decimals (joinFractions k) := by
  cases h with
  | whole hr hk hp => exact .whole hr hk.joinFractions (signedRun?_point_joinFractions hp)
  | decimal hr hd hk => exact .decimal hr hd hk.joinFractions

/-- Joining fractions keeps a division sign and the character after it. -/
theorem exists_joinFractions_slash (k : List Char) :
    ∃ t, joinFractions ('/' :: k) = '/' :: t ∧ t.head? = k.head? := by
  rcases slash_cases k with h | ⟨first, dividend, _, _, _, _, _, hf, hd, hg, hg', h, rfl⟩
  · exact ⟨_, joinFractions_slash h, head?_joinFractions k⟩
  · have hhead (t : List Char) :
        (first ++ (dividend ++ t)).head? = (first ++ dividend).head? := by
      have hne : first ++ dividend ≠ [] := fun he => hd.1 (List.append_eq_nil_iff.1 he).2
      obtain ⟨c, cs, hc⟩ := List.exists_cons_of_ne_nil hne
      rw [← List.append_assoc, hc]
      rfl
    exact ⟨_, joinFractions_slash_division hf hd hg hg' h, (hhead _).trans (hhead _).symm⟩

/-- A division of numbers is kept, but for the blanks beside its sign. -/
theorem exists_joinFractions_division (hr : DigitRun dividend) (hg : ∀ c ∈ gap, isBlank c = true)
    (hg' : ∀ c ∈ gap', isBlank c = true) (h : Divisor run decimals k) :
    ∃ g g', (∀ c ∈ g, isBlank c = true) ∧ (∀ c ∈ g', isBlank c = true) ∧
      joinFractions (dividend ++ (gap ++ '/' :: (gap' ++ (run ++ (decimals ++ k))))) =
        dividend ++ (g ++ '/' :: (g' ++ (run ++ (decimals ++ joinFractions k)))) := by
  by_cases hne : decimals = []
  · subst hne
    exact ⟨[], [], blank_nil, blank_nil, joinFractions_whole hr hg hg' h⟩
  · exact ⟨gap, gap', hg, hg', joinFractions_decimal hr hg hg' h hne⟩

/-- Joining fractions keeps the run of digits at the start of a text. -/
theorem exists_joinFractions_run (hr : DigitRun run) (hk : NoDigitFirst k) :
    ∃ t, joinFractions (run ++ k) = run ++ t ∧ NoDigitFirst t := by
  cases divided k with
  | no hno => exact ⟨_, joinFractions_run hr.2 hk hno, hk.joinFractions⟩
  | divisor hg hg' hdiv =>
    obtain ⟨g, g', hgb, -, hjoin⟩ := exists_joinFractions_division hr hg hg' hdiv
    exact ⟨_, hjoin, noDigitFirst_gap_slash hgb _⟩

/-- A division sign with a divisor directly after it was there before. -/
theorem exists_of_signedRun?_slash {den t : List Char}
    (h : signedRun? '/' (joinFractions k) = some (den, t)) :
    ∃ run k', k = '/' :: (run ++ k') ∧ DigitRun run ∧ NoDigitFirst k' := by
  obtain ⟨hk, hden, -⟩ := signedRun?_eq_some_iff.1 h
  have hhead := head?_joinFractions k
  rw [hk] at hhead
  obtain ⟨k₁, rfl⟩ := List.head?_eq_some_iff.1 hhead.symm
  obtain ⟨t₁, ht₁, hfirst⟩ := exists_joinFractions_slash k₁
  obtain rfl : t₁ = den ++ t := (List.cons.inj (ht₁.symm.trans hk)).2
  cases hd : digitRun? k₁ with
  | some found =>
    obtain ⟨rfl, hr, hk'⟩ := digitRun?_eq_some_iff_append.1 hd
    exact ⟨_, _, rfl, hr, hk'⟩
  | none =>
    have hnone : NoDigitFirst (den ++ t) := by
      rw [NoDigitFirst, hfirst]
      exact noDigitFirst_of_digitRun? hd
    obtain ⟨c, den, rfl⟩ := List.exists_cons_of_ne_nil hden.1
    have hc := hnone c rfl
    rw [hden.2 c List.mem_cons_self] at hc
    cases hc

theorem head?_trimStart_joinFractions (k : List Char) :
    (trimStart (joinFractions k)).head? = (trimStart k).head? := by
  obtain ⟨gap, hg, hk⟩ := exists_eq_gap_append k
  have hblank : ∀ c ∈ (joinFractions (trimStart k)).head?, isBlank c = false := by
    rw [head?_joinFractions]
    exact isBlank_head_trimStart k
  conv => lhs; rw [hk]
  rw [joinFractions_blank hg, trimStart_append_of_blank hg, trimStart_eq_self hblank,
    head?_joinFractions]

theorem spacedFraction?_of_noDigit (h : NoDigitFirst (trimStart k)) : spacedFraction? k = none := by
  cases hf : spacedFraction? k with
  | none => rfl
  | some found =>
    obtain ⟨rfl, hg, hn, -, -⟩ := Literal.spacedFraction?_eq_some_iff.1 hf
    obtain ⟨c, cs, hc⟩ := List.exists_cons_of_ne_nil hn.1
    rw [trimStart_append_of_blank hg.2, trimStart_eq_self (Literal.isBlank_head_run hn _), hc] at h
    have hd := h c rfl
    rw [hn.2 c (by rw [hc]; exact List.mem_cons_self)] at hd
    cases hd

/-- Blanks and a number are a fraction where a slash and a divisor follow directly. -/
theorem spacedFraction?_of_not_slash (hg : BlankRun gap) (hr : DigitRun run) (ht : NoDigitFirst t)
    (h : signedRun? '/' t = none) : spacedFraction? (gap ++ (run ++ t)) = none := by
  have hhead := Literal.isBlank_head_run hr t
  have hf : fractionRun? (run ++ t) = none := by
    rw [fractionRun?, digitRun?_append hr ht]
    simp only [Option.bind_some, h, Option.map_none]
  rw [spacedFraction?, takeWhile_append_of_head hg.2 hhead, dropWhile_append_of_head hg.2 hhead, hf]
  obtain ⟨b, bs, rfl⟩ := List.exists_cons_of_ne_nil hg.1
  rfl

end Joined

theorem spacedFraction?_gap_slash {gap : List Char} (hg : ∀ c ∈ gap, isBlank c = true)
    (t : List Char) : spacedFraction? (gap ++ '/' :: t) = none := by
  refine spacedFraction?_of_noDigit ?_
  rw [trimStart_gap_cons hg (by decide)]
  exact Literal.noDigitFirst_slash _

theorem signedRun?_point_gap_slash {gap : List Char} (hg : ∀ c ∈ gap, isBlank c = true)
    (t : List Char) : signedRun? '.' (gap ++ '/' :: t) = none := by
  refine signedRun?_eq_none fun c hc => ?_
  rintro rfl
  cases gap with
  | nil => exact absurd (Option.some.inj hc) (by decide)
  | cons c gap =>
    obtain rfl := Option.some.inj hc
    exact absurd (hg _ List.mem_cons_self) (by decide)

theorem endsRun_of_loose {gap gap' : List Char} (hg : ∀ c ∈ gap, isBlank c = true)
    (hg' : ∀ c ∈ gap', isBlank c = true) (h : gap ≠ [] ∨ gap' ≠ []) (t : List Char) :
    EndsRun (gap ++ '/' :: (gap' ++ t)) where
  noDigitFirst := noDigitFirst_gap_slash hg _
  slash := signedRun?_slash_of_loose hg hg' h t
  point := signedRun?_point_gap_slash hg _
  gap := spacedFraction?_gap_slash hg _

/-- A division sign that is followed by no digit, but for blanks, ends a run of digits. -/
theorem endsRun_of_gap_slash {gap gap' t : List Char} (hg : ∀ c ∈ gap, isBlank c = true)
    (hg' : ∀ c ∈ gap', isBlank c = true) (ht : NoDigitFirst t) :
    EndsRun (gap ++ '/' :: (gap' ++ t)) := by
  by_cases hloose : gap ≠ [] ∨ gap' ≠ []
  · exact endsRun_of_loose hg hg' hloose t
  · obtain ⟨rfl, rfl⟩ : gap = [] ∧ gap' = [] := by simpa using hloose
    exact .cons_of_noDigit (by decide) (by decide) ht

end Footrule
