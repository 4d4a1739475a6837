import Footrule.Proofs.Plain.Accepted
import Footrule.Proofs.Written.Passes

/-!
# How basic mode reads a text

After fractions are joined, basic mode writes the mixed fractions as sums and cuts the outcome into
tokens. Both steps go over a text from the left end, so that they are done together here
(`basicReading`): there is one equation for each way in which a text may begin (`Beginning`) and in
which a run of digits may go on (`Continuation`). A divisor, or the decimals of a number, that go on
as a mixed fraction are taken apart before the number is.
-/

namespace Footrule

open Formula

/-! ## Beginnings -/

/-- How a text begins. -/
inductive Beginning : List Char → Prop
  | nil : Beginning []
  | other {c : Char} {k : List Char} : isDigit c = false → Beginning (c :: k)
  | run {run k : List Char} : DigitRun run → NoDigitFirst k → Beginning (run ++ k)

theorem noDigitFirst_of_digitRun? {cs : List Char} (h : digitRun? cs = none) :
    NoDigitFirst cs := by
  intro c hc
  obtain ⟨k, rfl⟩ := List.head?_eq_some_iff.1 (Option.mem_def.1 hc)
  refine Bool.eq_false_iff.2 fun hd => ?_
  simp [digitRun?, hd] at h

theorem beginning (cs : List Char) : Beginning cs := by
  cases h : digitRun? cs with
  | some found =>
    obtain ⟨rfl, hr, hk⟩ := digitRun?_eq_some_iff_append.1 h
    exact .run hr hk
  | none =>
    cases cs with
    | nil => exact .nil
    | cons c k => exact .other (noDigitFirst_of_digitRun? h c rfl)

/-- The characters that are no digits. -/
inductive NoDigit : Char → Prop
  | blank {c : Char} : isBlank c = true → NoDigit c
  | sign (m : Mark) : NoDigit m.sign
  | point : NoDigit '.'
  | stray {c : Char} : isDigit c = false → c ≠ '.' → isBlank c = false → Mark.ofSign? c = none →
      NoDigit c

theorem noDigit {c : Char} (hc : isDigit c = false) : NoDigit c := by
  cases hm : Mark.ofSign? c with
  | some m => exact Mark.sign_of_ofSign? hm ▸ .sign m
  | none =>
    by_cases hb : isBlank c = true
    · exact .blank hb
    · by_cases hp : c = '.'
      · exact hp ▸ .point
      · exact .stray hc hp (Bool.eq_false_iff.2 hb) hm

/-- What stands here ends a run of digits, which is then a whole number. -/
structure EndsRun (k : List Char) : Prop where
  noDigitFirst : NoDigitFirst k
  slash : signedRun? '/' k = none
  point : signedRun? '.' k = none
  gap : spacedFraction? k = none

/-- How a text goes on after a run of digits. -/
inductive Continuation : List Char → Prop
  | fraction {den k : List Char} : DigitRun den → NoDigitFirst k → Continuation ('/' :: (den ++ k))
  | decimal {decimals k : List Char} :
      DigitRun decimals → NoDigitFirst k → Continuation ('.' :: (decimals ++ k))
  | mixed {gap num den k : List Char} :
      BlankRun gap → DigitRun num → DigitRun den → NoDigitFirst k →
      Continuation (gap ++ (num ++ '/' :: (den ++ k)))
  | whole {k : List Char} : EndsRun k → Continuation k

theorem continuation {k : List Char} (hk : NoDigitFirst k) : Continuation k := by
  cases hs : signedRun? '/' k with
  | some found =>
    obtain ⟨rfl, hd, hk⟩ := signedRun?_eq_some_iff.1 hs
    exact .fraction hd hk
  | none =>
    cases hp : signedRun? '.' k with
    | some found =>
      obtain ⟨rfl, hd, hk⟩ := signedRun?_eq_some_iff.1 hp
      exact .decimal hd hk
    | none =>
      cases hg : spacedFraction? k with
      | some found =>
        obtain ⟨rfl, hg, hn, hd, hk⟩ := Literal.spacedFraction?_eq_some_iff.1 hg
        exact .mixed hg hn hd hk
      | none => exact .whole ⟨hk, hs, hp, hg⟩

theorem no_digits : ∀ c ∈ ([] : List Char), isDigit c = true := List.forall_mem_nil _

/--
**Induction over a text from its left end**, by the pieces that basic mode takes off it: characters
that are no digits, and literals. A fraction whose denominator goes on as a mixed fraction comes off
together with it.
-/
theorem text_induction {P : List Char → Prop} (nil : P [])
    (blank : ∀ {c k}, isBlank c = true → P k → P (c :: k))
    (sign : ∀ (m : Mark) {k}, P k → P (m.sign :: k))
    (point : ∀ {k}, NoDigitFirst k → P k → P ('.' :: k))
    (stray : ∀ {c k}, isDigit c = false → c ≠ '.' → isBlank c = false → Mark.ofSign? c = none →
      P (c :: k))
    (whole : ∀ {run k}, DigitRun run → EndsRun k → P k → P (run ++ k))
    (decimal : ∀ {run decimals k}, (∀ c ∈ run, isDigit c = true) → DigitRun decimals →
      NoDigitFirst k → P k → P (run ++ '.' :: (decimals ++ k)))
    (fraction : ∀ {num den k}, DigitRun num → DigitRun den → NoDigitFirst k →
      spacedFraction? k = none → P k → P (num ++ '/' :: (den ++ k)))
    (divided : ∀ {run den gap num' den' k}, DigitRun run → DigitRun den → BlankRun gap →
      DigitRun num' → DigitRun den' → NoDigitFirst k → P k →
      P (run ++ '/' :: (den ++ (gap ++ (num' ++ '/' :: (den' ++ k))))))
    (mixed : ∀ {run gap num den k}, DigitRun run → BlankRun gap → DigitRun num → DigitRun den →
      NoDigitFirst k → P k → P (run ++ (gap ++ (num ++ '/' :: (den ++ k)))))
    (cs : List Char) : P cs := by
  induction hn : cs.length using Nat.strongRecOn generalizing cs with
  | ind n ih =>
    subst hn
    have hrest {k : List Char} (hlt : k.length < cs.length) : P k := ih _ hlt k rfl
    clear ih
    cases beginning cs with
    | nil => exact nil
    | @other c k hc =>
      have hk : P k := hrest (Nat.lt_succ_self _)
      cases noDigit hc with
      | blank hb => exact blank hb hk
      | sign m => exact sign m hk
      | point =>
        cases hs : digitRun? k with
        | none => exact point (noDigitFirst_of_digitRun? hs) hk
        | some found =>
          obtain ⟨rfl, hd, hk'⟩ := digitRun?_eq_some_iff_append.1 hs
          refine decimal no_digits hd hk' (hrest ?_)
          simp only [List.length_cons, List.length_append]
          omega
      | stray hd hp hb hm => exact stray hd hp hb hm
    | @run run k hr hk =>
      have hlen : 0 < run.length := List.length_pos_iff.2 hr.1
      cases continuation hk with
      | @fraction den k hd hk' =>
        cases hs : spacedFraction? k with
        | none =>
          refine fraction hr hd hk' hs (hrest ?_)
          simp only [List.length_append, List.length_cons]
          omega
        | some found =>
          obtain ⟨rfl, hg, hn, hd', hk''⟩ := Literal.spacedFraction?_eq_some_iff.1 hs
          refine divided hr hd hg hn hd' hk'' (hrest ?_)
          simp only [List.length_append, List.length_cons]
          omega
      | decimal hd hk' =>
        refine decimal hr.2 hd hk' (hrest ?_)
        simp only [List.length_append, List.length_cons]
        omega
      | mixed hg hn hd hk' =>
        refine mixed hr hg hn hd hk' (hrest ?_)
        simp only [List.length_append, List.length_cons]
        omega
      | whole hk' =>
        refine whole hr hk' (hrest ?_)
        simp only [List.length_append]
        omega

theorem spacedFraction?_cons {c : Char} (hc : isBlank c = false) (k : List Char) :
    spacedFraction? (c :: k) = none := by
  simp [spacedFraction?, hc]

theorem spacedFraction?_ne_none {gap num den k : List Char} (hg : BlankRun gap) (hn : DigitRun num)
    (hd : DigitRun den) (hk : NoDigitFirst k) :
    spacedFraction? (gap ++ (num ++ '/' :: (den ++ k))) ≠ none := by
  rw [Literal.spacedFraction?_eq_some_iff.2 ⟨rfl, hg, hn, hd, hk⟩]
  exact Option.some_ne_none _

theorem EndsRun.cons {c : Char} (hd : isDigit c = false) (hb : isBlank c = false) (hs : c ≠ '/')
    (hp : c ≠ '.') (k : List Char) : EndsRun (c :: k) where
  noDigitFirst := Literal.noDigitFirst_cons hd
  slash := if_neg hs
  point := if_neg hp
  gap := spacedFraction?_cons hb k

/-- A slash or a point that no digit follows. -/
theorem EndsRun.cons_of_noDigit {c : Char} (hd : isDigit c = false) (hb : isBlank c = false)
    {k : List Char} (hk : NoDigitFirst k) : EndsRun (c :: k) where
  noDigitFirst := Literal.noDigitFirst_cons hd
  slash := by simp [signedRun?, digitRun?_eq_none hk]
  point := by simp [signedRun?, digitRun?_eq_none hk]
  gap := spacedFraction?_cons hb k

theorem EndsRun.continueRun {k : List Char} (h : EndsRun k) (run : List Char) :
    Literal.continueRun run k = (.whole run, k) := by
  rw [Literal.continueRun, h.slash, h.point, h.gap]

/-! ## Reading a formula -/

section Reading

variable {afterDiv : Bool} {cs k : List Char}

@[simp] theorem reading_nil : reading afterDiv [] = some [] := by
  rw [reading, lexemes_nil, accepted?]

theorem Mark.ofSign?_of_isBlank {c : Char} (hc : isBlank c = true) : ofSign? c = none := by
  cases h : ofSign? c with
  | none => rfl
  | some m =>
    rw [← sign_of_ofSign? h, m.isBlank_sign] at hc
    cases hc

theorem lexemes_blank {c : Char} (hc : isBlank c = true) (mode : Mode) (k : List Char) :
    lexemes mode (c :: k) = .stray c :: lexemes mode k := by
  have hscan : isDigit c = false ∧ c ≠ '.' := by
    refine ⟨isDigit_eq_false_of_isBlank hc, ?_⟩
    rintro rfl
    exact absurd hc (by decide)
  rw [lexemes_single hscan, Lexeme.single, Mark.ofSign?_of_isBlank hc]

theorem lexemes_gap {gap : List Char} (hg : ∀ c ∈ gap, isBlank c = true) (mode : Mode)
    (k : List Char) : lexemes mode (gap ++ k) = gap.map .stray ++ lexemes mode k := by
  induction gap with
  | nil => rfl
  | cons c gap ih =>
    obtain ⟨hc, hg⟩ := List.forall_mem_cons.1 hg
    rw [List.cons_append, lexemes_blank hc, ih hg]
    rfl

theorem lexemes_sign (m : Mark) (mode : Mode) (k : List Char) :
    lexemes mode (m.sign :: k) = .mark m :: lexemes mode k := by
  rw [lexemes_single m.sign_neither, Lexeme.single_sign]

theorem reading_blank {c : Char} (hc : isBlank c = true) (k : List Char) :
    reading afterDiv (c :: k) = reading afterDiv k := by
  rw [reading, lexemes_blank hc]
  exact if_pos hc

theorem reading_sign (m : Mark) (k : List Char) :
    reading afterDiv (m.sign :: k) =
      (reading (m = .operator .div) k).map (.mark m :: ·) := by
  rw [reading, lexemes_sign, accepted?, reading]

theorem reading_stray {c : Char} (hscan : Literal.scan? (c :: k) = none)
    (hc : isBlank c = false) (hm : Mark.ofSign? c = none) : reading afterDiv (c :: k) = none := by
  rw [reading, lexemes_of_not_scan? hscan, Lexeme.single, hm]
  exact if_neg (Bool.eq_false_iff.1 hc)

theorem reading_literal {l : Literal} (h : Literal.scan? cs = some (l, k)) :
    reading afterDiv cs = (reading false k).map (numberTokens afterDiv l none ++ ·) := by
  rw [reading, lexemes_of_scan? h]
  rfl

theorem numberTokens_of_not_fraction {l : Literal} (hl : ¬ l.IsFraction)
    (name : Option (List Char)) : numberTokens afterDiv l name = [.number l.text name] := by
  unfold numberTokens
  split
  · exact (hl trivial).elim
  · rfl

theorem lexemes_literal {l : Literal} (h : Literal.scan? cs = some (l, k)) :
    lexemes .basic cs = .number l none :: lexemes .basic k :=
  lexemes_of_scan? h

/-! ### The literals found -/

theorem scan?_whole {run : List Char} (hr : DigitRun run) (hk : EndsRun k) :
    Literal.scan? (run ++ k) = some (.whole run, k) := by
  rw [Literal.scan?_append hr hk.noDigitFirst, hk.continueRun]

theorem scan?_decimal {run decimals : List Char} (hr : ∀ c ∈ run, isDigit c = true)
    (hd : DigitRun decimals) (hk : NoDigitFirst k) :
    Literal.scan? (run ++ '.' :: (decimals ++ k)) = some (.decimal run decimals, k) := by
  by_cases hne : run = []
  · have hpoint := digitRun?_eq_none (Literal.noDigitFirst_point (decimals ++ k))
    rw [hne, List.nil_append, Literal.scan?, hpoint, signedRun?_append hd hk]
    rfl
  · rw [Literal.scan?_append ⟨hne, hr⟩ (Literal.noDigitFirst_point _),
      Literal.continueRun_point hd hk]

theorem scan?_fraction {num den : List Char} (hn : DigitRun num) (hd : DigitRun den)
    (hk : NoDigitFirst k) :
    Literal.scan? (num ++ '/' :: (den ++ k)) = some (.fraction num den, k) := by
  rw [Literal.scan?_append hn (Literal.noDigitFirst_slash _), Literal.continueRun_slash hd hk]

theorem scan?_mixed {run gap num den : List Char} (hr : DigitRun run) (hg : BlankRun gap)
    (hn : DigitRun num) (hd : DigitRun den) (hk : NoDigitFirst k) :
    Literal.scan? (run ++ (gap ++ (num ++ '/' :: (den ++ k)))) =
      some (.mixed run gap num den, k) := by
  rw [Literal.scan?_append hr (Literal.noDigitFirst_gap hg), Literal.continueRun_gap hg hn hd hk]

/-- A literal found is written in digits. -/
theorem Literal.digital_of_scan? {cs k : List Char} {l : Literal} (h : scan? cs = some (l, k)) :
    l.Digital := by
  unfold scan? at h
  split at h
  · next run k' hrun =>
    obtain ⟨-, hr, hk'⟩ := digitRun?_eq_some_iff_append.1 hrun
    clear hrun
    cases continuation hk' with
    | fraction hd hk =>
      rw [continueRun_slash hd hk] at h
      cases h
      exact ⟨hr, hd⟩
    | decimal hd hk =>
      rw [continueRun_point hd hk] at h
      cases h
      exact ⟨hr.2, hd⟩
    | mixed hg hn hd hk =>
      rw [continueRun_gap hg hn hd hk] at h
      cases h
      exact ⟨hr, hg, hn, hd⟩
    | whole hk =>
      rw [hk.continueRun] at h
      cases h
      exact hr
  · obtain ⟨⟨decimals, k'⟩, hs, he⟩ := Option.map_eq_some_iff.1 h
    cases he
    exact ⟨no_digits, (signedRun?_eq_some_iff.1 hs).2.1⟩

theorem reading_whole {run : List Char} (hr : DigitRun run) (hk : EndsRun k) :
    reading afterDiv (run ++ k) = (reading false k).map (.number run none :: ·) := by
  rw [reading_literal (scan?_whole hr hk), numberTokens_of_not_fraction id]
  rfl

theorem reading_decimal {run decimals : List Char} (hr : ∀ c ∈ run, isDigit c = true)
    (hd : DigitRun decimals) (hk : NoDigitFirst k) :
    reading afterDiv (run ++ '.' :: (decimals ++ k)) =
      (reading false k).map (.number (run ++ '.' :: decimals) none :: ·) := by
  rw [reading_literal (scan?_decimal hr hd hk), numberTokens_of_not_fraction id]
  rfl

theorem reading_fraction {num den : List Char} (hn : DigitRun num) (hd : DigitRun den)
    (hk : NoDigitFirst k) :
    reading afterDiv (num ++ '/' :: (den ++ k)) =
      (reading false k).map (numberTokens afterDiv (.fraction num den) none ++ ·) :=
  reading_literal (scan?_fraction hn hd hk)

theorem reading_gap {gap : List Char} (hg : ∀ c ∈ gap, isBlank c = true) (k : List Char) :
    reading afterDiv (gap ++ k) = reading afterDiv k := by
  induction gap with
  | nil => rfl
  | cons c gap ih =>
    obtain ⟨hc, hg⟩ := List.forall_mem_cons.1 hg
    rw [List.cons_append, reading_blank hc, ih hg]

end Reading

/-! ## Mixed fractions as sums -/

section Sums

variable {k : List Char}

theorem sumMixed_cons {c : Char} (hc : isDigit c = false) (k : List Char) :
    sumMixed (c :: k) = c :: sumMixed k := by
  have hd : digitRun? (c :: k) = none := digitRun?_eq_none (Literal.noDigitFirst_cons hc)
  refine Rule.pass_of_not_fire ?_
  simp only [mixedRule, mixedSum?, Literal.scan?, hd]
  cases signedRun? '.' (c :: k) <;> rfl

theorem sumMixed_run {run : List Char} (hr : ∀ c ∈ run, isDigit c = true) (hk : NoDigitFirst k)
    (hg : spacedFraction? k = none) : sumMixed (run ++ k) = run ++ sumMixed k := by
  have hmixed (s : List Char) : ¬ (Literal.continueRun s k).1.IsMixed := by
    rw [Literal.continueRun, hg]
    cases signedRun? '/' k with
    | some found => exact id
    | none => cases signedRun? '.' k <;> exact id
  refine Rule.pass_run firesAtLiterals_mixed hr hk fun s l rest h => ?_
  rw [← show (Literal.continueRun s k).1 = l by rw [h]]
  exact hmixed s

theorem sumMixed_mixed {run gap num den : List Char} (hr : DigitRun run) (hg : BlankRun gap)
    (hn : DigitRun num) (hd : DigitRun den) (hk : NoDigitFirst k) :
    sumMixed (run ++ (gap ++ (num ++ '/' :: (den ++ k)))) =
      sumOf run (num ++ '/' :: den) ++ sumMixed k := by
  have hscan := Literal.scan?_append (k := gap ++ (num ++ '/' :: (den ++ k))) hr
    (Literal.noDigitFirst_gap hg)
  rw [Literal.continueRun_gap hg hn hd hk] at hscan
  refine Rule.pass_of_fire ?_
  simp only [mixedRule, mixedSum?, hscan]

theorem NoDigitFirst.sumMixed (hk : NoDigitFirst k) : NoDigitFirst (sumMixed k) := by
  cases k with
  | nil => rwa [Formula.sumMixed, Rule.pass_nil]
  | cons c k =>
    have hc : isDigit c = false := hk c rfl
    rw [sumMixed_cons hc]
    exact Literal.noDigitFirst_cons hc

/-- A character that is no digit and no parenthesis was in the text before. -/
theorem exists_of_sumMixed_eq_cons {c : Char} {k' : List Char} (hc : isDigit c = false)
    (hp : c ≠ '(') (h : sumMixed k = c :: k') : ∃ k₁, k = c :: k₁ ∧ sumMixed k₁ = k' := by
  cases beginning k with
  | nil => simp [sumMixed] at h
  | other hd =>
    rw [sumMixed_cons hd] at h
    obtain ⟨rfl, rfl⟩ := List.cons.inj h
    exact ⟨_, rfl, rfl⟩
  | @run run k hr hk =>
    cases hg : spacedFraction? k with
    | none =>
      obtain ⟨d, run, rfl⟩ := List.exists_cons_of_ne_nil hr.1
      rw [sumMixed_run hr.2 hk hg] at h
      rw [← (List.cons.inj h).1, hr.2 d List.mem_cons_self] at hc
      cases hc
    | some found =>
      obtain ⟨rfl, hb, hn, hd, hk⟩ := Literal.spacedFraction?_eq_some_iff.1 hg
      rw [sumMixed_mixed hr hb hn hd hk] at h
      exact (hp (List.cons.inj h).1.symm).elim

/-- A run of digits at the start was there before. -/
theorem exists_of_sumMixed_eq_run {run k' : List Char} (hr : DigitRun run) (hk' : NoDigitFirst k')
    (h : sumMixed k = run ++ k') : ∃ k₁, k = run ++ k₁ ∧ NoDigitFirst k₁ ∧ sumMixed k₁ = k' := by
  have hfound := digitRun?_append hr hk'
  rw [← h] at hfound
  cases beginning k with
  | nil => simp [sumMixed, digitRun?] at hfound
  | other hd =>
    rw [sumMixed_cons hd, digitRun?_eq_none (Literal.noDigitFirst_cons hd)] at hfound
    cases hfound
  | @run run' k hr' hk =>
    cases hg : spacedFraction? k with
    | none =>
      rw [sumMixed_run hr'.2 hk hg, digitRun?_append hr' hk.sumMixed] at hfound
      obtain ⟨rfl, rfl⟩ := Prod.mk.inj (Option.some.inj hfound)
      exact ⟨k, rfl, hk, rfl⟩
    | some found =>
      obtain ⟨rfl, hb, hn, hd, hk⟩ := Literal.spacedFraction?_eq_some_iff.1 hg
      rw [sumMixed_mixed hr' hb hn hd hk] at hfound
      have hparen : NoDigitFirst ('(' :: (run' ++ '+' :: (found.1.2.1 ++ '/' :: found.1.2.2) ++
          [')'] ++ sumMixed found.2)) := Literal.noDigitFirst_cons (by decide)
      exact absurd (hfound.symm.trans (digitRun?_eq_none hparen)) (by simp)

theorem exists_of_sumMixed_eq_gap {gap k' : List Char} (hg : ∀ c ∈ gap, isBlank c = true)
    (h : sumMixed k = gap ++ k') : ∃ k₁, k = gap ++ k₁ ∧ sumMixed k₁ = k' := by
  induction gap generalizing k with
  | nil => exact ⟨k, rfl, h⟩
  | cons c gap ih =>
    obtain ⟨hc, hg⟩ := List.forall_mem_cons.1 hg
    obtain ⟨k₁, rfl, h₁⟩ := exists_of_sumMixed_eq_cons (isDigit_eq_false_of_isBlank hc)
      (by rintro rfl; exact absurd hc (by decide)) h
    obtain ⟨k₂, rfl, h₂⟩ := ih hg h₁
    exact ⟨k₂, rfl, h₂⟩

theorem signedRun?_sumMixed {sign : Char} (hs : isDigit sign = false) (hp : sign ≠ '(')
    (h : signedRun? sign k = none) : signedRun? sign (sumMixed k) = none := by
  cases hf : signedRun? sign (sumMixed k) with
  | none => rfl
  | some found =>
    obtain ⟨hk, hr, hrest⟩ := signedRun?_eq_some_iff.1 hf
    obtain ⟨k₁, rfl, hk₁⟩ := exists_of_sumMixed_eq_cons hs hp hk
    obtain ⟨k₂, rfl, hk₂, -⟩ := exists_of_sumMixed_eq_run hr hrest hk₁
    rw [signedRun?_append hr hk₂] at h
    cases h

/-- What ends a run still does when the mixed fractions after it are sums. -/
theorem EndsRun.sumMixed (h : EndsRun k) : EndsRun (sumMixed k) where
  noDigitFirst := h.noDigitFirst.sumMixed
  slash := signedRun?_sumMixed (by decide) (by decide) h.slash
  point := signedRun?_sumMixed (by decide) (by decide) h.point
  gap := by
    cases hf : spacedFraction? (Formula.sumMixed k) with
    | none => rfl
    | some found =>
      obtain ⟨hk, hg, hn, hd, hrest⟩ := Literal.spacedFraction?_eq_some_iff.1 hf
      obtain ⟨k₁, rfl, hk₁⟩ := exists_of_sumMixed_eq_gap hg.2 hk
      obtain ⟨k₂, rfl, -, hk₂⟩ := exists_of_sumMixed_eq_run hn (Literal.noDigitFirst_slash _) hk₁
      obtain ⟨k₃, rfl, hk₃⟩ := exists_of_sumMixed_eq_cons (by decide) (by decide) hk₂
      obtain ⟨k₄, rfl, hk₄, -⟩ := exists_of_sumMixed_eq_run hd hrest hk₃
      have hfound := Literal.spacedFraction?_eq_some_iff.2 ⟨rfl, hg, hn, hd, hk₄⟩
      exact absurd (h.gap.symm.trans hfound) (by simp)

end Sums

/-! ## Reading a text with mixed fractions -/

/-- The tokens that basic mode reads in a text with its fractions joined. -/
def basicReading (afterDiv : Bool) (cs : List Char) : Option (List Token) :=
  reading afterDiv (sumMixed cs)

/-- The tokens of a mixed fraction, which is a sum in parentheses. -/
def sumTokens (run num den : List Char) : List Token :=
  [.mark .opening, .number run none, .mark (.operator .add), .number (num ++ '/' :: den) none,
    .mark .closing]

section BasicReading

variable {afterDiv : Bool} {k : List Char}

@[simp] theorem basicReading_nil : basicReading afterDiv [] = some [] := by
  rw [basicReading, sumMixed, Rule.pass_nil, reading_nil]

theorem basicReading_blank {c : Char} (hc : isBlank c = true) (k : List Char) :
    basicReading afterDiv (c :: k) = basicReading afterDiv k := by
  rw [basicReading, sumMixed_cons (isDigit_eq_false_of_isBlank hc), reading_blank hc, basicReading]

theorem basicReading_gap {gap : List Char} (hg : ∀ c ∈ gap, isBlank c = true) (k : List Char) :
    basicReading afterDiv (gap ++ k) = basicReading afterDiv k := by
  induction gap with
  | nil => rfl
  | cons c gap ih =>
    obtain ⟨hc, hg⟩ := List.forall_mem_cons.1 hg
    rw [List.cons_append, basicReading_blank hc, ih hg]

theorem basicReading_sign (m : Mark) (k : List Char) :
    basicReading afterDiv (m.sign :: k) =
      (basicReading (m = .operator .div) k).map (.mark m :: ·) := by
  rw [basicReading, sumMixed_cons m.sign_neither.1, reading_sign, basicReading]

/-- The sign of a division. -/
theorem basicReading_slash (k : List Char) :
    basicReading afterDiv ('/' :: k) =
      (basicReading true k).map (.mark (.operator .div) :: ·) :=
  basicReading_sign (.operator .div) k

theorem basicReading_gap_slash {gap gap' : List Char} (hg : ∀ c ∈ gap, isBlank c = true)
    (hg' : ∀ c ∈ gap', isBlank c = true) (k : List Char) :
    basicReading afterDiv (gap ++ '/' :: (gap' ++ k)) =
      (basicReading true k).map (.mark (.operator .div) :: ·) := by
  rw [basicReading_gap hg, basicReading_slash, basicReading_gap hg']

theorem basicReading_stray {c : Char} (hd : isDigit c = false) (hp : c ≠ '.')
    (hc : isBlank c = false) (hm : Mark.ofSign? c = none) (k : List Char) :
    basicReading afterDiv (c :: k) = none := by
  rw [basicReading, sumMixed_cons hd]
  refine reading_stray (Literal.scan?_eq_none fun d hd' => ?_) hc hm
  rw [← Option.some.inj hd']
  exact ⟨hd, hp⟩

theorem basicReading_whole {run : List Char} (hr : DigitRun run) (hk : EndsRun k) :
    basicReading afterDiv (run ++ k) = (basicReading false k).map (.number run none :: ·) := by
  rw [basicReading, sumMixed_run hr.2 hk.noDigitFirst hk.gap, reading_whole hr hk.sumMixed,
    basicReading]

theorem basicReading_mixed {run gap num den : List Char} (hr : DigitRun run) (hg : BlankRun gap)
    (hn : DigitRun num) (hd : DigitRun den) (hk : NoDigitFirst k) :
    basicReading afterDiv (run ++ (gap ++ (num ++ '/' :: (den ++ k)))) =
      (basicReading false k).map (sumTokens run num den ++ ·) := by
  have htext : sumOf run (num ++ '/' :: den) ++ sumMixed k =
      Mark.opening.sign :: (run ++ (Mark.operator .add).sign ::
        (num ++ '/' :: (den ++ Mark.closing.sign :: sumMixed k))) := by
    simp [sumOf, Mark.sign, Operator.sign]
  have hplus : EndsRun ((Mark.operator .add).sign ::
      (num ++ '/' :: (den ++ Mark.closing.sign :: sumMixed k))) :=
    .cons (by decide) (by decide) (by decide) (by decide) _
  have hclose : NoDigitFirst (Mark.closing.sign :: sumMixed k) :=
    Literal.noDigitFirst_cons (by decide)
  rw [basicReading, sumMixed_mixed hr hg hn hd hk, htext, reading_sign, reading_whole hr hplus,
    reading_sign, reading_fraction hn hd hclose, reading_sign, ← basicReading]
  simp only [Option.map_map]
  rfl

/-- A fraction whose denominator is no whole part of a mixed fraction. -/
theorem basicReading_fraction {num den : List Char} (hn : DigitRun num) (hd : DigitRun den)
    (hk : NoDigitFirst k) (hg : spacedFraction? k = none) :
    basicReading afterDiv (num ++ '/' :: (den ++ k)) =
      (basicReading false k).map (numberTokens afterDiv (.fraction num den) none ++ ·) := by
  have hslash (k : List Char) : spacedFraction? ('/' :: k) = none :=
    spacedFraction?_cons (by decide) k
  rw [basicReading, sumMixed_run hn.2 (Literal.noDigitFirst_slash _) (hslash _),
    sumMixed_cons (by decide), sumMixed_run hd.2 hk hg, reading_fraction hn hd hk.sumMixed,
    basicReading]

theorem sumMixed_of_spacedFraction {run : List Char} (hr : DigitRun run)
    (hk : spacedFraction? k ≠ none) :
    ∃ k', sumMixed (run ++ k) = '(' :: k' := by
  obtain ⟨found, hk⟩ := Option.ne_none_iff_exists'.1 hk
  obtain ⟨rfl, hg, hn, hd, hk⟩ := Literal.spacedFraction?_eq_some_iff.1 hk
  exact ⟨_, sumMixed_mixed hr hg hn hd hk⟩

/-- A number is divided by a mixed fraction. -/
theorem basicReading_divided {num den : List Char} (hn : DigitRun num) (hd : DigitRun den)
    (hk : spacedFraction? k ≠ none) :
    basicReading afterDiv (num ++ '/' :: (den ++ k)) =
      (basicReading true (den ++ k)).map fun ts =>
        .number num none :: .mark (.operator .div) :: ts := by
  obtain ⟨k', hk'⟩ := sumMixed_of_spacedFraction hd hk
  have hends : EndsRun ((Mark.operator .div).sign :: '(' :: k') :=
    .cons_of_noDigit (by decide) (by decide) (Literal.noDigitFirst_cons (by decide))
  have htext : sumMixed (num ++ '/' :: (den ++ k)) =
      num ++ (Mark.operator .div).sign :: '(' :: k' := by
    rw [sumMixed_run hn.2 (Literal.noDigitFirst_slash _) (spacedFraction?_cons (by decide) _),
      sumMixed_cons (by decide), hk']
    rfl
  rw [basicReading, htext, reading_whole hn hends, reading_sign, basicReading, hk', Option.map_map]
  rfl

theorem reading_point (hk : NoDigitFirst k) : reading afterDiv ('.' :: k) = none := by
  refine reading_stray ?_ (by decide) (by decide)
  rw [Literal.scan?, digitRun?_eq_none (Literal.noDigitFirst_point k), signedRun?, if_pos rfl,
    digitRun?_eq_none hk]
  rfl

theorem basicReading_point (hk : NoDigitFirst k) : basicReading afterDiv ('.' :: k) = none := by
  rw [basicReading, sumMixed_cons (by decide), reading_point hk.sumMixed]

/-- No number has a mixed fraction as its decimals. -/
theorem basicReading_point_mixed {run decimals : List Char} (hr : ∀ c ∈ run, isDigit c = true)
    (hd : DigitRun decimals) (hk : spacedFraction? k ≠ none) :
    basicReading afterDiv (run ++ '.' :: (decimals ++ k)) = none := by
  obtain ⟨k', hk'⟩ := sumMixed_of_spacedFraction hd hk
  have hparen : NoDigitFirst ('(' :: k') := Literal.noDigitFirst_cons (by decide)
  rw [basicReading, sumMixed_run hr (Literal.noDigitFirst_point _)
    (spacedFraction?_cons (by decide) _), sumMixed_cons (by decide), hk']
  by_cases hne : run = []
  · rw [hne, List.nil_append, reading_point hparen]
  · rw [reading_whole ⟨hne, hr⟩ (.cons_of_noDigit (by decide) (by decide) hparen),
      reading_point hparen]
    rfl

theorem basicReading_decimal {run decimals : List Char} (hr : ∀ c ∈ run, isDigit c = true)
    (hd : DigitRun decimals) (hk : NoDigitFirst k) (hg : spacedFraction? k = none) :
    basicReading afterDiv (run ++ '.' :: (decimals ++ k)) =
      (basicReading false k).map (.number (run ++ '.' :: decimals) none :: ·) := by
  have hpoint (k : List Char) : spacedFraction? ('.' :: k) = none :=
    spacedFraction?_cons (by decide) k
  rw [basicReading, sumMixed_run hr (Literal.noDigitFirst_point _) (hpoint _),
    sumMixed_cons (by decide), sumMixed_run hd.2 hk hg, reading_decimal hr hd hk.sumMixed,
    basicReading]

/-- A decimal that is read at all is a number. -/
theorem basicReading_decimal_of_some {run decimals : List Char} {ts : List Token}
    (hr : ∀ c ∈ run, isDigit c = true) (hd : DigitRun decimals) (hk : NoDigitFirst k)
    (h : basicReading afterDiv (run ++ '.' :: (decimals ++ k)) = some ts) :
    (basicReading false k).map (.number (run ++ '.' :: decimals) none :: ·) = some ts := by
  cases hs : spacedFraction? k with
  | none => rwa [basicReading_decimal hr hd hk hs] at h
  | some found =>
    rw [basicReading_point_mixed hr hd (by rw [hs]; exact Option.some_ne_none _)] at h
    cases h

end BasicReading

end Footrule
