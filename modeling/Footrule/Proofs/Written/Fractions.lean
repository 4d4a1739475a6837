import Footrule.Formula
import Footrule.Proofs.Written.Scan

/-!
# Divisions of written literals

Where fractions are joined, a written literal is kept as it is unless a divisor follows it
(`Formula.joinFractions_literal`); a fraction is kept in any case. After a division sign a literal
gives its digits to the division, and its decimals too (`Literal.continueWith?_text`); what is left
of it is kept again.
-/

namespace Footrule

open Formula

/-! ## Stretches without a division -/

/-- What follows is no divisor: after the blanks there is no slash, or no digit after it. -/
def NoDivision (k : List Char) : Prop :=
  ∀ dividend gap, Division.continueWith? dividend gap (trimStart k) = none

theorem noDivision_of_head {k : List Char} (h : ∀ c ∈ (trimStart k).head?, c ≠ '/') :
    NoDivision k := by
  intro dividend gap
  cases hk : trimStart k with
  | nil => rfl
  | cons c cs =>
    have hc : c ≠ '/' := h c (by rw [hk]; rfl)
    rw [Division.continueWith?, if_neg hc]

theorem noDivision_cons {c : Char} (hb : isBlank c = false) (hc : c ≠ '/') (k : List Char) :
    NoDivision (c :: k) :=
  noDivision_of_head ((forall_head_gap_cons blank_nil hb k).2 hc)

/-- A slash that no digit follows is no division. -/
theorem noDivision_slash {k : List Char} (hk : NoDigitFirst (trimStart k)) :
    NoDivision ('/' :: k) := by
  intro dividend gap
  have ht : trimStart ('/' :: k) = '/' :: k := trimStart_gap_cons blank_nil (by decide) k
  rw [ht, Division.continueWith?, if_pos rfl, digitRun?_eq_none hk]
  rfl

theorem noDivision_gap {gap k : List Char} (hg : ∀ c ∈ gap, isBlank c = true)
    (hk : NoDivision k) : NoDivision (gap ++ k) := by
  rwa [NoDivision, trimStart_append_of_blank hg]

theorem noDivision_run {run : List Char} (hr : DigitRun run) (k : List Char) :
    NoDivision (run ++ k) := by
  obtain ⟨c, run, rfl⟩ := List.exists_cons_of_ne_nil hr.1
  refine noDivision_cons (isBlank_eq_false_of_isDigit (hr.2 c List.mem_cons_self)) ?_ _
  rintro rfl
  exact absurd (hr.2 _ List.mem_cons_self) (by decide)

namespace Division

theorem scan?_eq_none {k : List Char} (hk : NoDigitFirst k) : scan? k = none := by
  rw [scan?, digitRun?_eq_none hk]
  rfl

theorem scan?_run {run k : List Char} (hr : DigitRun run) (hk : NoDigitFirst k) :
    scan? (run ++ k) = continueWith? run (k.takeWhile isBlank) (trimStart k) := by
  rw [scan?, digitRun?_append hr hk]
  rfl

/-- After a slash, digits are a divisor, with the decimals that follow them. -/
theorem continueWith?_slash {gap' run k : List Char} (hg : ∀ c ∈ gap', isBlank c = true)
    (hr : DigitRun run) (hk : NoDigitFirst k) (dividend gap : List Char) :
    continueWith? dividend gap ('/' :: (gap' ++ (run ++ k))) =
      some (⟨dividend, gap, gap', run, (decimalsOf k).1⟩, (decimalsOf k).2) := by
  have hhead : ∀ c ∈ (run ++ k).head?, isBlank c = false := by
    obtain ⟨c, run, rfl⟩ := List.exists_cons_of_ne_nil hr.1
    intro c' hc'
    rw [← Option.some.inj hc']
    exact isBlank_eq_false_of_isDigit (hr.2 c List.mem_cons_self)
  have ht : trimStart (gap' ++ (run ++ k)) = run ++ k := by
    rw [trimStart_append_of_blank hg, trimStart_eq_self hhead]
  rw [continueWith?, if_pos rfl, ht, digitRun?_append hr hk,
    takeWhile_append_of_head hg hhead]
  rfl

theorem decimalsOf_eq_nil {k : List Char} (hk : ∀ c ∈ k.head?, c ≠ '.') :
    decimalsOf k = ([], k) := by
  rw [decimalsOf, signedRun?_eq_none hk]

end Division

namespace Formula

theorem joinedFraction?_of_ne {c : Char} {cs : List Char} (hc : c ≠ '/') :
    joinedFraction? (c :: cs) =
      (Division.scan? (c :: cs)).map fun (d, rest) => (d.joined, rest) := by
  rw [joinedFraction?, if_neg hc]

/-- Characters that are neither digits nor slashes are kept. -/
theorem joinFractions_kept {cs : List Char} (h : ∀ c ∈ cs, isDigit c = false ∧ c ≠ '/')
    (k : List Char) : joinFractions (cs ++ k) = cs ++ joinFractions k := by
  refine Rule.pass_append fun {s} hne hs => ?_
  obtain ⟨c, s, rfl⟩ := List.exists_cons_of_ne_nil hne
  have hc := h c (hs.mem List.mem_cons_self)
  refine (joinedFraction?_of_ne hc.2).trans ?_
  rw [Division.scan?_eq_none (Literal.noDigitFirst_cons hc.1)]
  rfl

theorem joinFractions_blank {gap : List Char} (hg : ∀ c ∈ gap, isBlank c = true) (k : List Char) :
    joinFractions (gap ++ k) = gap ++ joinFractions k := by
  refine joinFractions_kept (fun c hc => ⟨isDigit_eq_false_of_isBlank (hg c hc), ?_⟩) k
  rintro rfl
  exact absurd (hg _ hc) (by decide)

theorem fire?_run {run k : List Char} (hr : DigitRun run) (hk : NoDigitFirst k) :
    joinedFraction? (run ++ k) =
      (Division.continueWith? run (k.takeWhile isBlank) (trimStart k)).map
        fun (d, rest) => (d.joined, rest) := by
  have hscan := Division.scan?_run hr hk
  obtain ⟨c, run, rfl⟩ := List.exists_cons_of_ne_nil hr.1
  have hc : c ≠ '/' := by
    rintro rfl
    exact absurd (hr.2 _ List.mem_cons_self) (by decide)
  rw [List.cons_append] at hscan ⊢
  rw [joinedFraction?_of_ne hc, hscan]

/-- A run of digits that no divisor follows is kept. -/
theorem joinFractions_run {run k : List Char} (hr : ∀ c ∈ run, isDigit c = true)
    (hk : NoDigitFirst k) (hd : NoDivision k) :
    joinFractions (run ++ k) = run ++ joinFractions k := by
  refine Rule.pass_append fun {s} hne hs => ?_
  refine (fire?_run ⟨hne, fun c hc => hr c (hs.mem hc)⟩ hk).trans ?_
  rw [hd]
  rfl

/-- A run of digits and its divisor are written as a fraction. -/
theorem joinFractions_division {run k rest : List Char} {d : Division} (hr : DigitRun run)
    (hk : NoDigitFirst k)
    (hd : Division.continueWith? run (k.takeWhile isBlank) (trimStart k) = some (d, rest)) :
    joinFractions (run ++ k) = d.joined ++ joinFractions rest := by
  refine Rule.pass_of_fire ((fire?_run hr hk).trans ?_)
  rw [hd]
  rfl

/-- A fraction is kept. -/
theorem joinFractions_fraction {num den k : List Char} (hn : DigitRun num) (hd : DigitRun den)
    (hk : Bounded k) :
    joinFractions (num ++ '/' :: (den ++ k)) = num ++ '/' :: (den ++ joinFractions k) := by
  have hnil : Division.decimalsOf k = ([], k) :=
    Division.decimalsOf_eq_nil fun c hc => (hk.head c hc).2
  have hscan := @Division.continueWith?_slash [] den k (List.forall_mem_nil _) hd
    hk.noDigitFirst num []
  rw [hnil] at hscan
  have hjoin := joinFractions_division (k := '/' :: (den ++ k)) hn
    (Literal.noDigitFirst_slash _) hscan
  rw [hjoin, Division.joined, if_pos rfl, List.append_assoc, List.cons_append]

/-- A literal is kept, if no divisor follows; after a fraction a divisor may follow. -/
theorem joinFractions_literal {l : Literal} (hl : l.Plain) {k : List Char} (hk : Bounded k)
    (hd : l.IsDecimal → NoDivision k) :
    joinFractions (l.text ++ k) = l.text ++ joinFractions k := by
  cases l with
  | whole run => exact joinFractions_run hl.isDigit hk.noDigitFirst (hd trivial)
  | decimal run decimals =>
    have hpoint : joinFractions ('.' :: (decimals ++ k)) = '.' :: joinFractions (decimals ++ k) :=
      @joinFractions_kept ['.'] (by decide) _
    rw [Literal.decimal_text_append, Literal.decimal_text_append,
      joinFractions_run (fun c hc => isDigit_of_ascii (hl.1 c hc)) (Literal.noDigitFirst_point _)
        (noDivision_cons (by decide) (by decide) _),
      hpoint, joinFractions_run hl.2.isDigit hk.noDigitFirst (hd trivial)]
  | fraction num den =>
    rw [Literal.fraction_text_append, Literal.fraction_text_append,
      joinFractions_fraction hl.1.digits hl.2.digits hk]
  | mixed run gap num den =>
    obtain ⟨hr, hg, hn, hdn⟩ := hl
    have hnum : NoDivision (num ++ '/' :: (den ++ k)) := noDivision_run hn.digits _
    rw [Literal.mixed_text_append, Literal.mixed_text_append,
      joinFractions_run hr.isDigit (Literal.noDigitFirst_gap hg) (noDivision_gap hg.2 hnum),
      joinFractions_blank hg.2, joinFractions_fraction hn.digits hdn.digits hk]

/-- After the dividend, how a division is joined. -/
theorem joined_eq (d : Division) :
    d.joined = d.dividend ++
      if d.decimals = [] then '/' :: d.divisor
      else d.gapBefore ++ '/' :: (d.gapAfter ++ d.divisor ++ d.decimals) := by
  rw [Division.joined]
  split <;> simp [Division.text]

/-- A whole number or a decimal that a divisor follows: its last digits are the dividend. -/
theorem joinFractions_divided {l : Literal} (hl : l.Plain) (hdec : l.IsDecimal)
    {k gap gap' run decimals rest : List Char} (hk : Bounded k) (hgap : k.takeWhile isBlank = gap)
    (h : ∀ dividend, Division.continueWith? dividend gap (trimStart k) =
      some (⟨dividend, gap, gap', run, decimals⟩, rest)) :
    joinFractions (l.text ++ k) = l.text ++ ((if decimals = [] then '/' :: run
      else gap ++ '/' :: (gap' ++ run ++ decimals)) ++ joinFractions rest) := by
  subst hgap
  have hrun {digits : List Char} (hd : PlainRun digits) :
      joinFractions (digits ++ k) = digits ++ ((if decimals = [] then '/' :: run
        else k.takeWhile isBlank ++ '/' :: (gap' ++ run ++ decimals)) ++ joinFractions rest) := by
    rw [joinFractions_division hd.digits hk.noDigitFirst (h digits), joined_eq, List.append_assoc]
  cases l with
  | whole digits => exact hrun hl
  | decimal whole digits =>
    have hpoint : joinFractions ('.' :: (digits ++ k)) = '.' :: joinFractions (digits ++ k) :=
      @joinFractions_kept ['.'] (by decide) _
    rw [Literal.decimal_text_append, Literal.decimal_text_append,
      joinFractions_run (fun c hc => isDigit_of_ascii (hl.1 c hc)) (Literal.noDigitFirst_point _)
        (noDivision_cons (by decide) (by decide) _), hpoint, hrun hl.2]
  | fraction num den => exact hdec.elim
  | mixed whole gap num den => exact hdec.elim

/-- A number and its unit are kept. -/
theorem joinFractions_unit {l : Literal} (hl : l.Plain) (s : Suffix) (k : List Char) :
    joinFractions (l.text ++ (s.text ++ k)) = l.text ++ (s.text ++ joinFractions k) := by
  have hno : NoDivision (s.text ++ k) := by
    refine noDivision_of_head fun c hc => ?_
    rintro rfl
    exact absurd (s.head k _ hc) (by decide)
  have hname : joinFractions (s.name ++ k) = s.name ++ joinFractions k := by
    refine joinFractions_kept (fun c hc => ?_) k
    have ha := s.isAlpha_name c hc
    refine ⟨isDigit_eq_false_of_isAlpha ha, ?_⟩
    rintro rfl
    exact absurd ha (by decide)
  rw [joinFractions_literal hl (s.bounded k) fun _ => hno, Suffix.text, List.append_assoc,
    joinFractions_blank s.blank, hname, List.append_assoc]

end Formula

/-! ## Divisors -/

namespace Literal

/-- How much of a literal a division takes as its divisor: digits, decimals, and what is left. -/
def divisor? : Literal → Option (List Char × List Char × List Char)
  | whole run => some (run, [], [])
  | decimal [] _ => none
  | decimal run decimals => some (run, '.' :: decimals, [])
  | fraction _ _ => none
  | mixed run gap num den => some (run, [], gap ++ (num ++ '/' :: den))

/-- The parts of a divisor make up the literal. -/
theorem text_of_divisor? {l : Literal} {run decimals tail : List Char}
    (h : l.divisor? = some (run, decimals, tail)) : l.text = run ++ (decimals ++ tail) := by
  unfold divisor? at h
  split at h <;> simp_all [text]

/-- Only a decimal has decimals in its divisor. -/
theorem not_decimal_of_divisor? {l : Literal} {run tail : List Char}
    (h : l.divisor? = some (run, [], tail)) : ∀ run' decimals, l ≠ decimal run' decimals := by
  rintro (_ | _) decimals rfl <;> cases h

/-- After a division sign, what a literal gives to the division. -/
theorem continueWith?_text {l : Literal} (hl : l.Plain) (hf : ¬ l.IsFraction) {k : List Char}
    (hk : Bounded k) (dividend gap : List Char) :
    Division.continueWith? dividend gap ('/' :: ([' '] ++ (l.text ++ k))) =
      l.divisor?.map fun (run, decimals, tail) =>
        (⟨dividend, gap, [' '], run, decimals⟩, tail ++ k) := by
  cases l with
  | whole run =>
    have hnil : Division.decimalsOf k = ([], k) :=
      Division.decimalsOf_eq_nil fun c hc => (hk.head c hc).2
    rw [text, Division.continueWith?_slash blank_space hl.digits hk.noDigitFirst, hnil]
    rfl
  | decimal run decimals =>
    obtain ⟨hr, hd⟩ := hl
    have hpoint := noDigitFirst_point (decimals ++ k)
    rw [decimal_text_append]
    cases run with
    | nil =>
      have ht : trimStart ([' '] ++ ([] ++ '.' :: (decimals ++ k))) = '.' :: (decimals ++ k) := rfl
      rw [Division.continueWith?, if_pos rfl, ht, digitRun?_eq_none hpoint]
      rfl
    | cons c run =>
      have hdec : Division.decimalsOf ('.' :: (decimals ++ k)) = ('.' :: decimals, k) := by
        rw [Division.decimalsOf, signedRun?_append hd.digits hk.noDigitFirst]
      rw [Division.continueWith?_slash blank_space (PlainRun.digits ⟨List.cons_ne_nil c run, hr⟩)
        hpoint, hdec]
      rfl
  | fraction num den => exact (hf trivial).elim
  | mixed run gap' num den =>
    obtain ⟨hr, hg, -, -⟩ := hl
    have hnil : Division.decimalsOf (gap' ++ (num ++ '/' :: (den ++ k))) =
        ([], gap' ++ (num ++ '/' :: (den ++ k))) := by
      refine Division.decimalsOf_eq_nil fun c hc => ?_
      obtain ⟨b, bs, rfl⟩ := List.exists_cons_of_ne_nil hg.1
      rintro rfl
      obtain rfl := Option.some.inj hc
      exact absurd (hg.2 _ List.mem_cons_self) (by decide)
    rw [mixed_text_append, Division.continueWith?_slash blank_space hr.digits (noDigitFirst_gap hg), hnil]
    simp [divisor?]

/-- What a division leaves of its divisor is kept. -/
theorem joinFractions_tail {l : Literal} (hl : l.Plain) {run decimals tail : List Char}
    (h : l.divisor? = some (run, decimals, tail)) {k : List Char} (hk : Bounded k) :
    joinFractions (tail ++ k) = tail ++ joinFractions k := by
  unfold divisor? at h
  split at h <;> cases h
  case h_5 run gap num den =>
    rw [List.append_assoc, List.append_assoc, List.cons_append, joinFractions_blank hl.2.1.2,
      joinFractions_fraction hl.2.2.1.digits hl.2.2.2.digits hk, List.append_assoc, List.append_assoc,
      List.cons_append]
  all_goals rfl

/-- A literal that is no fraction begins a division only if it is a whole number. -/
theorem divisionScan?_text {l : Literal} (hl : l.Plain) (hf : ¬ l.IsFraction) {k : List Char}
    (hk : Bounded k) :
    Division.scan? (l.text ++ k) = none ∨
      ∃ run, l = whole run ∧ Division.scan? (l.text ++ k) =
        Division.continueWith? run (k.takeWhile isBlank) (trimStart k) := by
  cases l with
  | whole run => exact .inr ⟨run, rfl, Division.scan?_run hl.digits hk.noDigitFirst⟩
  | decimal run decimals =>
    refine .inl ?_
    have hpoint := noDigitFirst_point (decimals ++ k)
    rw [decimal_text_append]
    by_cases hne : run = []
    · rw [hne, List.nil_append, Division.scan?_eq_none hpoint]
    · rw [Division.scan?_run (PlainRun.digits ⟨hne, hl.1⟩) hpoint]
      exact noDivision_cons (by decide) (by decide) _ _ _
  | fraction num den => exact (hf trivial).elim
  | mixed run gap num den =>
    refine .inl ?_
    obtain ⟨hr, hg, hn, -⟩ := hl
    rw [mixed_text_append, Division.scan?_run hr.digits (noDigitFirst_gap hg)]
    exact noDivision_gap hg.2 (noDivision_run hn.digits _) _ _

end Literal

end Footrule
