import Footrule.Proofs.Breaks.Stretches
import Footrule.Proofs.Plain.Spacing
import Footrule.Proofs.Preparation.Grouping

/-!
# Joined texts

Joining fractions a second time changes nothing (`joined_joinFractions`). A joined text stays joined
when it is cut where no division goes across (`joinFractions_append`), and its first part does
wherever no number goes across (`Joined.of_append`): what is left of a division then is not joined
to anything. So the parts of a joined text are joined, which is what is needed to write some of them
as sums.
-/

namespace Footrule

open Formula

/-- Joining fractions leaves the text as it is. -/
def Joined (cs : List Char) : Prop := joinFractions cs = cs

theorem joinFractions_nil : joinFractions [] = [] := Rule.pass_nil _

/-! ## Joining twice -/

section Twice

variable {k : List Char}

theorem NoDivision.joinFractions (h : NoDivision k) : NoDivision (joinFractions k) := by
  obtain ⟨gap, hg, hk⟩ := exists_eq_gap_append k
  cases ht : trimStart k with
  | nil =>
    refine noDivision_of_head fun c hc => ?_
    rw [head?_trimStart_joinFractions, ht] at hc
    exact (Option.not_mem_none c hc).elim
  | cons c cs =>
    by_cases hc : c = '/'
    · subst hc
      have hno : NoDigitFirst (trimStart cs) := by
        refine noDigitFirst_of_digitRun? ?_
        simpa [ht, Division.continueWith?] using h [] []
      rw [hk, ht, joinFractions_blank hg, joinFractions_slash (Division.scan?_eq_none hno)]
      refine noDivision_gap hg (noDivision_slash ?_)
      rwa [NoDigitFirst, head?_trimStart_joinFractions]
    · refine noDivision_of_head fun d hd => ?_
      rw [head?_trimStart_joinFractions, ht] at hd
      rwa [← Option.some.inj hd]

theorem trimStart_joinFractions (k : List Char) :
    trimStart (joinFractions k) = joinFractions (trimStart k) := by
  obtain ⟨gap, hg, hk⟩ := exists_eq_gap_append k
  conv => lhs; rw [hk, joinFractions_blank hg, trimStart_append_of_blank hg]
  refine trimStart_eq_self ?_
  rw [head?_joinFractions]
  exact isBlank_head_trimStart k

theorem scan?_joinFractions_eq_none (h : Division.scan? (trimStart k) = none) :
    Division.scan? (trimStart (joinFractions k)) = none := by
  rw [trimStart_joinFractions]
  generalize trimStart k = k at h ⊢
  cases beginning k with
  | nil => rw [joinFractions_nil]; rfl
  | other hc => exact Division.scan?_eq_none (Literal.noDigitFirst_cons hc).joinFractions
  | run hr hk =>
    have hno := noDivision_of_scan? hr hk h
    rw [joinFractions_run hr.2 hk hno, Division.scan?_run hr hk.joinFractions]
    exact hno.joinFractions _ _

/-- **Joining fractions twice is joining them once.** -/
theorem joined_joinFractions (cs : List Char) : Joined (joinFractions cs) := by
  rw [Joined]
  induction hn : cs.length using Nat.strongRecOn generalizing cs with
  | ind n ih =>
    subst hn
    have hrest {k : List Char} (hlt : k.length < cs.length) :
        joinFractions (joinFractions k) = joinFractions k := ih _ hlt k rfl
    clear ih
    cases beginning cs with
    | nil => rw [joinFractions_nil, joinFractions_nil]
    | @other c k hc =>
      by_cases hs : c = '/'
      · subst hs
        rcases slash_cases k with hno | ⟨first, dividend, gap, gap', run, decimals, k', hf, hd, hg,
          hg', h, rfl⟩
        · rw [joinFractions_slash hno, joinFractions_slash (scan?_joinFractions_eq_none hno),
            hrest (Nat.lt_succ_self _)]
        · rw [joinFractions_slash_division hf hd hg hg' h,
            joinFractions_slash_division hf hd hg hg' h.joinFractions, hrest]
          simp only [List.length_cons, List.length_append]
          omega
      · rw [joinFractions_cons hc hs, joinFractions_cons hc hs, hrest (Nat.lt_succ_self _)]
    | @run run k hr hk =>
      have hlen : 0 < run.length := List.length_pos_iff.2 hr.1
      cases divided k with
      | no hno =>
        rw [joinFractions_run hr.2 hk hno, joinFractions_run hr.2 hk.joinFractions hno.joinFractions,
          hrest]
        simp only [List.length_append]
        omega
      | @divisor gap gap' den decimals k' hg hg' h =>
        have hlt : k'.length < (run ++ (gap ++ '/' :: (gap' ++ (den ++ (decimals ++ k'))))).length := by
          simp only [List.length_append, List.length_cons]
          omega
        by_cases hne : decimals = []
        · subst hne
          have hden := h.joinFractions
          rw [List.nil_append, joinFractions_whole hr hg hg' h]
          have htight := joinFractions_whole hr blank_nil blank_nil hden
          simp only [List.nil_append] at htight
          rw [htight, hrest hlt]
        · rw [joinFractions_decimal hr hg hg' h hne,
            joinFractions_decimal hr hg hg' h.joinFractions hne, hrest hlt]

end Twice

/-! ## Where a division is found -/

namespace Division

/-- The division stands before a text with which it does not go on. -/
structure StandsBefore (d : Division) (rest : List Char) : Prop where
  dividend : DigitRun d.dividend
  gapBefore : ∀ c ∈ d.gapBefore, isBlank c = true
  gapAfter : ∀ c ∈ d.gapAfter, isBlank c = true
  divisor : Divisor d.divisor d.decimals rest

theorem text_append (d : Division) (k : List Char) :
    d.text ++ k =
      d.dividend ++ (d.gapBefore ++ '/' :: (d.gapAfter ++ (d.divisor ++ (d.decimals ++ k)))) := by
  simp [text]

/-- A division is found exactly where one stands. -/
theorem scan?_eq_some_iff {cs rest : List Char} {d : Division} :
    scan? cs = some (d, rest) ↔ cs = d.text ++ rest ∧ d.StandsBefore rest := by
  constructor
  · intro h
    cases beginning cs with
    | nil => cases h
    | other hc =>
      rw [scan?_eq_none (Literal.noDigitFirst_cons hc)] at h
      cases h
    | @run run k hr hk =>
      cases divided k with
      | no hno =>
        rw [scan?_run hr hk, hno] at h
        cases h
      | divisor hg hg' hd =>
        rw [hd.scan? hg hg' hr] at h
        cases h
        exact ⟨(text_append ⟨run, _, _, _, _⟩ _).symm, hr, hg, hg', hd⟩
  · rintro ⟨rfl, hd, hg, hg', hdiv⟩
    rw [text_append, hdiv.scan? hg hg' hd]

end Division

/-- What the joining of fractions finds at the start of a text, and what it writes for that. -/
inductive DivisionAt : List Char → List Char → List Char → Prop
  | joined {d : Division} {rest : List Char} : d.StandsBefore rest →
      DivisionAt d.text d.joined rest
  | kept {first : List Char} {d : Division} {rest : List Char} :
      (∀ c ∈ first, isBlank c = true) → d.StandsBefore rest →
      DivisionAt ('/' :: first ++ d.text) ('/' :: first ++ d.text) rest

theorem fire?_eq_some_iff {cs out rest : List Char} :
    fractionRule.fire? cs = some (out, rest) ↔
      ∃ used, cs = used ++ rest ∧ DivisionAt used out rest := by
  constructor
  · intro h
    cases cs with
    | nil => cases h
    | cons c k =>
      simp only [fractionRule, joinedFraction?] at h
      split at h <;> obtain ⟨⟨d, r⟩, hd, he⟩ := Option.map_eq_some_iff.1 h <;>
        obtain ⟨rfl, rfl⟩ := Prod.mk.inj he <;>
        obtain ⟨htext, hstands⟩ := Division.scan?_eq_some_iff.1 hd
      · next hc =>
        subst hc
        refine ⟨_, ?_, .kept (List.all_eq_true.1 List.all_takeWhile) hstands⟩
        rw [List.append_assoc, ← htext, List.cons_append, trimStart, List.takeWhile_append_dropWhile]
      · exact ⟨_, htext, .joined hstands⟩
  · rintro ⟨used, rfl, h⟩
    cases h with
    | @joined d rest h =>
      have hscan := Division.scan?_eq_some_iff.2 ⟨rfl, h⟩
      obtain ⟨c, run, hrun⟩ := List.exists_cons_of_ne_nil h.dividend.1
      have hc : c ≠ '/' := by
        rintro rfl
        exact absurd (h.dividend.2 '/' (hrun ▸ List.mem_cons_self)) (by decide)
      rw [Division.text_append, hrun, List.cons_append] at hscan ⊢
      exact (joinedFraction?_of_ne hc).trans (by rw [hscan]; rfl)
    | @kept first d rest hf h =>
      have hscan := Division.scan?_eq_some_iff.2 ⟨rfl, h⟩
      have hhead : ∀ c ∈ (d.text ++ rest).head?, isBlank c = false := by
        rw [Division.text_append]
        exact Literal.isBlank_head_run h.dividend _
      simp only [fractionRule, List.cons_append, List.append_assoc, joinedFraction?, if_true,
        trimStart_append_of_blank hf, trimStart_eq_self hhead, hscan,
        takeWhile_append_of_head hf hhead, Option.map_some]

/-! ## What follows a divisor -/

section Append

variable {run decimals used out rest k : List Char}

theorem NoDigitFirst.of_append (h : NoDigitFirst (rest ++ k)) : NoDigitFirst rest := by
  cases rest with
  | nil => exact fun c hc => (Option.not_mem_none c hc).elim
  | cons c rest => exact h

theorem NoDigitFirst.append (h : NoDigitFirst rest) (hk : rest = [] → NoDigitFirst k) :
    NoDigitFirst (rest ++ k) := by
  cases rest with
  | nil => exact hk rfl
  | cons c rest => exact h

theorem signedRun?_cons_eq_none_iff {sign c : Char} :
    signedRun? sign (c :: k) = none ↔ (c = sign → NoDigitFirst k) := by
  rw [signedRun?]
  split
  · next hc => exact ⟨fun h _ => noDigitFirst_of_digitRun? h, fun h => digitRun?_eq_none (h hc)⟩
  · next hc => simp [hc]

theorem Divisor.of_append (h : Divisor run decimals (rest ++ k)) : Divisor run decimals rest := by
  cases h with
  | whole hr hk hp =>
    refine .whole hr hk.of_append ?_
    cases rest with
    | nil => rfl
    | cons c rest =>
      exact signedRun?_cons_eq_none_iff.2 fun hc => (signedRun?_cons_eq_none_iff.1 hp hc).of_append
  | decimal hr hd hk => exact .decimal hr hd hk.of_append

/-- A divisor goes on as it does, whatever is added, unless digits or decimals are added to it. -/
theorem Divisor.append (h : Divisor run decimals rest)
    (hnil : rest = [] → NoDigitFirst k ∧ signedRun? '.' k = none)
    (hpoint : rest = ['.'] → NoDigitFirst k) : Divisor run decimals (rest ++ k) := by
  have hk : NoDigitFirst (rest ++ k) := h.noDigitFirst.append fun he => (hnil he).1
  cases h with
  | whole hr _ hp =>
    refine .whole hr hk ?_
    cases rest with
    | nil => exact (hnil rfl).2
    | cons c rest =>
      refine signedRun?_cons_eq_none_iff.2 fun hc => ?_
      refine (signedRun?_cons_eq_none_iff.1 hp hc).append fun he => hpoint ?_
      rw [hc, he]
  | decimal hr hd _ => exact .decimal hr hd hk

namespace DivisionAt

theorem of_append (h : DivisionAt used out (rest ++ k)) : DivisionAt used out rest := by
  cases h with
  | joined h => exact .joined ⟨h.dividend, h.gapBefore, h.gapAfter, h.divisor.of_append⟩
  | kept hf h => exact .kept hf ⟨h.dividend, h.gapBefore, h.gapAfter, h.divisor.of_append⟩

theorem append (h : DivisionAt used out rest)
    (hnil : rest = [] → NoDigitFirst k ∧ signedRun? '.' k = none)
    (hpoint : rest = ['.'] → NoDigitFirst k) : DivisionAt used out (rest ++ k) := by
  cases h with
  | joined h => exact .joined ⟨h.dividend, h.gapBefore, h.gapAfter, h.divisor.append hnil hpoint⟩
  | kept hf h => exact .kept hf ⟨h.dividend, h.gapBefore, h.gapAfter, h.divisor.append hnil hpoint⟩

/-- The parts of what is found: blanks and a slash or nothing, a dividend, a slash and a divisor. -/
structure Parts (used pre dividend gap gap' divisor : List Char) : Prop where
  eq : used = pre ++ (dividend ++ (gap ++ '/' :: gap')) ++ divisor
  before : ∀ c ∈ pre, isBlank c = true ∨ c = '/'
  isRun : DigitRun dividend
  gapBefore : ∀ c ∈ gap, isBlank c = true
  gapAfter : ∀ c ∈ gap', isBlank c = true
  isNumber : ∀ c ∈ divisor, isDigit c = true ∨ c = '.'
  hasDigit : ∃ d ∈ divisor, isDigit d = true

theorem exists_parts (h : DivisionAt used out rest) :
    ∃ pre dividend gap gap' divisor, Parts used pre dividend gap gap' divisor := by
  have hdivisor {run decimals rest : List Char} (h : Divisor run decimals rest) :
      (∀ c ∈ run ++ decimals, isDigit c = true ∨ c = '.') ∧
        ∃ d ∈ run ++ decimals, isDigit d = true := by
    obtain ⟨d, hd⟩ := List.exists_mem_of_ne_nil run h.digitRun.1
    refine ⟨List.forall_mem_append.2 ⟨fun c hc => .inl (h.digitRun.2 c hc), ?_⟩,
      d, List.mem_append_left _ hd, h.digitRun.2 d hd⟩
    cases h with
    | whole => exact List.forall_mem_nil _
    | decimal _ hd => exact List.forall_mem_cons.2 ⟨.inr rfl, fun c hc => .inl (hd.2 c hc)⟩
  cases h with
  | @joined d rest h =>
    obtain ⟨hall, hdigit⟩ := hdivisor h.divisor
    exact ⟨[], _, _, _, _, by simp [Division.text], List.forall_mem_nil _, h.dividend,
      h.gapBefore, h.gapAfter, hall, hdigit⟩
  | @kept first d rest hf h =>
    obtain ⟨hall, hdigit⟩ := hdivisor h.divisor
    exact ⟨'/' :: first, _, _, _, _, by simp [Division.text],
      List.forall_mem_cons.2 ⟨.inr rfl, fun c hc => .inl (hf c hc)⟩, h.dividend,
      h.gapBefore, h.gapAfter, hall, hdigit⟩

namespace Parts

variable {pre dividend gap gap' divisor : List Char}

theorem slash (h : Parts used pre dividend gap gap' divisor) :
    ∀ c ∈ gap ++ '/' :: gap', isBlank c = true ∨ c = '/' :=
  List.forall_mem_append.2 ⟨fun c hc => .inl (h.gapBefore c hc),
    List.forall_mem_cons.2 ⟨.inr rfl, fun c hc => .inl (h.gapAfter c hc)⟩⟩

theorem divisor_ne_nil (h : Parts used pre dividend gap gap' divisor) : divisor ≠ [] := by
  obtain ⟨d, hd, -⟩ := h.hasDigit
  exact List.ne_nil_of_mem hd

end Parts

theorem thinned (h : DivisionAt used out rest) : Thinned used out := by
  cases h with
  | joined h => exact Division.thinned_joined (Division.scan?_eq_some_iff.2 ⟨rfl, h⟩)
  | kept _ _ => exact .refl _

theorem joinFractions_append (h : DivisionAt used out rest) :
    joinFractions (used ++ rest) = out ++ joinFractions rest :=
  Rule.pass_of_fire (fire?_eq_some_iff.2 ⟨used, rfl, h⟩)

end DivisionAt

end Append

/-! ## Parts of joined texts -/

section Joined

variable {cs k used out rest : List Char}

/-- Two texts that are not shorter when they are changed and joined are not changed. -/
theorem eq_of_append_eq {cs' k' : List Char} (h : cs' ++ k' = cs ++ k)
    (hcs : cs'.length ≤ cs.length) (hk : k'.length ≤ k.length) : cs' = cs ∧ k' = k := by
  refine List.append_inj h ?_
  have hlength := congrArg List.length h
  simp only [List.length_append] at hlength
  omega

theorem length_joinFractions_le (cs : List Char) : (joinFractions cs).length ≤ cs.length :=
  (thinned_joinFractions cs).sublist.length_le

/-- Where a joined text has a division, it is kept, and what follows is joined. -/
theorem Joined.of_divisionAt (h : Joined (used ++ rest)) (hd : DivisionAt used out rest) :
    out = used ∧ Joined rest := by
  rw [Joined, hd.joinFractions_append] at h
  exact eq_of_append_eq h hd.thinned.sublist.length_le (length_joinFractions_le rest)

theorem Joined.of_not_fire {c : Char} (h : Joined (c :: cs))
    (hfire : fractionRule.fire? (c :: cs) = none) : Joined cs :=
  (List.cons.inj ((Rule.pass_of_not_fire hfire).symm.trans h)).2

/-- No division goes across from one text into the next. -/
structure Seam (cs k : List Char) : Prop where
  noDigitFirst : NoDigitFirst k
  noDecimals : signedRun? '.' k = none
  noneAcross : ∀ {u v out rest : List Char}, u <:+ cs → u ≠ [] → v ≠ [] → k = v ++ rest →
    ¬ DivisionAt (u ++ v) out rest

/-- **Fractions are joined on the two sides of a seam.** -/
theorem joinFractions_append (h : Seam cs k) :
    joinFractions (cs ++ k) = joinFractions cs ++ joinFractions k := by
  change fractionRule.pass (cs ++ k) = fractionRule.pass cs ++ fractionRule.pass k
  fun_induction Rule.pass fractionRule cs with
  | case1 => rfl
  | case2 c cs out rest hfire _ ih =>
    obtain ⟨used, hcs, hd⟩ := fire?_eq_some_iff.1 hfire
    have hsuffix : rest <:+ c :: cs := ⟨used, hcs.symm⟩
    have hafter := hd.append (fun _ => ⟨h.noDigitFirst, h.noDecimals⟩) fun _ => h.noDigitFirst
    rw [hcs, List.append_assoc, Rule.pass_of_fire (fire?_eq_some_iff.2 ⟨used, rfl, hafter⟩),
      ih ⟨h.noDigitFirst, h.noDecimals, fun hu => h.noneAcross (hu.trans hsuffix)⟩,
      List.append_assoc]
  | case3 c cs hfire ih =>
    have hnone : fractionRule.fire? (c :: (cs ++ k)) = none := by
      refine Option.eq_none_iff_forall_ne_some.2 fun found hsome => ?_
      obtain ⟨out, rest⟩ := found
      obtain ⟨used, hcs, hd⟩ := fire?_eq_some_iff.1 hsome
      rw [← List.cons_append] at hcs
      rcases List.append_eq_append_iff.1 hcs with ⟨v, rfl, hk⟩ | ⟨rest', hused, rfl⟩
      · by_cases hv : v = []
        · subst hv
          have hend : DivisionAt (c :: cs) out [] := by
            rw [List.append_nil] at hd
            exact hd.of_append
          rw [fire?_eq_some_iff.2 ⟨_, (List.append_nil _).symm, hend⟩] at hfire
          cases hfire
        · exact h.noneAcross (List.suffix_refl _) (List.cons_ne_nil c cs) hv hk hd
      · rw [fire?_eq_some_iff.2 ⟨used, hused, hd.of_append⟩] at hfire
        cases hfire
    rw [List.cons_append, Rule.pass_of_not_fire hnone,
      ih ⟨h.noDigitFirst, h.noDecimals, fun hu => h.noneAcross (hu.trans (List.suffix_cons c cs))⟩,
      List.cons_append]

theorem joined_append_iff (h : Seam cs k) : Joined (cs ++ k) ↔ Joined cs ∧ Joined k := by
  refine ⟨fun hjoined => ?_, fun ⟨hcs, hk⟩ => ?_⟩
  · rw [Joined, joinFractions_append h] at hjoined
    exact eq_of_append_eq hjoined (length_joinFractions_le cs) (length_joinFractions_le k)
  · rw [Joined, joinFractions_append h, hcs, hk]

/-- A character of a division is a digit, a blank, a slash or a point. -/
theorem DivisionAt.isNumeric (h : DivisionAt used out rest) :
    ∀ c ∈ used, Literal.IsNumeric c := by
  obtain ⟨pre, dividend, gap, gap', divisor, hparts⟩ := h.exists_parts
  have hspace {c : Char} (hc : isBlank c = true ∨ c = '/') : Literal.IsNumeric c :=
    hc.elim (.inr ∘ .inl) (.inr ∘ .inr ∘ .inr)
  rw [hparts.eq]
  refine List.forall_mem_append.2 ⟨List.forall_mem_append.2 ⟨fun c hc => hspace (hparts.before c hc),
    List.forall_mem_append.2 ⟨fun c hc => .inl (hparts.isRun.2 c hc),
      fun c hc => hspace (hparts.slash c hc)⟩⟩, fun c hc => ?_⟩
  exact (hparts.isNumber c hc).elim .inl (.inr ∘ .inr ∘ .inl)

/-- A division ends in a digit or, as it were, in a point. -/
theorem DivisionAt.exists_getLast (h : DivisionAt used out rest) :
    ∃ c ∈ used.getLast?, isDigit c = true ∨ c = '.' := by
  obtain ⟨pre, dividend, gap, gap', divisor, hparts⟩ := h.exists_parts
  have hne := hparts.divisor_ne_nil
  rw [hparts.eq, List.getLast?_append_of_ne_nil _ hne, List.getLast?_eq_some_getLast hne]
  exact ⟨_, rfl, hparts.isNumber _ (List.getLast_mem hne)⟩

/-- No division goes on with a character that stands in none, be it after blanks. -/
theorem seam_of_not_numeric (cs : List Char)
    (h : ∀ c ∈ (trimStart k).head?, isDigit c = false ∧ c ≠ '.' ∧ c ≠ '/') : Seam cs k where
  noDigitFirst := (Bounded.noDigitFirst fun c hc => ⟨(h c hc).1, (h c hc).2.1⟩)
  noDecimals := (Bounded.signedRun?_point fun c hc => ⟨(h c hc).1, (h c hc).2.1⟩)
  noneAcross {u v out rest} _ _ hv hk hd := by
    have hblank : ¬ ∀ c ∈ v, isBlank c = true := by
      intro hall
      obtain ⟨c, hc, hnum⟩ := hd.exists_getLast
      rw [List.getLast?_append_of_ne_nil _ hv] at hc
      have hb := hall c (List.mem_of_mem_getLast? hc)
      rcases hnum with hdigit | rfl
      · rw [isDigit_eq_false_of_isBlank hb] at hdigit
        cases hdigit
      · exact absurd hb (by decide)
    obtain ⟨gap, hg, hgap⟩ := exists_eq_gap_append k
    rw [hk] at hgap
    rcases List.append_eq_append_iff.1 hgap with ⟨a, rfl, -⟩ | ⟨_ | ⟨c, a⟩, rfl, hrest⟩
    · exact hblank (List.forall_mem_append.1 hg).1
    · exact hblank (by rwa [List.append_nil])
    · -- the division has the first character that is not blank
      have hhead : c ∈ (trimStart k).head? := by
        rw [hk, hrest]
        rfl
      obtain ⟨hdigit, hpoint, hslash⟩ := h c hhead
      rcases hd.isNumeric c (by simp) with hn | hn | hn | hn
      · rw [hn] at hdigit
        cases hdigit
      · rw [isBlank_head_trimStart k c hhead] at hn
        cases hn
      · exact hpoint hn
      · exact hslash hn

/-- A number that a gap and no slash follows is the end of a division, if it is in one. -/
theorem seam_of_gap {d b : Char} (hlast : d ∈ cs.getLast?) (hd : isDigit d = true)
    (hb : isBlank b = true) (hk : ∀ c ∈ (trimStart (b :: k)).head?, c ≠ '/') :
    Seam cs (b :: k) where
  noDigitFirst := Literal.noDigitFirst_cons (isDigit_eq_false_of_isBlank hb)
  noDecimals := signedRun?_cons_eq_none_iff.2 fun hp => by
    rw [hp] at hb
    exact absurd hb (by decide)
  noneAcross {u v out rest} hu hne hv hvk hat := by
    obtain ⟨pre, dividend, gap, gap', divisor, hparts⟩ := hat.exists_parts
    obtain ⟨t, rfl⟩ := hu
    rw [List.getLast?_append_of_ne_nil _ hne] at hlast
    obtain ⟨v, rfl⟩ : ∃ v', v = b :: v' := by
      obtain ⟨c, v', rfl⟩ := List.exists_cons_of_ne_nil hv
      exact ⟨v', by rw [(List.cons.inj hvk).1]⟩
    have hnot (hdigit : isDigit b = true) : False := by
      rw [isBlank_eq_false_of_isDigit hdigit] at hb
      cases hb
    -- the digit before the gap is not among the blanks and slashes of the division
    have hbeside (hd' : isBlank d = true ∨ d = '/') : False := by
      rcases hd' with hd' | rfl
      · rw [isDigit_eq_false_of_isBlank hd'] at hd
        cases hd
      · exact absurd hd (by decide)
    -- after the dividend the gap would end in a slash
    have hslash {after : List Char} (h : b :: v = gap ++ '/' :: gap' ++ after) : False := by
      refine hk '/' ?_ rfl
      rw [hvk, h, List.append_assoc, List.append_assoc, trimStart_append_of_blank hparts.gapBefore]
      rfl
    rcases List.append_eq_append_iff.1 hparts.eq with ⟨a, hleft, hright⟩ | ⟨a, -, hright⟩
    · rcases List.append_eq_append_iff.1 hleft with ⟨x, rfl, hx⟩ | ⟨x, rfl, -⟩
      · rcases List.append_eq_append_iff.1 hx with ⟨_ | ⟨e, y⟩, rfl, hy⟩ | ⟨_ | ⟨e, y⟩, hy, rfl⟩
        · rw [List.nil_append] at hy
          exact hslash (hy ▸ hright)
        · have hmem : d ∈ e :: y := by
            rw [← List.append_assoc,
              List.getLast?_append_of_ne_nil _ (List.cons_ne_nil e y)] at hlast
            exact List.mem_of_mem_getLast? hlast
          exact hbeside (hparts.slash d (hy ▸ List.mem_append_left a hmem))
        · exact hslash hright
        · obtain rfl := (List.cons.inj hright).1
          exact hnot (hparts.isRun.2 b (by rw [hy]; simp))
      · exact hbeside (hparts.before d (List.mem_append_left x (List.mem_of_mem_getLast? hlast)))
    · rcases hparts.isNumber b (by rw [hright]; simp) with hdigit | rfl
      · exact hnot hdigit
      · exact absurd hb (by decide)

theorem seam_of_run_gap (pre : List Char) {run gap : List Char} (hr : DigitRun run)
    (hg : BlankRun gap) (hk : ∀ c ∈ (trimStart k).head?, c ≠ '/') :
    Seam (pre ++ run) (gap ++ k) := by
  have hlast : run.getLast hr.1 ∈ (pre ++ run).getLast? := by
    rw [List.getLast?_append_of_ne_nil _ hr.1]
    exact List.getLast?_eq_some_getLast hr.1
  rw [← trimStart_append_of_blank hg.2] at hk
  obtain ⟨b, gap, rfl⟩ := List.exists_cons_of_ne_nil hg.1
  exact seam_of_gap hlast (hr.2 _ (List.getLast_mem hr.1)) (hg.2 b List.mem_cons_self) hk

/-- A text without digits on both sides of a slash is joined. -/
theorem joined_of_no_quotient
    (h : ∀ d d' : Char, isDigit d = true → isDigit d' = true → ¬ [d, '/', d'].Sublist cs) :
    Joined cs := by
  refine Rule.pass_eq_self fun {t} ht => Option.eq_none_iff_forall_ne_some.2 fun ⟨out, rest⟩ hfire => ?_
  obtain ⟨used, rfl, hat⟩ := fire?_eq_some_iff.1 hfire
  obtain ⟨pre, dividend, gap, gap', divisor, hparts⟩ := hat.exists_parts
  obtain ⟨d, hd⟩ := List.exists_mem_of_ne_nil dividend hparts.isRun.1
  obtain ⟨d', hd', hdigit⟩ := hparts.hasDigit
  refine h d d' (hparts.isRun.2 d hd) hdigit (List.Sublist.trans ?_ ht.sublist)
  have hsingle {c : Char} {cs : List Char} (hc : c ∈ cs) : [c].Sublist cs :=
    List.singleton_sublist.2 hc
  have hquotient : ([d] ++ (['/'] ++ [d'])).Sublist
      ((pre ++ dividend) ++ ((gap ++ '/' :: gap') ++ (divisor ++ rest))) :=
    (hsingle (List.mem_append_right pre hd)).append
      ((hsingle (by simp)).append (hsingle (List.mem_append_left rest hd')))
  rw [hparts.eq]
  simpa using hquotient

/-- What is left of a division without its divisor is joined. -/
theorem joined_of_division_start {pre dividend mid : List Char} (hcs : cs <+: pre ++ (dividend ++ mid))
    (hpre : ∀ c ∈ pre, isDigit c = false) (hdividend : '/' ∉ dividend)
    (hmid : ∀ c ∈ mid, isDigit c = false) : Joined cs := by
  refine joined_of_no_quotient fun d d' hd hd' hsub => ?_
  have hnot {c : Char} {cs : List Char} (hc : isDigit c = true) (hcs : ∀ c ∈ cs, isDigit c = false) :
      c ∉ cs := fun hmem => by rw [hcs c hmem] at hc; cases hc
  obtain ⟨x, y, hxy, hx, hy⟩ := List.sublist_append_iff.1 (hsub.trans hcs.sublist)
  cases x with
  | cons c x =>
    obtain rfl := (List.cons.inj hxy).1
    exact hnot hd hpre (hx.mem List.mem_cons_self)
  | nil =>
    obtain rfl := hxy
    obtain ⟨x, z, hxz, hx, hz⟩ := List.sublist_append_iff.1 hy
    match x, hxz with
    | [], hxz =>
      obtain rfl := hxz
      exact hnot hd hmid (hz.mem List.mem_cons_self)
    | [_], hxz =>
      obtain rfl := (List.cons.inj hxz).2
      exact hnot hd' hmid (hz.mem (by simp))
    | _ :: c :: x, hxz =>
      obtain rfl := (List.cons.inj (List.cons.inj hxz).2).1
      exact hdividend (hx.mem (by simp))

/-- The text does not end within a number. -/
def NoNumberLast (cs : List Char) : Prop := ∀ c ∈ cs.getLast?, isDigit c = false ∧ c ≠ '.'

theorem NoNumberLast.of_append_right (used : List Char) (h : NoNumberLast (used ++ rest)) :
    NoNumberLast rest := by
  intro c hc
  have hne : rest ≠ [] := by
    rintro rfl
    cases hc
  exact h c (by rwa [List.getLast?_append_of_ne_nil _ hne])

theorem NoNumberLast.false_of_mem (h : NoNumberLast cs) {c : Char} (hc : c ∈ cs.getLast?)
    (hnumber : isDigit c = true ∨ c = '.') : False := by
  obtain ⟨hdigit, hpoint⟩ := h c hc
  exact hnumber.elim (Bool.eq_false_iff.1 hdigit) hpoint

/-- The beginning of a division is joined. -/
theorem joined_of_divisionAt (hat : DivisionAt (cs ++ k) out rest) (h : NoNumberLast cs) :
    Joined cs := by
  obtain ⟨pre, dividend, gap, gap', divisor, hparts⟩ := hat.exists_parts
  have hstart : cs <+: pre ++ (dividend ++ (gap ++ '/' :: gap')) := by
    rcases List.append_eq_append_iff.1 hparts.eq with ⟨a, hcs, -⟩ | ⟨_ | ⟨e, a⟩, hcs, hdivisor⟩
    · exact ⟨a, hcs.symm⟩
    · exact ⟨[], by rw [hcs, List.append_nil, List.append_nil]⟩
    · -- the divisor has the last character
      have hend : (e :: a).getLast (List.cons_ne_nil e a) ∈ divisor := by
        rw [hdivisor]
        exact List.mem_append_left k (List.getLast_mem _)
      refine (h.false_of_mem ?_ (hparts.isNumber _ hend)).elim
      rw [hcs, List.getLast?_append_of_ne_nil _ (List.cons_ne_nil e a)]
      exact List.getLast?_eq_some_getLast _
  have hno {c : Char} (hc : isBlank c = true ∨ c = '/') : isDigit c = false := by
    rcases hc with hc | rfl
    · exact isDigit_eq_false_of_isBlank hc
    · decide
  refine joined_of_division_start hstart (fun c hc => hno (hparts.before c hc)) ?_
    fun c hc => hno (hparts.slash c hc)
  exact fun hslash => absurd (hparts.isRun.2 '/' hslash) (by decide)

/-- **The first part of a joined text is joined**, if it does not end within a number. -/
theorem Joined.of_append (h : Joined (cs ++ k)) (hlast : NoNumberLast cs) : Joined cs := by
  change fractionRule.pass cs = cs
  fun_induction Rule.pass fractionRule cs with
  | case1 => rfl
  | case2 c cs out rest hfire _ ih =>
    obtain ⟨used, hcs, hat⟩ := fire?_eq_some_iff.1 hfire
    rw [hcs] at h hlast ⊢
    have hafter : DivisionAt used out (rest ++ k) := by
      refine hat.append (fun hnil => ?_) fun hpoint => ?_
      · obtain ⟨d, hd, hnumber⟩ := hat.exists_getLast
        rw [hnil, List.append_nil] at hlast
        exact (hlast.false_of_mem hd hnumber).elim
      · rw [hpoint] at hlast
        exact ((hlast.of_append_right used).false_of_mem rfl (.inr rfl)).elim
    rw [List.append_assoc] at h
    obtain ⟨rfl, hjoined⟩ := h.of_divisionAt hafter
    rw [ih hjoined (hlast.of_append_right out)]
  | case3 c cs hfire ih =>
    cases hsome : fractionRule.fire? (c :: (cs ++ k)) with
    | none =>
      rw [ih (h.of_not_fire hsome) (NoNumberLast.of_append_right [c] hlast)]
    | some found =>
      obtain ⟨out, rest⟩ := found
      obtain ⟨used, hused, hat⟩ := fire?_eq_some_iff.1 hsome
      rw [← List.cons_append] at hused
      rcases List.append_eq_append_iff.1 hused with ⟨v, rfl, -⟩ | ⟨rest', hcs, rfl⟩
      · exact (Rule.pass_of_not_fire hfire).symm.trans (joined_of_divisionAt hat hlast)
      · rw [fire?_eq_some_iff.2 ⟨used, hcs, hat.of_append⟩] at hfire
        cases hfire

theorem joined_kept_append_iff (hcs : ∀ c ∈ cs, isDigit c = false ∧ c ≠ '/') :
    Joined (cs ++ k) ↔ Joined k := by
  rw [Joined, joinFractions_kept hcs, List.append_right_inj, Joined]

theorem joined_gap_append_iff (hcs : ∀ c ∈ cs, isBlank c = true) : Joined (cs ++ k) ↔ Joined k := by
  rw [Joined, joinFractions_blank hcs, List.append_right_inj, Joined]

/-- A fraction is joined, and what follows it stands for itself if it adds no digits to it. -/
theorem joined_fraction_append_iff {num den : List Char} (hn : DigitRun num) (hd : DigitRun den)
    (hk : NoDigitFirst k) (hp : signedRun? '.' k = none) :
    Joined (num ++ '/' :: (den ++ k)) ↔ Joined k := by
  have htight := joinFractions_whole hn blank_nil blank_nil (.whole hd hk hp)
  simp only [List.nil_append] at htight
  rw [Joined, htight, List.append_right_inj, List.cons_inj_right, List.append_right_inj, Joined]

/-- A literal is joined. -/
theorem joined_text {l : Literal} (hl : l.Digital) : Joined l.text := by
  have hfraction {num den : List Char} (hn : DigitRun num) (hd : DigitRun den) :
      Joined (num ++ '/' :: den) := by
    have hjoined := (joined_fraction_append_iff hn hd (k := []) nofun rfl).2 joinFractions_nil
    rwa [List.append_nil] at hjoined
  have hplain {cs : List Char} (hcs : '/' ∉ cs) : Joined cs :=
    joined_of_no_quotient fun d d' _ _ hsub => hcs (hsub.mem (by simp))
  have hrun {run : List Char} (hr : ∀ c ∈ run, isDigit c = true) : '/' ∉ run :=
    fun hc => absurd (hr '/' hc) (by decide)
  cases l with
  | whole run => exact hplain (hrun hl.2)
  | decimal run decimals =>
    refine hplain fun hc => ?_
    rcases List.mem_append.1 hc with hc | hc
    · exact hrun hl.1 hc
    · exact (List.mem_cons.1 hc).elim (by decide) (hrun hl.2.2)
  | fraction num den => exact hfraction hl.1 hl.2
  | mixed run gap num den =>
    obtain ⟨hr, hg, hn, hd⟩ := hl
    have htext : (Literal.mixed run gap num den).text = run ++ (gap ++ (num ++ '/' :: den)) := by
      simp [Literal.text]
    rw [htext, Joined, joinFractions_run hr.2 (Literal.noDigitFirst_gap hg)
      (noDivision_gap hg.2 (noDivision_run hn _)), joinFractions_blank hg.2, hfraction hn hd]

end Joined

end Footrule
