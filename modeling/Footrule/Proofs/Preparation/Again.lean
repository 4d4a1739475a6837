import Footrule.Proofs.Preparation.Idle
import Footrule.Proofs.Preparation.Joined
import Mathlib.Control.Monad.Basic

/-!
# Preparing a formula again

The formula of an expression has no blanks at its ends and no typographic signs, and the last passes
find nothing more to do in it. So a second preparation only joins fractions (`result_prepare_again`),
and changes the formula exactly if there is one to join. There is none if no point stands directly
beside a parenthesis (`PointApart`); where a sum has taken a part of a decimal, one does.
-/

namespace Footrule

open Formula

/-! ## The ends and the signs of a formula -/

namespace Thinned

variable {cs cs' : List Char}

theorem reverse (h : Thinned cs cs') : Thinned cs.reverse cs'.reverse where
  sublist := h.sublist.reverse
  unblanked := by
    have hreverse (cs : List Char) : Footrule.unblanked cs.reverse = (Footrule.unblanked cs).reverse :=
      List.filter_reverse
    rw [hreverse, h.unblanked, hreverse]

/-- A text that begins with no blank does so without some of its blanks as well. -/
theorem isBlank_head (h : Thinned cs cs') (hfirst : ∀ c ∈ cs.head?, isBlank c = false) :
    ∀ c ∈ cs'.head?, isBlank c = false := by
  cases cs with
  | nil =>
    rw [List.sublist_nil.1 h.sublist]
    exact hfirst
  | cons c cs =>
    have hc := hfirst c rfl
    rcases List.sublist_cons_iff.1 h.sublist with hsub | ⟨k, rfl, -⟩
    · -- the first character would be missing
      have hlength := congrArg List.length h.unblanked
      have hle := (hsub.filter fun c => !isBlank c).length_le
      rw [Footrule.unblanked, Footrule.unblanked, List.filter_cons_of_pos (by simp [hc]),
        List.length_cons] at hlength
      omega
    · rintro _ ⟨⟩
      exact hc

theorem isBlank_getLast (h : Thinned cs cs') (hlast : ∀ c ∈ cs.getLast?, isBlank c = false) :
    ∀ c ∈ cs'.getLast?, isBlank c = false := by
  rw [← List.head?_reverse] at hlast ⊢
  exact h.reverse.isBlank_head hlast

/-- A text that keeps as many blanks as it has is not changed. -/
theorem eq_of_blanks (h : Thinned cs cs') (hle : cs.countP isBlank ≤ cs'.countP isBlank) :
    cs' = cs := by
  have hlength (cs : List Char) :
      cs.length = cs.countP isBlank + (Footrule.unblanked cs).length := by
    rw [Footrule.unblanked, ← List.countP_eq_length_filter, List.length_eq_countP_add_countP isBlank]
    simp
  refine h.sublist.eq_of_length_le ?_
  rw [hlength cs, hlength cs', h.unblanked]
  omega

end Thinned

namespace Grouped

variable {n : Nat} {cs cs' : List Char}

theorem eq_nil_iff (h : Grouped n cs cs') : cs' = [] ↔ cs = [] := by
  cases h with
  | nil => exact Iff.rfl
  | keep c _ => exact ⟨fun h => (List.cons_ne_nil _ _ h).elim, fun h => (List.cons_ne_nil _ _ h).elim⟩
  | sum hl _ _ => simp [sumOf, hl.1]

/-- The characters of a text are kept, and others are signs of a sum. -/
theorem mem (h : Grouped n cs cs') : ∀ c ∈ cs', c ∈ cs ∨ c ∈ sumSigns := by
  induction h with
  | nil => exact List.forall_mem_nil _
  | keep c _ ih =>
    refine List.forall_mem_cons.2 ⟨.inl List.mem_cons_self, fun d hd => ?_⟩
    exact (ih d hd).imp_left (List.mem_cons_of_mem c)
  | @sum left right n cs cs' _ _ _ ih =>
    intro c hc
    rcases List.mem_append.1 hc with hsum | hrest
    · simp only [sumOf, sumSigns, List.mem_append, List.mem_cons, List.not_mem_nil,
        or_false] at hsum ⊢
      grind
    · exact (ih c hrest).imp_left (List.mem_append_right _)

theorem isBlank_head (h : Grouped n cs cs') (hfirst : ∀ c ∈ cs.head?, isBlank c = false) :
    ∀ c ∈ cs'.head?, isBlank c = false := by
  cases h with
  | nil => exact hfirst
  | keep c _ => exact hfirst
  | sum _ _ _ =>
    rintro _ ⟨⟩
    decide

theorem isBlank_getLast (h : Grouped n cs cs') (hlast : ∀ c ∈ cs.getLast?, isBlank c = false) :
    ∀ c ∈ cs'.getLast?, isBlank c = false := by
  have hstep (used out : List Char) {k k' : List Char} {n : Nat} (h : Grouped n k k')
      (hlast : ∀ c ∈ (used ++ k).getLast?, isBlank c = false)
      (ih : (∀ c ∈ k.getLast?, isBlank c = false) → ∀ c ∈ k'.getLast?, isBlank c = false)
      (hout : (∀ c ∈ used.getLast?, isBlank c = false) → ∀ c ∈ out.getLast?, isBlank c = false) :
      ∀ c ∈ (out ++ k').getLast?, isBlank c = false := by
    by_cases hk : k = []
    · rw [hk, List.append_nil] at hlast
      rw [h.eq_nil_iff.2 hk, List.append_nil]
      exact hout hlast
    · rw [List.getLast?_append_of_ne_nil _ hk] at hlast
      rw [List.getLast?_append_of_ne_nil _ (mt h.eq_nil_iff.1 hk)]
      exact ih hlast
  induction h with
  | nil => exact hlast
  | keep c h ih => exact hstep [c] [c] h hlast ih id
  | sum _ _ h ih =>
    refine hstep _ _ h hlast ih fun _ => ?_
    rw [sumOf, List.getLast?_concat]
    rintro _ ⟨⟩
    decide

/-- No blanks are added or left out. -/
theorem countP_isBlank (h : Grouped n cs cs') : cs'.countP isBlank = cs.countP isBlank := by
  induction h with
  | nil => rfl
  | keep c _ ih => rw [List.countP_cons, List.countP_cons, ih]
  | sum _ _ _ ih =>
    have hsigns : isBlank '(' = false ∧ isBlank '+' = false ∧ isBlank ')' = false := by decide
    simp [sumOf, List.countP_append, ih, hsigns]

end Grouped

/-- A formula has no blanks at its ends. -/
theorem trim_formula (mode : Mode) (cs : List Char) :
    trim (finish mode (joinFractions (plainSigns (trim cs)))) =
      finish mode (joinFractions (plainSigns (trim cs))) := by
  have hplain {c : Option Char} (h : ∀ d ∈ c, isBlank d = false) :
      ∀ d ∈ c.map plainSign, isBlank d = false := by
    intro d hd
    obtain ⟨e, he, rfl⟩ := Option.map_eq_some_iff.1 hd
    rw [Thinned.isBlank_plainSign]
    exact h e he
  obtain ⟨thin, n, hthin, hgroup⟩ := grouped_finish mode (joinFractions (plainSigns (trim cs)))
  have hjoined := (thinned_joinFractions (plainSigns (trim cs))).trans hthin
  refine trim_eq_self (hgroup.isBlank_head (hjoined.isBlank_head ?_))
    (hgroup.isBlank_getLast (hjoined.isBlank_getLast ?_))
  · rw [plainSigns, List.head?_map]
    exact hplain (isBlank_head_trim cs)
  · rw [plainSigns, List.getLast?_map]
    exact hplain (isBlank_getLast_trim cs)

/-- A formula has no typographic signs. -/
theorem plainSigns_formula (mode : Mode) (cs : List Char) :
    plainSigns (finish mode (joinFractions (plainSigns cs))) =
      finish mode (joinFractions (plainSigns cs)) := by
  obtain ⟨thin, n, hthin, hgroup⟩ := grouped_finish mode (joinFractions (plainSigns cs))
  refine plainSigns_of_forall fun c hc => ?_
  rcases hgroup.mem c hc with hmem | hs
  · exact not_typographic_plainSigns cs c
      (((thinned_joinFractions _).trans hthin).sublist.mem hmem)
  · exact (by decide : ∀ c ∈ sumSigns, c ∉ typographicSigns) c hs

/-- **Preparing a formula again only joins its fractions**, before the last passes. -/
theorem result_prepare_again {mode : Mode} {expression formula : List Char}
    (h : (prepare mode expression).result = .ok formula) :
    (prepare mode formula).result = .ok (finish mode (joinFractions formula)) := by
  obtain rfl := Except.ok.inj h
  rw [result_prepare, trim_formula, plainSigns_formula]

/-- The last passes find nothing to do in a formula if there are no fractions to join. -/
theorem finish_joinFractions_eq_iff (mode : Mode) (cs : List Char) :
    finish mode (joinFractions (finish mode cs)) = finish mode cs ↔ Joined (finish mode cs) := by
  constructor
  · intro h
    obtain ⟨thin, n, hthin, hgroup⟩ := grouped_finish mode (joinFractions (finish mode cs))
    -- a blank that is left out is not written again
    refine (thinned_joinFractions _).eq_of_blanks ?_
    have hcount := hgroup.countP_isBlank
    rw [h] at hcount
    rw [hcount]
    exact hthin.sublist.countP_le
  · intro h
    rw [h, finish_finish]

/-! ## Sums of joined texts -/

/-- No point stands directly before an opening parenthesis or after a closing one. -/
def PointApart (cs : List Char) : Prop := ¬ ['.', '('] <:+: cs ∧ ¬ [')', '.'] <:+: cs

instance (cs : List Char) : Decidable (PointApart cs) := inferInstanceAs (Decidable (_ ∧ _))

theorem PointApart.of_append_right {cs k : List Char} (h : PointApart (cs ++ k)) : PointApart k :=
  ⟨fun hk => h.1 (hk.trans (List.suffix_append cs k).isInfix),
    fun hk => h.2 (hk.trans (List.suffix_append cs k).isInfix)⟩

theorem seam_of_sumSign (cs : List Char) {c : Char} (hc : c ∈ sumSigns) (k : List Char) :
    Seam cs (c :: k) := by
  obtain ⟨hblank, hneither⟩ := (by decide : ∀ c ∈ sumSigns,
    isBlank c = false ∧ isDigit c = false ∧ c ≠ '.' ∧ c ≠ '/') c hc
  exact seam_of_not_numeric cs ((forall_head_gap_cons blank_nil hblank k).2 hneither)

theorem joined_cons_iff_of_sumSign {c : Char} (hc : c ∈ sumSigns) {k : List Char} :
    Joined (c :: k) ↔ Joined k := by
  have hkept : ∀ d ∈ [c], isDigit d = false ∧ d ≠ '/' := List.forall_mem_singleton.2
    ((by decide : ∀ c ∈ sumSigns, isDigit c = false ∧ c ≠ '/') c hc)
  exact joined_kept_append_iff hkept

/-- A sum and what follows it are joined if the parts are, and what follows is. -/
theorem joined_sumOf_append_iff (left right k : List Char) :
    Joined (sumOf left right ++ k) ↔ Joined left ∧ Joined right ∧ Joined k := by
  have htext : sumOf left right ++ k = '(' :: (left ++ '+' :: (right ++ ')' :: k)) := by
    simp [sumOf]
  rw [htext, joined_cons_iff_of_sumSign (by decide),
    joined_append_iff (seam_of_sumSign left (by decide) _), joined_cons_iff_of_sumSign (by decide),
    joined_append_iff (seam_of_sumSign right (by decide) _), joined_cons_iff_of_sumSign (by decide)]

theorem joined_sumOf_iff {left right : List Char} :
    Joined (sumOf left right) ↔ Joined left ∧ Joined right := by
  have hnil : Joined [] := joinFractions_nil
  have hsum := joined_sumOf_append_iff left right []
  rwa [List.append_nil, and_iff_left hnil] at hsum

theorem Joined.sum {cs left right k : List Char} (hcs : Joined cs)
    (hsum : Joined (sumOf left right)) (hk : Joined k) :
    Joined (cs ++ (sumOf left right ++ k)) := by
  obtain ⟨hleft, hright⟩ := joined_sumOf_iff.1 hsum
  exact (joined_append_iff (seam_of_sumSign cs (by decide) _)).2
    ⟨hcs, (joined_sumOf_append_iff left right k).2 ⟨hleft, hright, hk⟩⟩

/-- A rule that writes sums of joined parts. -/
structure Rule.KeepsJoined (r : Rule) : Prop extends r.WritesSums where
  /-- It fires at a digit before the place where it fires. -/
  begins : ∀ {d : Char} {cs : List Char}, isDigit d = true → r.fire? (d :: cs) = none →
    r.fire? cs = none
  /-- What is before a sum, the sum and what is after it are joined, unless a decimal is cut. -/
  parts : ∀ {pre cs out rest : List Char}, r.fire? cs = some (out, rest) → Joined (pre ++ cs) →
    NoNumberLast pre → (∀ c ∈ (r.pass rest).head?, c ≠ '.') →
    Joined pre ∧ Joined out ∧ Joined rest

/-- **Where no decimal is cut, a joined text stays joined when sums are written.** -/
theorem Rule.KeepsJoined.joined_append_pass {r : Rule} (hr : r.KeepsJoined) {pre cs : List Char}
    (hpre : r.Kept pre cs) (hjoined : Joined (pre ++ cs)) (hpoint : PointApart (pre ++ r.pass cs)) :
    Joined (pre ++ r.pass cs) := by
  fun_induction Rule.pass r cs generalizing pre with
  | case1 => exact hjoined
  | case2 c cs out rest hfire _ ih =>
    obtain ⟨left, gap, right, -, -, rfl, -, -⟩ := hr.writes hfire
    have hlast : NoNumberLast pre := by
      intro d hd
      obtain ⟨before, rfl⟩ := List.getLast?_eq_some_iff.1 hd
      constructor
      · refine Bool.eq_false_iff.2 fun hdigit => ?_
        have hnone : r.fire? (c :: cs) = none :=
          hr.begins hdigit (hpre [d] (List.cons_ne_nil d []) (List.suffix_append _ _))
        rw [hfire] at hnone
        cases hnone
      · rintro rfl
        refine hpoint.1 ⟨before, left ++ '+' :: (right ++ ')' :: r.pass rest), ?_⟩
        simp [sumOf]
    have hfirst : ∀ d ∈ (r.pass rest).head?, d ≠ '.' := by
      rintro d hd rfl
      obtain ⟨post, hpost⟩ := List.head?_eq_some_iff.1 hd
      refine hpoint.2 ⟨pre ++ '(' :: (left ++ '+' :: right), post, ?_⟩
      simp [sumOf, hpost]
    obtain ⟨hjpre, hjout, hjrest⟩ := hr.parts hfire hjoined hlast hfirst
    exact hjpre.sum hjout
      (ih (Kept.nil r rest) hjrest hpoint.of_append_right.of_append_right)
  | case3 c cs hfire ih =>
    rw [List.append_cons] at hjoined hpoint ⊢
    exact ih (hpre.concat hfire) hjoined hpoint

theorem keepsJoined_mixedRule : mixedRule.KeepsJoined where
  toWritesSums := writesSums_mixedRule
  begins {d cs} hd h := by
    refine Classical.byContradiction fun hsome => ?_
    obtain ⟨run, gap, num, den, k, hr, hg, hn, hden, rfl⟩ := mixedRule_fire?_ne_none_iff.1 hsome
    have hrun : DigitRun (d :: run) := ⟨List.cons_ne_nil d run, List.forall_mem_cons.2 ⟨hd, hr.2⟩⟩
    exact mixedRule_fire?_ne_none_iff.2 ⟨d :: run, gap, num, den, k, hrun, hg, hn, hden, rfl⟩ h
  parts {pre cs out rest} hfire hjoined hlast hfirst := by
    obtain ⟨run, gap, num, den, hscan, rfl⟩ := mixedRule_fire?_eq_some_iff.1 hfire
    obtain ⟨rfl, hr, hg, hn, hd, hk⟩ := Literal.scan?_eq_mixed_iff.1 hscan
    -- a point after the sum would be kept
    have hpoint : signedRun? '.' rest = none := by
      refine signedRun?_eq_none fun c hc hc' => ?_
      obtain ⟨k, rfl⟩ := List.head?_eq_some_iff.1 hc
      subst hc'
      rw [Rule.pass_of_not_fire (mixedRule_fire?_eq_none (Literal.noDigitFirst_point k))] at hfirst
      exact hfirst '.' rfl rfl
    have hseam : Seam (pre ++ run) (gap ++ (num ++ '/' :: (den ++ rest))) := by
      refine seam_of_run_gap pre hr hg ?_
      rw [trimStart_eq_self (Literal.isBlank_head_run hn _)]
      obtain ⟨n, num, rfl⟩ := List.exists_cons_of_ne_nil hn.1
      rintro _ ⟨⟩ rfl
      exact absurd (hn.2 '/' List.mem_cons_self) (by decide)
    rw [← List.append_assoc, joined_append_iff hseam, joined_gap_append_iff hg.2,
      joined_fraction_append_iff hn hd hk hpoint] at hjoined
    refine ⟨hjoined.1.of_append hlast, joined_sumOf_iff.2 ⟨?_, ?_⟩, hjoined.2⟩
    · exact joined_text (l := .whole run) hr
    · exact joined_text (l := .fraction num den) ⟨hn, hd⟩

/-- A literal goes on to the left with a digit. -/
theorem Literal.exists_cons {l : Literal} (hl : l.Digital) {d : Char} (hd : isDigit d = true) :
    ∃ l' : Literal, l'.Digital ∧ l'.text = d :: l.text := by
  have hrun {run : List Char} (hr : ∀ c ∈ run, isDigit c = true) : DigitRun (d :: run) :=
    ⟨List.cons_ne_nil d run, List.forall_mem_cons.2 ⟨hd, hr⟩⟩
  cases l with
  | whole run => exact ⟨.whole (d :: run), hrun hl.2, rfl⟩
  | decimal run decimals => exact ⟨.decimal (d :: run) decimals, ⟨(hrun hl.1).2, hl.2⟩, rfl⟩
  | fraction num den => exact ⟨.fraction (d :: num) den, ⟨hrun hl.1.2, hl.2⟩, rfl⟩
  | mixed run gap num den =>
    exact ⟨.mixed (d :: run) gap num den, ⟨hrun hl.1.2, hl.2⟩, rfl⟩

/-- Letters after a number are no part of a division, with blanks before them or without. -/
theorem seam_of_gap_letters (cs : List Char) {gap name k : List Char}
    (hg : ∀ c ∈ gap, isBlank c = true) (hne : name ≠ []) (hname : ∀ c ∈ name, IsLetter c) :
    Seam cs (gap ++ (name ++ k)) := by
  obtain ⟨c, name, rfl⟩ := List.exists_cons_of_ne_nil hne
  have hc := hname c List.mem_cons_self
  refine seam_of_not_numeric cs ((forall_head_gap_cons hg hc.isBlank _).2 ?_)
  exact ⟨hc.neither.1, hc.neither.2, hc.ne_slash⟩

theorem seam_of_letters (cs : List Char) {name k : List Char} (hne : name ≠ [])
    (hname : ∀ c ∈ name, IsLetter c) : Seam cs (name ++ k) :=
  seam_of_gap_letters cs blank_nil hne hname

theorem joined_letters_append_iff {name k : List Char} (hname : ∀ c ∈ name, IsLetter c) :
    Joined (name ++ k) ↔ Joined k :=
  joined_kept_append_iff fun c hc => ⟨(hname c hc).neither.1, (hname c hc).ne_slash⟩

theorem joined_measure {l : Literal} (hl : l.Digital) {name : List Char} (hne : name ≠ [])
    (hname : ∀ c ∈ name, IsLetter c) : Joined (l.text ++ name) := by
  have hletters := (joined_letters_append_iff hname (k := [])).2 joinFractions_nil
  have hjoined := (joined_append_iff (seam_of_letters l.text hne hname)).2 ⟨joined_text hl, hletters⟩
  rwa [List.append_nil] at hjoined

theorem keepsJoined_feetInchesRule : feetInchesRule.KeepsJoined where
  toWritesSums := writesSums_feetInchesRule
  begins {d cs} hd h := by
    refine Option.eq_none_iff_forall_ne_some.2 fun ⟨out, rest⟩ hfire => ?_
    obtain ⟨feet, after, inches, hfeet, hinches, rfl⟩ := feetInchesRule_fire?_eq_some_iff.1 hfire
    obtain ⟨l, name, hl, hname, rfl, rfl⟩ := measureAt?_eq_some_iff.1 hfeet
    obtain ⟨l', hl', htext⟩ := Literal.exists_cons hl hd
    have hlonger : measureAt? .foot (d :: (l.text ++ (name ++ after))) =
        some (l'.text ++ name, after) :=
      measureAt?_eq_some_iff.2 ⟨l', name, hl', hname, by rw [htext]; rfl, rfl⟩
    rw [feetInchesRule_fire?_eq_some_iff.2 ⟨_, _, _, hlonger, hinches, rfl⟩] at h
    cases h
  parts {pre cs out rest} hfire hjoined hlast _ := by
    obtain ⟨feet, after, inches, hfeet, hinches, rfl⟩ := feetInchesRule_fire?_eq_some_iff.1 hfire
    obtain ⟨l, name, hl, hname, rfl, rfl⟩ := measureAt?_eq_some_iff.1 hfeet
    obtain ⟨l', name', hl', hname', hafter, rfl⟩ := measureAt?_eq_some_iff.1 hinches
    obtain ⟨hne, hletters⟩ := hname.letters
    obtain ⟨hne', hletters'⟩ := hname'.letters
    obtain ⟨gap, hgap, hblank⟩ := exists_eq_gap_append after
    rw [hblank, hafter, ← List.append_assoc, joined_append_iff (seam_of_letters _ hne hletters),
      joined_letters_append_iff hletters, joined_gap_append_iff hgap,
      joined_append_iff (seam_of_letters _ hne' hletters'), joined_letters_append_iff hletters']
      at hjoined
    exact ⟨hjoined.1.of_append hlast,
      joined_sumOf_iff.2 ⟨joined_measure hl hne hletters, joined_measure hl' hne' hletters'⟩,
      hjoined.2.2⟩

theorem joined_append_joinUnits {pre cs : List Char} (h : Joined (pre ++ cs)) :
    Joined (pre ++ joinUnits cs) := by
  change Joined (pre ++ unitRule.pass cs)
  fun_induction Rule.pass unitRule cs generalizing pre with
  | case1 => exact h
  | case2 c cs out rest hfire _ ih =>
    obtain ⟨l, gap, name, hl, hgap, ⟨hne, hname⟩, hcs, rfl⟩ := unitRule_fire?_eq_some hfire
    have hletters : ∀ c ∈ name, IsLetter c := fun c hc => .inl (hname c hc)
    rw [hcs, ← List.append_assoc, joined_append_iff (seam_of_gap_letters _ hgap.2 hne hletters),
      joined_gap_append_iff hgap.2, joined_letters_append_iff hletters] at h
    rw [List.append_assoc, ← List.append_assoc,
      joined_append_iff (seam_of_letters _ hne hletters), joined_letters_append_iff hletters]
    exact ⟨h.1, @ih [] h.2⟩
  | case3 c cs hfire ih =>
    rw [List.append_cons] at h ⊢
    exact ih h

/-- Units that are joined to their numbers leave the fractions as they are. -/
theorem Joined.joinUnits {cs : List Char} (h : Joined cs) : Joined (joinUnits cs) :=
  @joined_append_joinUnits [] cs h

/-- Where no decimal is cut, the last passes leave joined fractions joined. -/
theorem joined_finish {mode : Mode} {cs : List Char} (h : Joined cs)
    (hpoint : PointApart (finish mode cs)) : Joined (finish mode cs) := by
  cases mode with
  | basic => exact keepsJoined_mixedRule.joined_append_pass (Rule.Kept.nil _ cs) h hpoint
  | advanced =>
    exact keepsJoined_feetInchesRule.joined_append_pass (Rule.Kept.nil _ (joinUnits cs))
      h.joinUnits hpoint

/--
**Preparing a formula again changes nothing unless a point stands beside a parenthesis.** The second
preparation changes the formula exactly if that has a division left that is written as a fraction
then. This happens only if a point stands directly before an opening parenthesis of the formula or
after a closing one, as where a sum has taken a part of a decimal.
-/
theorem prepare_again (mode : Mode) (expression : List Char) :
    ∃ formula again, (prepare mode expression).result = .ok formula ∧
      (prepare mode formula).result = .ok again ∧
      (again = formula ↔ joinFractions formula = formula) ∧
      (PointApart formula → again = formula) := by
  refine ⟨_, _, result_prepare mode expression, result_prepare_again (result_prepare mode expression),
    finish_joinFractions_eq_iff mode _, fun hpoint => ?_⟩
  exact (finish_joinFractions_eq_iff mode _).2 (joined_finish (joined_joinFractions _) hpoint)

/-- A length with its units apart, in typographic signs. -/
theorem prepare_again_feet_inches :
    ∃ formula again, (prepare .advanced " 5 ft 3 1 / 2 in ÷ 2".toList).result = .ok formula ∧
      formula = "(5ft+3 1/2in) / 2".toList ∧ PointApart formula ∧
      (prepare .advanced formula).result = .ok again ∧ again = formula := by
  obtain ⟨formula, again, hformula, hagain, -, hsame⟩ :=
    prepare_again .advanced " 5 ft 3 1 / 2 in ÷ 2".toList
  have hvalue : (prepare .advanced " 5 ft 3 1 / 2 in ÷ 2".toList).result =
      .ok "(5ft+3 1/2in) / 2".toList := by decide +kernel
  obtain rfl := Except.ok.inj (hformula.symm.trans hvalue)
  have hpoint : PointApart "(5ft+3 1/2in) / 2".toList := by decide +kernel
  exact ⟨_, again, hvalue, rfl, hpoint, hagain, hsame hpoint⟩

/-- A mixed fraction that takes the decimals of a divisor leaves a fraction to be joined. -/
theorem prepare_again_changes :
    (prepare .basic "7 / 3.5 1/2".toList).result = .ok "7 / 3.(5+1/2)".toList ∧
      (prepare .basic "7 / 3.(5+1/2)".toList).result = .ok "7/3.(5+1/2)".toList ∧
      "7/3.(5+1/2)".toList ≠ "7 / 3.(5+1/2)".toList := by
  decide +kernel

end Footrule
