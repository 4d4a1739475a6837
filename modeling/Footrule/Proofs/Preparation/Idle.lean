import Footrule.Proofs.Breaks.Stretches
import Footrule.Proofs.Preparation.Grouping

/-!
# Texts in which a rule is idle

A rule that fires nowhere in a text leaves it as it is. After a pass of a rule that writes sums, the
rule is idle (`Rule.WritesSums.idle_pass`), and a rule that was idle before still is
(`Rule.Local.idle_pass`). Joining units leaves none to be joined (`idle_joinUnits`). So the last
passes of the preparation, done a second time, change nothing (`finish_finish`).
-/

namespace Footrule

open Formula

theorem suffix_append_cases {t cs k : List Char} (h : t <:+ cs ++ k) :
    t <:+ k ∨ ∃ s, s <:+ cs ∧ t = s ++ k := by
  obtain ⟨pre, hpre⟩ := h
  rcases List.append_eq_append_iff.1 hpre with ⟨s, hcs, rfl⟩ | ⟨s, -, hk⟩
  · exact .inr ⟨s, ⟨pre, hcs.symm⟩, rfl⟩
  · exact .inl ⟨s, hk.symm⟩

/-! ## Rules -/

namespace Rule

variable {q r : Rule} {cs k pre left right : List Char}

/-- The rule fires nowhere in the text. -/
def Idle (r : Rule) (cs : List Char) : Prop := ∀ t : List Char, t <:+ cs → r.fire? t = none

/-- The rule looks at no more of a text than it has to, and starts at no break. -/
structure Local (r : Rule) : Prop where
  stops : StopsAtBreaks r.fire?
  skips : ∀ {c : Char} (k : List Char), StartsBreak c → r.fire? (c :: k) = none
  grows : ∀ {cs k : List Char}, r.fire? (cs ++ k) = none → r.fire? cs = none

/-- A rule that is idle in a text leaves it as it is. -/
theorem Idle.pass (h : r.Idle cs) : r.pass cs = cs := pass_eq_self fun {t} ht => h t ht

theorem FiresAtLiterals.skips {safe : Literal → List Char → Prop} (h : r.FiresAtLiterals safe)
    {c : Char} (k : List Char) (hc : StartsBreak c) : r.fire? (c :: k) = none := by
  refine h.elsewhere (Literal.scan?_eq_none fun d hd => ?_)
  rw [← Option.some.inj hd]
  exact hc.neither

theorem idle_nil (r : Rule) : r.Idle [] := by
  intro t ht
  rw [List.suffix_nil.1 ht]
  refine Option.eq_none_iff_forall_ne_some.2 fun ⟨out, rest⟩ h => ?_
  exact Nat.not_lt_zero _ (r.shrinks h)

namespace Idle

theorem of_append_right (h : r.Idle (cs ++ k)) : r.Idle k :=
  fun t ht => h t (ht.trans (List.suffix_append cs k))

theorem of_append_left (hr : r.Local) (h : r.Idle (cs ++ k)) : r.Idle cs := by
  rintro t ⟨pre, rfl⟩
  exact hr.grows (h (t ++ k) ⟨pre, (List.append_assoc pre t k).symm⟩)

theorem cons {c : Char} (hc : r.fire? (c :: k) = none) (h : r.Idle k) : r.Idle (c :: k) := by
  intro t ht
  rcases List.suffix_cons_iff.1 ht with rfl | ht
  · exact hc
  · exact h t ht

theorem append (hr : r.Local) (hk : Breaks k) (hcs : r.Idle cs) (h : r.Idle k) :
    r.Idle (cs ++ k) := by
  intro t ht
  rcases suffix_append_cases ht with ht | ⟨s, hs, rfl⟩
  · exact h t ht
  · rw [hr.stops s hk, hcs s hs, Option.map_none]

theorem sign (hr : r.Local) {m : Mark} (hm : m ≠ .operator .div) (h : r.Idle k) :
    r.Idle (m.sign :: k) :=
  h.cons (hr.skips k (.inr ⟨m, hm, rfl⟩))

/-- A rule is idle in a sum if it is in its parts. -/
theorem sum (hr : r.Local) (hcs : r.Idle cs) (hleft : r.Idle left) (hright : r.Idle right)
    (h : r.Idle k) : r.Idle (cs ++ (sumOf left right ++ k)) := by
  have hclose := h.sign hr (m := .closing) (by decide)
  have hplus := (hright.append hr (.sign (by decide) k) hclose).sign hr (m := .operator .add)
    (by decide)
  have hopen := (hleft.append hr (.sign (by decide) _) hplus).sign hr (m := .opening) (by decide)
  have hsum := hcs.append hr (.sign (by decide) _) hopen
  simpa [sumOf, Mark.sign, Operator.sign] using hsum

end Idle

/-- The rule writes sums where it fires, and it is idle in their parts. -/
structure WritesSums (r : Rule) : Prop extends r.Local where
  writes : ∀ {cs out rest : List Char}, r.fire? cs = some (out, rest) →
    ∃ left gap right, (∀ c ∈ gap, isBlank c = true) ∧ cs = left ++ (gap ++ (right ++ rest)) ∧
      out = sumOf left right ∧ r.Idle left ∧ r.Idle right

/-- At no character of the text does the rule fire, with the rest after it. -/
def Kept (r : Rule) (pre cs : List Char) : Prop :=
  ∀ s : List Char, s ≠ [] → s <:+ pre → r.fire? (s ++ cs) = none

namespace Kept

theorem nil (r : Rule) (cs : List Char) : r.Kept [] cs :=
  fun _ hne hs => (hne (List.suffix_nil.1 hs)).elim

theorem concat {c : Char} (h : r.Kept pre (c :: cs)) (hc : r.fire? (c :: cs) = none) :
    r.Kept (pre ++ [c]) cs := by
  intro s hne hs
  rcases List.suffix_concat_iff.1 hs with rfl | ⟨t, rfl, ht⟩
  · exact (hne rfl).elim
  · rw [← List.append_cons]
    by_cases htne : t = []
    · rw [htne]
      exact hc
    · exact h t htne ht

theorem idle (hr : r.Local) (h : r.Kept pre cs) : r.Idle pre := by
  intro s hs
  by_cases hne : s = []
  · rw [hne]
    exact r.idle_nil [] List.nil_suffix
  · exact hr.grows (h s hne hs)

end Kept

/-- **After a pass that writes sums the rule is idle**, in a text that it has kept before as well. -/
theorem WritesSums.idle_append_pass (hr : r.WritesSums) (hpre : r.Kept pre cs) :
    r.Idle (pre ++ r.pass cs) := by
  fun_induction Rule.pass r cs generalizing pre with
  | case1 =>
    rw [List.append_nil]
    exact hpre.idle hr.toLocal
  | case2 c cs out rest hfire _ ih =>
    obtain ⟨left, gap, right, -, -, rfl, hleft, hright⟩ := hr.writes hfire
    exact (hpre.idle hr.toLocal).sum hr.toLocal hleft hright (ih (Kept.nil r rest))
  | case3 c cs hfire ih =>
    rw [List.append_cons]
    exact ih (hpre.concat hfire)

theorem WritesSums.idle_pass (hr : r.WritesSums) (cs : List Char) : r.Idle (r.pass cs) :=
  hr.idle_append_pass (Kept.nil r cs)

theorem Local.idle_append_pass (hq : q.Local) (hr : r.WritesSums) (h : q.Idle (pre ++ cs)) :
    q.Idle (pre ++ r.pass cs) := by
  fun_induction Rule.pass r cs generalizing pre with
  | case1 => exact h
  | case2 c cs out rest hfire _ ih =>
    obtain ⟨left, gap, right, -, hcs, rfl, -, -⟩ := hr.writes hfire
    rw [hcs] at h
    have hparts := h.of_append_right
    have hright := hparts.of_append_right.of_append_right
    exact (h.of_append_left hq).sum hq (hparts.of_append_left hq) (hright.of_append_left hq)
      (@ih [] hright.of_append_right)
  | case3 c cs hfire ih =>
    rw [List.append_cons] at h ⊢
    exact ih h

/-- **A rule that is idle stays so when sums are written.** -/
theorem Local.idle_pass (hq : q.Local) (hr : r.WritesSums) (h : q.Idle cs) : q.Idle (r.pass cs) :=
  @idle_append_pass q r cs [] hq hr h

end Rule

/-! ## Mixed fractions -/

/-- The denominator of a mixed fraction takes all the digits that follow. -/
theorem scan?_mixed_append {run gap num den : List Char} (hr : DigitRun run) (hg : BlankRun gap)
    (hn : DigitRun num) (hd : DigitRun den) (k : List Char) :
    Literal.scan? (run ++ (gap ++ (num ++ '/' :: (den ++ k)))) =
      some (.mixed run gap num (den ++ k.takeWhile isDigit), k.dropWhile isDigit) := by
  have hmore : ∀ c ∈ k.takeWhile isDigit, isDigit c = true := List.all_eq_true.1 List.all_takeWhile
  have hscan := scan?_mixed hr hg hn (hd.append hmore) (head_dropWhile isDigit k)
  rwa [List.append_assoc, List.takeWhile_append_dropWhile] at hscan

/-- A mixed fraction is found exactly where one stands that no digit follows. -/
theorem Literal.scan?_eq_mixed_iff {cs run gap num den k : List Char} :
    scan? cs = some (mixed run gap num den, k) ↔
      cs = run ++ (gap ++ (num ++ '/' :: (den ++ k))) ∧ DigitRun run ∧ BlankRun gap ∧
        DigitRun num ∧ DigitRun den ∧ NoDigitFirst k := by
  refine ⟨fun h => ?_, fun ⟨hcs, hr, hg, hn, hd, hk⟩ => hcs ▸ scan?_mixed hr hg hn hd hk⟩
  obtain ⟨hr, hg, hn, hd⟩ := digital_of_scan? h
  have hcs := append_of_scan? h
  rw [mixed_text_append] at hcs
  have hscan := scan?_mixed_append hr hg hn hd k
  rw [← hcs, h] at hscan
  have hk := head_dropWhile isDigit k
  rw [← (Prod.mk.inj (Option.some.inj hscan)).2] at hk
  exact ⟨hcs, hr, hg, hn, hd, hk⟩

theorem mixedRule_fire?_ne_none_iff {cs : List Char} :
    mixedRule.fire? cs ≠ none ↔ ∃ run gap num den k, DigitRun run ∧ BlankRun gap ∧
      DigitRun num ∧ DigitRun den ∧ cs = run ++ (gap ++ (num ++ '/' :: (den ++ k))) := by
  constructor
  · intro h
    obtain ⟨⟨out, k⟩, hfire⟩ := Option.ne_none_iff_exists'.1 h
    obtain ⟨run, gap, num, den, hscan, -⟩ := mixedRule_fire?_eq_some_iff.1 hfire
    obtain ⟨hcs, hr, hg, hn, hd, -⟩ := Literal.scan?_eq_mixed_iff.1 hscan
    exact ⟨run, gap, num, den, k, hr, hg, hn, hd, hcs⟩
  · rintro ⟨run, gap, num, den, k, hr, hg, hn, hd, rfl⟩
    have hscan := scan?_mixed_append hr hg hn hd k
    rw [mixedRule_fire?_eq_some_iff.2 ⟨run, gap, num, _, hscan, rfl⟩]
    exact Option.some_ne_none _

theorem mixedRule_fire?_eq_none {cs : List Char} (h : NoDigitFirst cs) :
    mixedRule.fire? cs = none := by
  refine Classical.byContradiction fun hsome => ?_
  obtain ⟨run, _, _, _, _, hr, -, -, -, rfl⟩ := mixedRule_fire?_ne_none_iff.1 hsome
  obtain ⟨c, run, rfl⟩ := List.exists_cons_of_ne_nil hr.1
  exact Bool.eq_false_iff.1 (h c rfl) (hr.2 c List.mem_cons_self)

theorem local_mixedRule : mixedRule.Local where
  stops := mixedRule_stops
  skips := firesAtLiterals_mixed.skips
  grows {cs k} h := by
    refine Classical.byContradiction fun hsome => ?_
    obtain ⟨run, gap, num, den, rest, hr, hg, hn, hd, rfl⟩ := mixedRule_fire?_ne_none_iff.1 hsome
    exact mixedRule_fire?_ne_none_iff.2
      ⟨run, gap, num, den, rest ++ k, hr, hg, hn, hd, by simp⟩ h

theorem idle_mixedRule {cs : List Char} (h : ∀ c ∈ cs, isBlank c = false) : mixedRule.Idle cs := by
  intro t ht
  refine Classical.byContradiction fun hsome => ?_
  obtain ⟨run, gap, num, den, k, -, hg, -, -, rfl⟩ := mixedRule_fire?_ne_none_iff.1 hsome
  obtain ⟨b, gap, rfl⟩ := List.exists_cons_of_ne_nil hg.1
  have hb := hg.2 b List.mem_cons_self
  rw [h b (ht.mem (by simp))] at hb
  cases hb

theorem writesSums_mixedRule : mixedRule.WritesSums where
  toLocal := local_mixedRule
  writes h := by
    obtain ⟨run, gap, num, den, hscan, rfl⟩ := mixedRule_fire?_eq_some_iff.1 h
    obtain ⟨rfl, hr, hg, hn, hd, -⟩ := Literal.scan?_eq_mixed_iff.1 hscan
    have hnone {run : List Char} (hr : DigitRun run) : ∀ c ∈ run, isBlank c = false :=
      fun c hc => isBlank_eq_false_of_isDigit (hr.2 c hc)
    have hfraction : ∀ c ∈ num ++ '/' :: den, isBlank c = false :=
      List.forall_mem_append.2 ⟨hnone hn, List.forall_mem_cons.2 ⟨by decide, hnone hd⟩⟩
    exact ⟨run, gap, num ++ '/' :: den, hg.2, by simp, rfl, idle_mixedRule (hnone hr),
      idle_mixedRule hfraction⟩

/-! ## Feet and inches -/

theorem wordAt?_append_right {word cs w rest : List Char} (h : wordAt? word cs = some (w, rest))
    (k : List Char) : wordAt? word (cs ++ k) = some (w, rest ++ k) := by
  fun_induction wordAt? word cs generalizing w with
  | case1 =>
    cases h
    rfl
  | case2 => cases h
  | case3 letter word c cs hform ih =>
    obtain ⟨⟨w', r⟩, hw, he⟩ := Option.map_eq_some_iff.1 h
    obtain ⟨rfl, rfl⟩ := Prod.mk.inj he
    rw [List.cons_append, wordAt?, if_pos hform, ih hw, Option.map_some]
  | case4 => cases h

theorem eq_of_isFormOf {letter letter' c : Char} (hl : letter.isAlpha = true)
    (hl' : letter'.isAlpha = true) (h : isFormOf letter c = true)
    (h' : isFormOf letter' c = true) : letter = letter' := by
  simp only [isFormOf, Bool.or_eq_true, Bool.and_eq_true, decide_eq_true_eq] at h h'
  rcases h with rfl | ⟨rfl, rfl⟩ <;> rcases h' with rfl | ⟨rfl, h'⟩
  · rfl
  · rw [h'] at hl
    exact absurd hl (by decide)
  · exact absurd hl' (by decide)
  · rfl

/-- If a word is found only in a longer text, it begins with the words that are found before. -/
theorem prefix_of_wordAt? {word word' cs k : List Char} (hword : ∀ c ∈ word, c.isAlpha = true)
    (hword' : ∀ c ∈ word', c.isAlpha = true) (h : wordAt? word cs ≠ none)
    (h' : wordAt? word' cs = none) (hk : wordAt? word' (cs ++ k) ≠ none) : word <+: word' := by
  induction word generalizing word' cs with
  | nil => exact List.nil_prefix
  | cons letter word ih =>
    obtain ⟨hletter, hword⟩ := List.forall_mem_cons.1 hword
    match word', cs with
    | [], _ => cases h'
    | _ :: _, [] => exact (h rfl).elim
    | letter' :: word', c :: cs =>
      obtain ⟨hletter', hothers⟩ := List.forall_mem_cons.1 hword'
      simp only [List.cons_append, wordAt?, ne_eq, ite_eq_right_iff, Option.map_eq_none_iff,
        Classical.not_imp] at h h' hk
      obtain rfl := eq_of_isFormOf hletter hletter' h.1 hk.1
      exact List.cons_prefix_cons.2 ⟨rfl, ih hword hothers h.2 (h' hk.1) hk.2⟩

theorem firstWordAt?_append_right {words : List String} {cs name rest : List Char}
    (hwords : ∀ word ∈ words, ∀ c ∈ word.toList, c.isAlpha = true)
    (hpair : words.Pairwise fun word word' => ¬ word'.toList <+: word.toList)
    (h : firstWordAt? words cs = some (name, rest)) (k : List Char) :
    firstWordAt? words (cs ++ k) = some (name, rest ++ k) := by
  induction words with
  | nil => cases h
  | cons word words ih =>
    obtain ⟨hword, hwords⟩ := List.forall_mem_cons.1 hwords
    obtain ⟨hfirst, hpair⟩ := List.pairwise_cons.1 hpair
    simp only [firstWordAt?, List.findSome?_cons] at h ih ⊢
    cases hw : wordAt? word.toList cs with
    | some found =>
      rw [hw] at h
      rw [wordAt?_append_right (hw.trans h)]
    | none =>
      rw [hw] at h
      have hnone : wordAt? word.toList (cs ++ k) = none := by
        refine Classical.byContradiction fun hsome => ?_
        obtain ⟨word', hmem, hword'⟩ := List.exists_of_findSome?_eq_some h
        refine hfirst word' hmem (prefix_of_wordAt? (hwords word' hmem) hword ?_ hw hsome)
        rw [hword']
        exact Option.some_ne_none _
      rw [hnone]
      exact ih hwords hpair h

namespace LengthUnit

/-- No name of the foot becomes another one when the text goes on. -/
theorem Names.append {name rest : List Char} (h : foot.Names name rest) (k : List Char) :
    foot.Names name (rest ++ k) := by
  have hpair : foot.aliases.Pairwise fun word word' => ¬ word'.toList <+: word.toList := by decide
  have hgrown := firstWordAt?_append_right (fun _ hword => (letters_of_mem_aliases hword).2) hpair h k
  rwa [List.append_assoc] at hgrown

end LengthUnit

/-- A length is found, with the same name or a longer one, if the text goes on. -/
theorem measureAt?_append {u : LengthUnit} {cs out rest : List Char}
    (h : measureAt? u cs = some (out, rest)) (k : List Char) : measureAt? u (cs ++ k) ≠ none := by
  obtain ⟨l, name, hl, hname, rfl, -⟩ := measureAt?_eq_some_iff.1 h
  obtain ⟨word, hmem, hword⟩ := List.exists_of_findSome?_eq_some hname
  cases hfound : firstWordAt? u.aliases (name ++ rest ++ k) with
  | none =>
    have hnone := List.findSome?_eq_none_iff.1 hfound word hmem
    rw [wordAt?_append_right hword] at hnone
    cases hnone
  | some found =>
    obtain ⟨name', rest'⟩ := found
    have hsplit := append_of_firstWordAt? hfound
    rw [hsplit] at hfound
    rw [List.append_assoc, hsplit, measureAt?_eq_some_iff.2 ⟨l, name', hl, hfound, rfl, rfl⟩]
    exact Option.some_ne_none _

theorem local_feetInchesRule : feetInchesRule.Local where
  stops := feetInchesRule_stops
  skips := firesAtLiterals_feetInches.skips
  grows {cs k} h := by
    refine Option.eq_none_iff_forall_ne_some.2 fun ⟨out, rest⟩ hfire => ?_
    obtain ⟨feet, after, inches, hfeet, hinches, rfl⟩ := feetInchesRule_fire?_eq_some_iff.1 hfire
    obtain ⟨l, name, hl, hname, rfl, rfl⟩ := measureAt?_eq_some_iff.1 hfeet
    have hgrown : measureAt? .foot (l.text ++ (name ++ after) ++ k) =
        some (l.text ++ name, after ++ k) :=
      measureAt?_eq_some_iff.2 ⟨l, name, hl, hname.append k, by simp, rfl⟩
    have htrim : trimStart (after ++ k) = trimStart after ++ k := by
      rcases trimStart_append_cases after k with ⟨hnil, -⟩ | ⟨-, happ⟩
      · rw [hnil] at hinches
        cases hinches
      · exact happ
    obtain ⟨⟨inches', rest'⟩, hsome⟩ := Option.ne_none_iff_exists'.1 (measureAt?_append hinches k)
    rw [← htrim] at hsome
    rw [feetInchesRule_fire?_eq_some_iff.2 ⟨_, _, _, hgrown, hsome, rfl⟩] at h
    cases h

/-- Feet and inches have a letter before a digit or a point. -/
theorem idle_feetInchesRule {cs : List Char}
    (h : ∀ c d : Char, IsLetter c → (isDigit d = true ∨ d = '.') → ¬ [c, d].Sublist cs) :
    feetInchesRule.Idle cs := by
  intro t ht
  refine Option.eq_none_iff_forall_ne_some.2 fun ⟨out, rest⟩ hfire => ?_
  obtain ⟨feet, after, inches, hfeet, hinches, -⟩ := feetInchesRule_fire?_eq_some_iff.1 hfire
  obtain ⟨l, name, -, hname, rfl, -⟩ := measureAt?_eq_some_iff.1 hfeet
  obtain ⟨l', name', hl', -, hafter, -⟩ := measureAt?_eq_some_iff.1 hinches
  obtain ⟨d, post, hpost, hd⟩ := l'.head_text hl' (name' ++ rest)
  obtain ⟨hne, hletters⟩ := hname.letters
  obtain ⟨c, hc⟩ := List.exists_mem_of_ne_nil name hne
  have hmem : d ∈ after := by
    refine (List.dropWhile_sublist isBlank).mem ?_
    rw [← trimStart, hafter, hpost]
    exact List.mem_cons_self
  have hpair : ([c] ++ [d]).Sublist (name ++ after) :=
    (List.singleton_sublist.2 hc).append (List.singleton_sublist.2 hmem)
  exact h c d (hletters c hc) hd
    (hpair.trans ((List.sublist_append_right l.text _).trans ht.sublist))

/-- In a length in one unit the letters come last. -/
theorem idle_measure {l : Literal} (hl : l.Digital) {name : List Char}
    (hname : ∀ c ∈ name, IsLetter c) : feetInchesRule.Idle (l.text ++ name) := by
  refine idle_feetInchesRule fun c d hc hd hsub => ?_
  obtain ⟨x, y, hxy, hx, hy⟩ := List.sublist_append_iff.1 hsub
  cases x with
  | nil =>
    obtain rfl := hxy
    have hnot := (hname d (hy.mem (by simp))).not_isNumeric
    exact hnot (hd.elim .inl fun hpoint => .inr (.inr (.inl hpoint)))
  | cons e x =>
    obtain rfl := (List.cons.inj hxy).1
    exact hc.not_isNumeric (hl.isNumeric c (hx.mem List.mem_cons_self))

theorem writesSums_feetInchesRule : feetInchesRule.WritesSums where
  toLocal := local_feetInchesRule
  writes h := by
    obtain ⟨feet, after, inches, hfeet, hinches, rfl⟩ := feetInchesRule_fire?_eq_some_iff.1 h
    obtain ⟨l, name, hl, hname, rfl, rfl⟩ := measureAt?_eq_some_iff.1 hfeet
    obtain ⟨l', name', hl', hname', hafter, rfl⟩ := measureAt?_eq_some_iff.1 hinches
    obtain ⟨gap, hgap, hblank⟩ := exists_eq_gap_append after
    refine ⟨l.text ++ name, gap, l'.text ++ name', hgap, ?_, rfl,
      idle_measure hl hname.letters.2, idle_measure hl' hname'.letters.2⟩
    rw [hblank, hafter]
    simp

/-! ## Units -/

/-- Blanks come first, and then a letter. -/
def LetterApart (k : List Char) : Prop :=
  ∃ gap c post, BlankRun gap ∧ c.isAlpha = true ∧ k = gap ++ c :: post

theorem LetterApart.append {k : List Char} (h : LetterApart k) (k' : List Char) :
    LetterApart (k ++ k') := by
  obtain ⟨gap, c, post, hg, hc, rfl⟩ := h
  exact ⟨gap, c, post ++ k', hg, hc, by simp⟩

theorem LetterApart.not_isBlank_head {k : List Char} (h : LetterApart k) :
    ¬ ∀ c ∈ k.head?, isBlank c = false := by
  obtain ⟨gap, c, post, hgap, -, rfl⟩ := h
  obtain ⟨b, gap, rfl⟩ := List.exists_cons_of_ne_nil hgap.1
  intro hhead
  have hb := hgap.2 b List.mem_cons_self
  rw [hhead b rfl] at hb
  cases hb

/-- Units are joined exactly to the numbers before blanks and a letter. -/
theorem unitRule_fire?_ne_none_iff {cs : List Char} :
    unitRule.fire? cs ≠ none ↔
      ∃ (l : Literal) (rest : List Char), l.Digital ∧ LetterApart rest ∧ cs = l.text ++ rest := by
  constructor
  · intro h
    obtain ⟨⟨out, rest⟩, hfire⟩ := Option.ne_none_iff_exists'.1 h
    obtain ⟨l, gap, name, hl, hgap, ⟨hne, hname⟩, rfl, -⟩ := unitRule_fire?_eq_some hfire
    obtain ⟨c, name, rfl⟩ := List.exists_cons_of_ne_nil hne
    exact ⟨l, _, hl, ⟨gap, c, name ++ rest, hgap, hname c List.mem_cons_self, rfl⟩, rfl⟩
  · rintro ⟨l, _, hl, ⟨gap, c, post, hgap, hc, rfl⟩, rfl⟩
    have hblank := isBlank_eq_false_of_isAlpha hc
    have hhead : ∀ d ∈ (c :: post).head?, isBlank d = false := by
      rintro d ⟨⟩
      exact hblank
    have hbounded : Bounded (gap ++ c :: post) :=
      (forall_head_gap_cons hgap.2 hblank post).2 (neither_of_isAlpha hc)
    have hslash : signedRun? '/' (gap ++ c :: post) = none := by
      obtain ⟨b, gap, rfl⟩ := List.exists_cons_of_ne_nil hgap.1
      refine signedRun?_eq_none fun d hd hd' => ?_
      have hb := hgap.2 b List.mem_cons_self
      rw [Option.some.inj hd, hd'] at hb
      exact absurd hb (by decide)
    have hletters : ¬ (gap = [] ∨ (c :: post).takeWhile Char.isAlpha = []) := by
      simp [hc, hgap.1]
    simp only [unitRule, joinedUnit?, Literal.scan?_text_append hl hbounded fun _ => hslash,
      trimStart_gap_cons hgap.2 hblank, takeWhile_append_of_head hgap.2 hhead, if_neg hletters]
    exact Option.some_ne_none _

theorem local_unitRule : unitRule.Local where
  stops := unitRule_stops
  skips := firesAtLiterals_unit.skips
  grows {cs k} h := by
    refine Classical.byContradiction fun hsome => ?_
    obtain ⟨l, rest, hl, hrest, rfl⟩ := unitRule_fire?_ne_none_iff.1 hsome
    exact unitRule_fire?_ne_none_iff.2
      ⟨l, rest ++ k, hl, hrest.append k, List.append_assoc _ _ _⟩ h

/-- A number ends in a digit. -/
theorem Literal.exists_concat {l : Literal} (hl : l.Digital) :
    ∃ pre d, l.text = pre ++ [d] ∧ isDigit d = true := by
  obtain ⟨c, cs, htext, -⟩ := l.head_text hl []
  rw [List.append_nil] at htext
  have hd := List.getLast?_eq_some_getLast (htext ▸ List.cons_ne_nil c cs)
  obtain ⟨pre, hpre⟩ := List.getLast?_eq_some_iff.1 hd
  exact ⟨pre, _, hpre, getLast?_text hl _ hd⟩

/-- The rule is idle if blanks and a letter come after no digit. -/
theorem idle_unitRule {cs : List Char}
    (h : ∀ d rest, d :: rest <:+ cs → isDigit d = true → ¬ LetterApart rest) :
    unitRule.Idle cs := by
  intro t ht
  refine Classical.byContradiction fun hsome => ?_
  obtain ⟨l, rest, hl, hrest, rfl⟩ := unitRule_fire?_ne_none_iff.1 hsome
  obtain ⟨pre, d, hpre, hd⟩ := Literal.exists_concat hl
  refine h d rest (List.IsSuffix.trans ⟨pre, ?_⟩ ht) hd hrest
  rw [hpre, List.append_assoc, List.singleton_append]

/-- A character after a gap is known from the text. -/
theorem gap_cons_inj {gap gap' k k' : List Char} {c c' : Char} (hg : ∀ c ∈ gap, isBlank c = true)
    (hg' : ∀ c ∈ gap', isBlank c = true) (hc : isBlank c = false) (hc' : isBlank c' = false)
    (h : gap ++ c :: k = gap' ++ c' :: k') : gap = gap' ∧ c = c' ∧ k = k' := by
  have htrim := congrArg trimStart h
  rw [trimStart_gap_cons hg hc, trimStart_gap_cons hg' hc'] at htrim
  rw [htrim] at h
  exact ⟨List.append_cancel_right h, List.cons.inj htrim⟩

/-- Joining units puts no blanks before a letter. -/
theorem LetterApart.of_joinUnits {cs : List Char} (h : LetterApart (joinUnits cs)) :
    LetterApart cs := by
  obtain ⟨gap, hg, hcs⟩ := exists_eq_gap_append cs
  obtain ⟨gap', c, post, hgap', hc, hpass⟩ := h
  have hletter := isBlank_eq_false_of_isAlpha hc
  have hgap : joinUnits cs = gap ++ unitRule.pass (trimStart cs) := by
    conv => lhs; rw [hcs]
    exact Rule.pass_blank firesAtLiterals_unit hg _
  rw [hgap] at hpass
  cases htrim : trimStart cs with
  | nil =>
    rw [htrim, Rule.pass_nil, List.append_nil] at hpass
    have hblank := hg c (by simp [hpass])
    rw [hletter] at hblank
    cases hblank
  | cons x k =>
    have hx : isBlank x = false := isBlank_head_trimStart cs x (by rw [htrim]; rfl)
    rw [htrim] at hpass hcs
    cases hfire : unitRule.fire? (x :: k) with
    | some found =>
      -- what is written begins with the first character of a number
      obtain ⟨l, gap'', name, hl, -, -, -, hout⟩ := unitRule_fire?_eq_some hfire
      obtain ⟨d, text, htext, hd⟩ := l.head_text hl (name ++ unitRule.pass found.2)
      have hwritten : unitRule.pass (x :: k) = d :: text := by
        rw [Rule.pass_of_fire hfire, hout, List.append_assoc, htext]
      have hdblank := l.isBlank_head_text hl (name ++ unitRule.pass found.2) d (by rw [htext]; rfl)
      rw [hwritten] at hpass
      obtain ⟨-, rfl, -⟩ := gap_cons_inj hg hgap'.2 hdblank hletter hpass
      obtain ⟨hdigit, hpoint⟩ := neither_of_isAlpha hc
      exact (hd.elim (Bool.eq_false_iff.1 hdigit) hpoint).elim
    | none =>
      rw [Rule.pass_of_not_fire hfire] at hpass
      obtain ⟨rfl, rfl, -⟩ := gap_cons_inj hg hgap'.2 hx hletter hpass
      exact ⟨gap, x, k, hgap', hc, hcs⟩

/-- Within a number no letter follows blanks, nor does one after it where no blank does. -/
theorem not_letterApart_of_suffix {l : Literal} (hl : l.Digital) {s k : List Char}
    (hs : s <:+ l.text) (hk : s = [] → ∀ c ∈ k.head?, isBlank c = false) :
    ¬ LetterApart (s ++ k) := by
  rintro ⟨gap, c, post, hgap, hc, heq⟩
  obtain ⟨pre, hpre⟩ := hs
  have hlast (hne : s ≠ []) (hblank : ∀ d ∈ s, isBlank d = true) : False := by
    have hdigit := Literal.getLast?_text hl (s.getLast hne) (by
      rw [← hpre, List.getLast?_append_of_ne_nil _ hne]
      exact List.getLast?_eq_some_getLast hne)
    have hb := hblank _ (List.getLast_mem hne)
    rw [isBlank_eq_false_of_isDigit hdigit] at hb
    cases hb
  rcases List.append_eq_append_iff.1 heq with ⟨gap', rfl, rfl⟩ | ⟨_ | ⟨d, s⟩, rfl, hpost⟩
  · by_cases hne : s = []
    · subst hne
      exact LetterApart.not_isBlank_head ⟨gap', c, post, hgap, hc, rfl⟩ (hk rfl)
    · exact hlast hne (List.forall_mem_append.1 hgap.2).1
  · rw [List.append_nil] at hlast
    exact hlast hgap.1 hgap.2
  · obtain rfl := (List.cons.inj hpost).1
    refine IsLetter.not_isNumeric (.inl hc) (hl.isNumeric c ?_)
    rw [← hpre]
    simp

/-- After joining units no letter follows a digit and blanks. -/
theorem not_letterApart_joinUnits (cs : List Char) :
    ∀ d rest, d :: rest <:+ joinUnits cs → isDigit d = true → ¬ LetterApart rest := by
  change ∀ d rest, d :: rest <:+ unitRule.pass cs → isDigit d = true → ¬ LetterApart rest
  fun_induction Rule.pass unitRule cs with
  | case1 =>
    intro d rest hsuffix
    cases List.suffix_nil.1 hsuffix
  | case2 c cs out rest hfire _ ih =>
    obtain ⟨l, gap, name, hl, -, ⟨hne, hname⟩, -, rfl⟩ := unitRule_fire?_eq_some hfire
    intro d k hsuffix hd
    have hnot : d ∉ name := fun hmem => by
      rw [isDigit_eq_false_of_isAlpha (hname d hmem)] at hd
      cases hd
    have hhead : ∀ c ∈ (name ++ unitRule.pass rest).head?, isBlank c = false := by
      obtain ⟨c, name, rfl⟩ := List.exists_cons_of_ne_nil hne
      rintro _ ⟨⟩
      exact isBlank_eq_false_of_isAlpha (hname c List.mem_cons_self)
    rw [List.append_assoc] at hsuffix
    rcases suffix_append_cases hsuffix with hsuffix | ⟨_ | ⟨e, s⟩, hs, heq⟩
    · rcases suffix_append_cases hsuffix with hsuffix | ⟨_ | ⟨e, s⟩, hs, heq⟩
      · exact ih d k hsuffix hd
      · exact ih d k ⟨[], heq⟩ hd
      · obtain rfl := (List.cons.inj heq).1
        exact (hnot (hs.mem List.mem_cons_self)).elim
    · obtain ⟨c, name, rfl⟩ := List.exists_cons_of_ne_nil hne
      obtain rfl := (List.cons.inj heq).1
      exact (hnot List.mem_cons_self).elim
    · obtain ⟨rfl, rfl⟩ := List.cons.inj heq
      exact not_letterApart_of_suffix hl ((List.suffix_cons d s).trans hs) fun _ => hhead
  | case3 c cs hfire ih =>
    intro d rest hsuffix hd hapart
    rcases List.suffix_cons_iff.1 hsuffix with heq | hsuffix
    · obtain ⟨rfl, rfl⟩ := List.cons.inj heq
      refine unitRule_fire?_ne_none_iff.2 ⟨.whole [d], cs, ?_, ?_, rfl⟩ hfire
      · exact ⟨List.cons_ne_nil d [], List.forall_mem_singleton.2 hd⟩
      · exact LetterApart.of_joinUnits hapart
    · exact ih d rest hsuffix hd hapart

theorem idle_joinUnits (cs : List Char) : unitRule.Idle (joinUnits cs) :=
  idle_unitRule (not_letterApart_joinUnits cs)

/-- **The last passes of the preparation, done a second time, change nothing.** -/
theorem finish_finish (mode : Mode) (cs : List Char) :
    finish mode (finish mode cs) = finish mode cs := by
  cases mode with
  | basic => exact (writesSums_mixedRule.idle_pass cs).pass
  | advanced =>
    have hunits : unitRule.Idle (sumFeetInches (joinUnits cs)) :=
      local_unitRule.idle_pass writesSums_feetInchesRule (idle_joinUnits cs)
    have hsums := writesSums_feetInchesRule.idle_pass (joinUnits cs)
    exact (congrArg sumFeetInches hunits.pass).trans hsums.pass

end Footrule
