import Footrule.Proofs.Preparation.Idle

/-!
# The gaps before units

A unit gap is a run of blanks directly between a digit and a letter (`UnitGap`). Joining units
leaves out of a text the characters that lie in one, and no others
(`joinUnits_eq_withoutUnitGaps`): where the rule fires, the only unit gap in what it uses is the one
before the letters, and where it does not fire at a digit, no unit gap begins after it.
-/

namespace Footrule

open Formula

/-! ## Unit gaps -/

/--
A gap directly between a digit and a letter, with the text before it and the text after it. Neither
of the two is blank, so that the gap is as long as possible.
-/
structure UnitGap (before gap after : List Char) : Prop where
  blank : BlankRun gap
  digit : ∃ d ∈ before.getLast?, isDigit d = true
  letter : ∃ c ∈ after.head?, c.isAlpha = true

/-- A place of a text lies in a unit gap. -/
def InUnitGap (cs : List Char) (i : Nat) : Prop :=
  ∃ before gap after, UnitGap before gap after ∧ cs = before ++ (gap ++ after) ∧
    before.length ≤ i ∧ i < before.length + gap.length

section UnitGap

variable {before gap after cs pre k run : List Char} {i : Nat}

namespace UnitGap

/-- A unit gap is as long as possible: no blank stands before it. -/
theorem isBlank_getLast (h : UnitGap before gap after) :
    ∀ c ∈ before.getLast?, isBlank c = false := by
  obtain ⟨d, hd, hdigit⟩ := h.digit
  intro c hc
  rw [← Option.some.inj (hd.symm.trans hc)]
  exact isBlank_eq_false_of_isDigit hdigit

/-- A unit gap is as long as possible: no blank stands after it. -/
theorem isBlank_head (h : UnitGap before gap after) : ∀ c ∈ after.head?, isBlank c = false := by
  obtain ⟨c, hc, hletter⟩ := h.letter
  intro d hd
  rw [← Option.some.inj (hc.symm.trans hd)]
  exact isBlank_eq_false_of_isAlpha hletter

theorem letterApart (h : UnitGap before gap after) (hrun : BlankRun run) :
    LetterApart (run ++ after) := by
  obtain ⟨c, hc, hletter⟩ := h.letter
  obtain ⟨post, rfl⟩ := List.head?_eq_some_iff.1 hc
  exact ⟨run, c, post, hrun, hletter, rfl⟩

theorem append_left (h : UnitGap before gap after) (pre : List Char) :
    UnitGap (pre ++ before) gap after := by
  obtain ⟨d, hd, hdigit⟩ := h.digit
  have hne : before ≠ [] := List.ne_nil_of_mem (List.mem_of_getLast? hd)
  exact ⟨h.blank, ⟨d, (List.getLast?_append_of_ne_nil _ hne).trans hd, hdigit⟩, h.letter⟩

theorem of_append_left (h : UnitGap (pre ++ before) gap after) (hne : before ≠ []) :
    UnitGap before gap after := by
  have hdigit := h.digit
  rw [List.getLast?_append_of_ne_nil _ hne] at hdigit
  exact ⟨h.blank, hdigit, h.letter⟩

end UnitGap

/-! ## The places in them -/

/-- At a place is a blank, and the nearest characters about it that are not blank are a digit before
it and a letter after it. -/
def isInUnitGap (cs : List Char) (i : Nat) : Bool :=
  cs[i]?.any isBlank && (dropTrailing isBlank (cs.take i)).getLast?.any isDigit &&
    (trimStart (cs.drop i)).head?.any Char.isAlpha

theorem isInUnitGap_eq_true_iff : isInUnitGap cs i = true ↔ (∃ b ∈ cs[i]?, isBlank b = true) ∧
    (∃ d ∈ (dropTrailing isBlank (cs.take i)).getLast?, isDigit d = true) ∧
      ∃ c ∈ (trimStart (cs.drop i)).head?, c.isAlpha = true := by
  simp only [isInUnitGap, Bool.and_eq_true, Option.any_eq_true, Option.mem_def, and_assoc]

theorem InUnitGap.isInUnitGap (h : InUnitGap cs i) : isInUnitGap cs i = true := by
  rw [isInUnitGap_eq_true_iff]
  obtain ⟨before, gap, after, h, rfl, hle, hlt⟩ := h
  obtain ⟨j, rfl⟩ := Nat.exists_eq_add_of_le hle
  have hj : j < gap.length := by omega
  have hplace : (before ++ (gap ++ after))[before.length + j]? = some gap[j] := by
    rw [List.getElem?_append_right hle, Nat.add_sub_cancel_left, List.getElem?_append_left hj,
      List.getElem?_eq_getElem hj]
  have htake : dropTrailing isBlank ((before ++ (gap ++ after)).take (before.length + j)) =
      before := by
    rw [List.take_length_add_append, List.take_append_of_le_length (Nat.le_of_lt hj),
      dropTrailing_append_of_forall fun c hc => h.blank.2 c (List.mem_of_mem_take hc),
      dropTrailing_eq_self h.isBlank_getLast]
  have hdrop : trimStart ((before ++ (gap ++ after)).drop (before.length + j)) = after := by
    rw [List.drop_length_add_append, List.drop_append_of_le_length (Nat.le_of_lt hj),
      trimStart_append_of_blank fun c hc => h.blank.2 c (List.mem_of_mem_drop hc),
      trimStart_eq_self h.isBlank_head]
  rw [hplace, htake, hdrop]
  exact ⟨⟨_, rfl, h.blank.2 _ (List.getElem_mem hj)⟩, h.digit, h.letter⟩

theorem inUnitGap_of_isInUnitGap (h : isInUnitGap cs i = true) : InUnitGap cs i := by
  obtain ⟨⟨b, hb, hblank⟩, hdigit, hletter⟩ := isInUnitGap_eq_true_iff.1 h
  obtain ⟨run, hrun, htake⟩ := exists_eq_append_gap (cs.take i)
  obtain ⟨run', hrun', hdrop⟩ := exists_eq_gap_append (cs.drop i)
  have hi : i < cs.length := (List.getElem?_eq_some_iff.1 hb).1
  have hlength : i = (dropTrailing isBlank (cs.take i)).length + run.length := by
    rw [← List.length_append, ← htake, List.length_take]
    omega
  have hne : run' ≠ [] := by
    rintro rfl
    have hhead := isBlank_head_trimStart (cs.drop i) b
    rw [List.nil_append] at hdrop
    rw [← hdrop, List.head?_drop] at hhead
    rw [hhead hb] at hblank
    cases hblank
  have hpos := List.length_pos_iff.2 hne
  refine ⟨_, run ++ run', _, ⟨⟨List.append_ne_nil_of_right_ne_nil run hne,
    List.forall_mem_append.2 ⟨hrun, hrun'⟩⟩, hdigit, hletter⟩, ?_, by omega, ?_⟩
  · rw [List.append_assoc, ← hdrop, ← List.append_assoc, ← htake, List.take_append_drop]
  · rw [List.length_append]
    omega

instance (cs : List Char) (i : Nat) : Decidable (InUnitGap cs i) :=
  decidable_of_iff _ ⟨inUnitGap_of_isInUnitGap, InUnitGap.isInUnitGap⟩

theorem not_inUnitGap_zero (cs : List Char) : ¬ InUnitGap cs 0 := by
  rintro ⟨before, gap, after, hgap, -, hle, -⟩
  obtain ⟨d, hd, -⟩ := hgap.digit
  rw [List.length_eq_zero_iff.1 (Nat.le_zero.1 hle)] at hd
  cases hd

theorem InUnitGap.append_left (h : InUnitGap k i) (pre : List Char) :
    InUnitGap (pre ++ k) (pre.length + i) := by
  obtain ⟨before, gap, after, hgap, rfl, hle, hlt⟩ := h
  refine ⟨pre ++ before, gap, after, hgap.append_left pre, (List.append_assoc _ _ _).symm, ?_, ?_⟩
  all_goals
    rw [List.length_append]
    omega

/-- No unit gap goes on from one text into the next. -/
def CutsNoUnitGap (pre k : List Char) : Prop :=
  ∀ before gap, pre = before ++ gap → (∀ c ∈ gap, isBlank c = true) →
    (∃ d ∈ before.getLast?, isDigit d = true) → ¬ LetterApart k

/-- What is cut off, but not within a unit gap, makes no difference for the places after it. -/
theorem CutsNoUnitGap.inUnitGap_iff (h : CutsNoUnitGap pre k) :
    InUnitGap (pre ++ k) (pre.length + i) ↔ InUnitGap k i := by
  refine ⟨?_, fun hin => hin.append_left pre⟩
  rintro ⟨before, gap, after, hgap, heq, hle, hlt⟩
  rcases List.append_eq_append_iff.1 heq with ⟨rest, rfl, rfl⟩ | ⟨begun, rfl, hrest⟩
  · by_cases hne : rest = []
    · rw [hne, List.append_nil] at hgap
      exact (h pre [] (List.append_nil pre).symm (List.forall_mem_nil _) hgap.digit
        (hne ▸ hgap.letterApart hgap.blank)).elim
    · rw [List.length_append] at hle hlt
      exact ⟨rest, gap, after, hgap.of_append_left hne, rfl, by omega, by omega⟩
  -- a gap that begins before the cut has to go on after it, to the place
  · rw [List.length_append] at hlt
    rcases List.append_eq_append_iff.1 hrest with ⟨more, rfl, -⟩ | ⟨more, rfl, rfl⟩
    · rw [List.length_append] at hlt
      omega
    · have hmore : more ≠ [] := by
        rintro rfl
        rw [List.append_nil] at hlt
        omega
      obtain ⟨hbegun, hblank⟩ := List.forall_mem_append.1 hgap.blank.2
      exact (h before begun rfl hbegun hgap.digit (hgap.letterApart ⟨hmore, hblank⟩)).elim

end UnitGap

/-! ## Texts without their unit gaps -/

/-- The characters of a text that lie in no unit gap. -/
def withoutUnitGaps (cs : List Char) : List Char :=
  (cs.zipIdx.filter fun place => ¬ InUnitGap cs place.2).map Prod.fst

section Without

variable {cs gap after pre k : List Char}

/-- After a character a unit gap, or nothing, is left out, and the text goes on after it. -/
theorem CutsNoUnitGap.withoutUnitGaps_cons {c : Char} (h : CutsNoUnitGap (c :: gap) k)
    (hgap : ∀ i, 1 ≤ i → i < 1 + gap.length → InUnitGap (c :: gap ++ k) i) :
    withoutUnitGaps (c :: gap ++ k) = c :: withoutUnitGaps k := by
  have hshift : k.zipIdx (0 + (c :: gap).length) =
      k.zipIdx.map fun place => (place.1, (c :: gap).length + place.2) := by
    rw [Nat.zero_add]
    exact List.zipIdx_eq_map_add
  have hfirst : ((c :: gap).zipIdx.filter fun place => ¬ InUnitGap (c :: gap ++ k) place.2) =
      [(c, 0)] := by
    rw [List.zipIdx_cons, List.filter_cons, if_pos (decide_eq_true (not_inUnitGap_zero _))]
    refine congrArg _ (List.filter_eq_nil_iff.2 fun place hplace => ?_)
    obtain ⟨hle, hlt, -⟩ := List.mem_zipIdx hplace
    rw [Nat.zero_add] at hle hlt
    rw [decide_eq_true_eq, Decidable.not_not]
    exact hgap place.2 hle hlt
  have hrest : (k.zipIdx.map fun place => (place.1, (c :: gap).length + place.2)).filter
      (fun place => ¬ InUnitGap (c :: gap ++ k) place.2) =
        (k.zipIdx.filter fun place => ¬ InUnitGap k place.2).map fun place =>
          (place.1, (c :: gap).length + place.2) := by
    rw [List.filter_map]
    refine congrArg _ (List.filter_congr fun place _ => ?_)
    simp only [Function.comp_apply, h.inUnitGap_iff]
  rw [withoutUnitGaps, List.zipIdx_append, List.filter_append, hshift, hfirst, hrest,
    List.map_append, List.map_map, withoutUnitGaps]
  rfl

/-- A character after which no unit gap begins is kept. -/
theorem withoutUnitGaps_cons {c : Char} (h : isDigit c = true → ¬ LetterApart cs) :
    withoutUnitGaps (c :: cs) = c :: withoutUnitGaps cs := by
  have hcut : CutsNoUnitGap [c] cs := by
    rintro before gap hpre - ⟨d, hd, hdigit⟩
    have hmem : d ∈ [c] := hpre ▸ List.mem_append_left gap (List.mem_of_getLast? hd)
    rw [List.mem_singleton.1 hmem] at hdigit
    exact h hdigit
  exact hcut.withoutUnitGaps_cons fun i hle hlt => absurd hlt (Nat.not_lt.2 hle)

/-- A unit gap after a digit is left out. -/
theorem UnitGap.withoutUnitGaps_eq {d : Char} (h : UnitGap [d] gap after) :
    withoutUnitGaps (d :: (gap ++ after)) = d :: withoutUnitGaps after := by
  have hcut : CutsNoUnitGap (d :: gap) after :=
    fun _ _ _ _ _ hapart => hapart.not_isBlank_head h.isBlank_head
  exact hcut.withoutUnitGaps_cons fun i hle hlt => ⟨[d], gap, after, h, rfl, hle, hlt⟩

/-- A stretch after no digit of which a unit gap begins is kept. -/
theorem withoutUnitGaps_kept
    (h : ∀ d t, d :: t <:+ pre → isDigit d = true → ¬ LetterApart (t ++ k)) :
    withoutUnitGaps (pre ++ k) = pre ++ withoutUnitGaps k := by
  induction pre with
  | nil => rfl
  | cons c pre ih =>
    have hrest := ih fun d t ht => h d t (ht.trans (List.suffix_cons c pre))
    rw [List.cons_append, withoutUnitGaps_cons (h c pre (List.suffix_refl _)), hrest,
      List.cons_append]

/-- After a number a unit gap is left out, and nothing before it. -/
theorem withoutUnitGaps_number {l : Literal} (hl : l.Digital) (hgap : BlankRun gap)
    (hletter : ∃ c ∈ after.head?, c.isAlpha = true) :
    withoutUnitGaps (l.text ++ (gap ++ after)) = l.text ++ withoutUnitGaps after := by
  obtain ⟨pre, d, htext, hd⟩ := Literal.exists_concat hl
  have hunit : UnitGap [d] gap after := ⟨hgap, ⟨d, rfl, hd⟩, hletter⟩
  have hkept : withoutUnitGaps (pre ++ d :: (gap ++ after)) =
      pre ++ withoutUnitGaps (d :: (gap ++ after)) := by
    refine withoutUnitGaps_kept fun e t ht _ => ?_
    have hsuffix : t ++ [d] <:+ l.text := by
      obtain ⟨s, rfl⟩ := (List.suffix_cons e t).trans ht
      exact ⟨s, by rw [htext, List.append_assoc]⟩
    rw [List.append_cons]
    exact not_letterApart_of_suffix hl hsuffix fun hnil => by simp at hnil
  rw [htext, ← List.append_cons, hkept, hunit.withoutUnitGaps_eq, List.append_cons]

theorem withoutUnitGaps_letters {name : List Char} (hname : ∀ c ∈ name, c.isAlpha = true) :
    withoutUnitGaps (name ++ k) = name ++ withoutUnitGaps k := by
  refine withoutUnitGaps_kept fun d t ht hd => ?_
  rw [isDigit_eq_false_of_isAlpha (hname d (ht.mem List.mem_cons_self))] at hd
  cases hd

end Without

/-- **Joining units leaves out exactly the characters in a gap between a digit and a letter.** -/
theorem joinUnits_eq_withoutUnitGaps (cs : List Char) : joinUnits cs = withoutUnitGaps cs := by
  change unitRule.pass cs = withoutUnitGaps cs
  fun_induction Rule.pass unitRule cs with
  | case1 => rfl
  | case2 c cs out rest hfire _ ih =>
    obtain ⟨l, gap, name, hl, hgap, ⟨hne, hname⟩, hcs, rfl⟩ := unitRule_fire?_eq_some hfire
    have hletter : ∃ a ∈ (name ++ rest).head?, a.isAlpha = true := by
      obtain ⟨a, name, rfl⟩ := List.exists_cons_of_ne_nil hne
      exact ⟨a, rfl, hname a List.mem_cons_self⟩
    rw [hcs, withoutUnitGaps_number hl hgap hletter, withoutUnitGaps_letters hname, ih,
      List.append_assoc]
  | case3 c cs hfire ih =>
    have hkept : isDigit c = true → ¬ LetterApart cs := fun hdigit hapart =>
      unitRule_fire?_ne_none_iff.2 ⟨.whole [c], cs,
        ⟨List.cons_ne_nil c [], List.forall_mem_singleton.2 hdigit⟩, hapart, rfl⟩ hfire
    rw [ih, withoutUnitGaps_cons hkept]

/-- Blanks between numbers stay, and so do those after a letter. -/
example : joinUnits "1 1/2  ft + 3 (cm)".toList = "1 1/2ft + 3 (cm)".toList := by
  decide +kernel

end Footrule
