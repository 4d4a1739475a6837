import Footrule.Proofs.Plain.Joining
import Footrule.Proofs.Written.Evaluation

/-!
# Blanks beside marks

A text is respaced when blanks are added or taken away directly before or after some of its marks
(`Respaced`). Texts that differ in this way only have the same evenly spaced form (`spaced`), with
one space on each side of every mark. A text that is evenly spaced has a division where the text
itself has one (`scan?_spaced_eq_none`, `NoDivision.spaced`).
-/

namespace Footrule

open Formula

/-- Blanks are added or taken away directly before or after marks. -/
inductive Respaced : List Char → List Char → Prop
  | before (pre : List Char) {gap : List Char} (m : Mark) (post : List Char) :
      (∀ c ∈ gap, isBlank c = true) →
      Respaced (pre ++ m.sign :: post) (pre ++ (gap ++ m.sign :: post))
  | after (pre : List Char) {gap : List Char} (m : Mark) (post : List Char) :
      (∀ c ∈ gap, isBlank c = true) →
      Respaced (pre ++ m.sign :: post) (pre ++ m.sign :: (gap ++ post))
  | refl (cs : List Char) : Respaced cs cs
  | symm {cs cs' : List Char} : Respaced cs cs' → Respaced cs' cs
  | trans {cs cs' cs'' : List Char} : Respaced cs cs' → Respaced cs' cs'' → Respaced cs cs''

/-! ## Respaced expressions -/

theorem trimStart_append_sign (pre : List Char) (m : Mark) (post : List Char) :
    trimStart (pre ++ m.sign :: post) = trimStart pre ++ m.sign :: post := by
  induction pre with
  | nil => exact trimStart_gap_cons blank_nil m.isBlank_sign post
  | cons c pre ih =>
    by_cases hc : isBlank c = true
    · simpa [trimStart, hc] using ih
    · simp [trimStart, hc]

theorem dropTrailing_append_sign (pre : List Char) (m : Mark) (post : List Char) :
    dropTrailing isBlank (pre ++ m.sign :: post) =
      pre ++ m.sign :: dropTrailing isBlank post := by
  have htrim := trimStart_append_sign post.reverse m pre.reverse
  have hrev : (pre ++ m.sign :: post).reverse = post.reverse ++ m.sign :: pre.reverse := by simp
  rw [dropTrailing, hrev, ← trimStart, htrim]
  simp [dropTrailing, trimStart]

theorem trim_append_sign (pre : List Char) (m : Mark) (post : List Char) :
    trim (pre ++ m.sign :: post) = trimStart pre ++ m.sign :: dropTrailing isBlank post := by
  rw [trim, trimStart_append_sign, dropTrailing_append_sign]

theorem dropTrailing_gap_append {gap : List Char} (hg : ∀ c ∈ gap, isBlank c = true)
    (cs : List Char) :
    dropTrailing isBlank (gap ++ cs) = gap ++ dropTrailing isBlank cs ∨
      dropTrailing isBlank (gap ++ cs) = [] ∧ dropTrailing isBlank cs = [] := by
  have hrev : ∀ c ∈ gap.reverse, isBlank c = true := fun c hc => hg c (List.mem_reverse.1 hc)
  rw [dropTrailing, dropTrailing, List.reverse_append]
  rcases trimStart_append_gap cs.reverse hrev with h | ⟨h, h'⟩
  · refine .inl ?_
    rw [← trimStart, h, ← trimStart]
    simp
  · exact .inr ⟨congrArg List.reverse h, congrArg List.reverse h'⟩

/-- The blanks at the ends of an expression do not count for how it is spaced. -/
theorem Respaced.trim {cs cs' : List Char} (h : Respaced cs cs') :
    Respaced (trim cs) (trim cs') := by
  induction h with
  | before pre m post hg =>
    rw [← List.append_assoc, trim_append_sign, trim_append_sign]
    rcases trimStart_append_gap pre hg with h | ⟨h, h'⟩
    · rw [h, List.append_assoc]
      exact .before _ m _ hg
    · rw [h, h']
      exact .refl _
  | after pre m post hg =>
    rw [trim_append_sign, trim_append_sign]
    rcases dropTrailing_gap_append hg post with h | ⟨h, h'⟩
    · rw [h]
      exact .after _ m _ hg
    · rw [h, h']
      exact .refl _
  | refl cs => exact .refl _
  | symm _ ih => exact ih.symm
  | trans _ _ ih ih' => exact ih.trans ih'

theorem plainSigns_append (cs k : List Char) :
    plainSigns (cs ++ k) = plainSigns cs ++ plainSigns k := List.map_append

theorem Mark.plainSign_sign (m : Mark) : plainSign m.sign = m.sign := by
  cases m with
  | operator o => cases o <;> decide
  | _ => decide

theorem plainSigns_sign (m : Mark) (k : List Char) :
    plainSigns (m.sign :: k) = m.sign :: plainSigns k := by
  rw [plainSigns, List.map_cons, m.plainSign_sign, plainSigns]

theorem plainSigns_gap {gap : List Char} (hg : ∀ c ∈ gap, isBlank c = true) :
    plainSigns gap = gap := plainSigns_of_forall (not_typographic_of_blank hg)

/-- Nor does it count for the spacing which sign is written for an operator. -/
theorem Respaced.plainSigns {cs cs' : List Char} (h : Respaced cs cs') :
    Respaced (plainSigns cs) (plainSigns cs') := by
  induction h with
  | before pre m post hg =>
    rw [plainSigns_append, plainSigns_append, plainSigns_append, plainSigns_sign, plainSigns_gap hg]
    exact .before _ m _ hg
  | after pre m post hg =>
    rw [plainSigns_append, plainSigns_append, plainSigns_sign, plainSigns_sign, plainSigns_append,
      plainSigns_gap hg]
    exact .after _ m _ hg
  | refl cs => exact .refl _
  | symm _ ih => exact ih.symm
  | trans _ _ ih ih' => exact ih.trans ih'

/-! ## Even spacing -/

/-- The character is the sign of a mark. -/
def isMark (c : Char) : Bool := (Mark.ofSign? c).isSome

/-- A mark comes next, after blanks at most. -/
def markNext (cs : List Char) : Bool := (trimStart cs).head?.any isMark

/--
A text with one space on each side of every mark, and no other blanks beside it. The flag says
whether a mark stands before the text.
-/
def spaced : Bool → List Char → List Char
  | _, [] => []
  | afterMark, c :: cs =>
    if isBlank c then
      if afterMark || markNext cs then spaced afterMark cs else c :: spaced false cs
    else if isMark c then ' ' :: c :: ' ' :: spaced true cs
    else c :: spaced false cs

section Spaced

variable {afterMark : Bool} {cs k : List Char}

theorem spaced_sign (m : Mark) (k : List Char) :
    spaced afterMark (m.sign :: k) = ' ' :: m.sign :: ' ' :: spaced true k := by
  simp [spaced, m.isBlank_sign, isMark]

theorem spaced_cons {c : Char} (hb : isBlank c = false) (hm : isMark c = false) (k : List Char) :
    spaced afterMark (c :: k) = c :: spaced false k := by
  simp [spaced, hb, hm]

theorem spaced_append (h : ∀ c ∈ cs, isBlank c = false ∧ isMark c = false) (k : List Char) :
    spaced false (cs ++ k) = cs ++ spaced false k := by
  induction cs with
  | nil => rfl
  | cons c cs ih =>
    obtain ⟨⟨hb, hm⟩, h⟩ := List.forall_mem_cons.1 h
    rw [List.cons_append, spaced_cons hb hm, ih h, List.cons_append]

theorem isMark_eq_false_of_isDigit {c : Char} (hc : isDigit c = true) : isMark c = false := by
  cases h : Mark.ofSign? c with
  | none => simp [isMark, h]
  | some m =>
    rw [← Mark.sign_of_ofSign? h, m.sign_neither.1] at hc
    cases hc

theorem isMark_eq_false_of_isBlank {c : Char} (hc : isBlank c = true) : isMark c = false := by
  simp [isMark, Mark.ofSign?_of_isBlank hc]

theorem neither_of_digits {run : List Char} (hr : ∀ c ∈ run, isDigit c = true) :
    ∀ c ∈ run, isBlank c = false ∧ isMark c = false := fun c hc =>
  ⟨isBlank_eq_false_of_isDigit (hr c hc), isMark_eq_false_of_isDigit (hr c hc)⟩

theorem spaced_run {run : List Char} (hr : DigitRun run) (k : List Char) :
    spaced afterMark (run ++ k) = run ++ spaced false k := by
  obtain ⟨c, run, rfl⟩ := List.exists_cons_of_ne_nil hr.1
  obtain ⟨⟨hb, hm⟩, h⟩ := List.forall_mem_cons.1 (neither_of_digits hr.2)
  rw [List.cons_append, spaced_cons hb hm, spaced_append h, List.cons_append]

theorem spaced_point (k : List Char) : spaced afterMark ('.' :: k) = '.' :: spaced false k :=
  spaced_cons (by decide) (by decide) k

theorem spaced_true_gap (hg : ∀ c ∈ cs, isBlank c = true) (k : List Char) :
    spaced true (cs ++ k) = spaced true k := by
  induction cs with
  | nil => rfl
  | cons c cs ih =>
    obtain ⟨hc, hg⟩ := List.forall_mem_cons.1 hg
    simp [spaced, hc, ih hg]

theorem markNext_gap_sign (hg : ∀ c ∈ cs, isBlank c = true) (m : Mark) (k : List Char) :
    markNext (cs ++ m.sign :: k) = true := by
  rw [markNext, trimStart_gap_cons hg m.isBlank_sign]
  simp [isMark]

theorem spaced_gap_sign (hg : ∀ c ∈ cs, isBlank c = true) (m : Mark) (k : List Char) :
    spaced afterMark (cs ++ m.sign :: k) = spaced afterMark (m.sign :: k) := by
  induction cs with
  | nil => rfl
  | cons c cs ih =>
    obtain ⟨hc, hg⟩ := List.forall_mem_cons.1 hg
    rw [List.cons_append, spaced, if_pos hc, markNext_gap_sign hg, Bool.or_true, if_pos rfl, ih hg]

theorem spaced_gap_slash (hg : ∀ c ∈ cs, isBlank c = true) (k : List Char) :
    spaced afterMark (cs ++ '/' :: k) = ' ' :: '/' :: ' ' :: spaced true k :=
  (spaced_gap_sign hg (.operator .div) k).trans (spaced_sign (.operator .div) k)

/-- Blanks that stand beside no mark are kept. -/
theorem spaced_gap (hg : ∀ c ∈ cs, isBlank c = true)
    (hk : ∀ c ∈ k.head?, isBlank c = false ∧ isMark c = false) :
    spaced false (cs ++ k) = cs ++ spaced false k := by
  induction cs with
  | nil => rfl
  | cons c cs ih =>
    obtain ⟨hc, hg⟩ := List.forall_mem_cons.1 hg
    have hnext : markNext (cs ++ k) = false := by
      rw [markNext, trimStart_append_of_blank hg, trimStart_eq_self fun c hc => (hk c hc).1]
      cases k with
      | nil => rfl
      | cons d k => exact (hk d rfl).2
    rw [List.cons_append, spaced, if_pos hc, hnext, Bool.or_false, if_neg (by decide), ih hg]
    rfl

theorem markNext_append_congr {k k' : List Char} (h : markNext k = markNext k') (pre : List Char) :
    markNext (pre ++ k) = markNext (pre ++ k') := by
  induction pre with
  | nil => exact h
  | cons c pre ih =>
    by_cases hc : isBlank c = true
    · simpa [markNext, trimStart, hc] using ih
    · simp [markNext, trimStart, hc]

theorem spaced_append_congr {k k' : List Char}
    (h : ∀ afterMark, spaced afterMark k = spaced afterMark k')
    (hnext : markNext k = markNext k') (pre : List Char) :
    spaced afterMark (pre ++ k) = spaced afterMark (pre ++ k') := by
  induction pre generalizing afterMark with
  | nil => exact h afterMark
  | cons c pre ih =>
    rw [List.cons_append, List.cons_append, spaced, spaced, markNext_append_congr hnext pre, ih, ih,
      ih]

/-- **Texts that differ only in the blanks beside their marks are evenly spaced alike.** -/
theorem Respaced.spaced_eq (h : Respaced cs k) (afterMark : Bool) :
    spaced afterMark cs = spaced afterMark k := by
  induction h with
  | before pre m post hg =>
    refine spaced_append_congr (fun _ => (spaced_gap_sign hg m post).symm) ?_ pre
    exact (markNext_gap_sign (blank_nil) m post).trans
      (markNext_gap_sign hg m post).symm
  | after pre m post hg =>
    refine spaced_append_congr (fun _ => ?_) ?_ pre
    · rw [spaced_sign, spaced_sign, spaced_true_gap hg]
    · exact (markNext_gap_sign (blank_nil) m post).trans
        (markNext_gap_sign (blank_nil) m _).symm
  | refl cs => rfl
  | symm _ ih => exact ih.symm
  | trans _ _ ih ih' => exact ih.trans ih'

/-! ### What is found in an evenly spaced text -/

theorem spaced_of_nonblank {c : Char} (hb : isBlank c = false) (k : List Char) :
    spaced afterMark (c :: k) = spaced false (c :: k) := by
  simp [spaced, hb]

/-- After some blanks, an evenly spaced text goes on as the text does. -/
theorem exists_spaced_eq (afterMark : Bool) (k : List Char) :
    ∃ gap, (∀ c ∈ gap, isBlank c = true) ∧
      spaced afterMark k = gap ++ spaced false (trimStart k) := by
  induction k generalizing afterMark with
  | nil => exact ⟨[], blank_nil, rfl⟩
  | cons c k ih =>
    by_cases hc : isBlank c = true
    · have htrim : trimStart (c :: k) = trimStart k := by simp [trimStart, hc]
      rw [htrim, spaced, if_pos hc]
      split
      · exact ih afterMark
      · obtain ⟨gap, hg, h⟩ := ih false
        exact ⟨c :: gap, List.forall_mem_cons.2 ⟨hc, hg⟩, by rw [h]; rfl⟩
    · have hb : isBlank c = false := Bool.eq_false_iff.2 hc
      have htrim : trimStart (c :: k) = c :: k := trimStart_gap_cons blank_nil hb k
      exact ⟨[], blank_nil, by rw [htrim, spaced_of_nonblank hb]; rfl⟩

theorem trimStart_spaced (afterMark : Bool) (k : List Char) :
    trimStart (spaced afterMark k) = trimStart (spaced false (trimStart k)) := by
  obtain ⟨gap, hg, h⟩ := exists_spaced_eq afterMark k
  rw [h, trimStart_append_of_blank hg]

theorem head?_trimStart_spaced (afterMark : Bool) (k : List Char) :
    (trimStart (spaced afterMark k)).head? = (trimStart k).head? := by
  rw [trimStart_spaced]
  cases hk : trimStart k with
  | nil => rfl
  | cons c k' =>
    have hb : isBlank c = false := isBlank_head_trimStart k c (by rw [hk]; rfl)
    cases hm : isMark c with
    | true => simp [spaced, hb, hm, trimStart]
    | false => simp [spaced, hb, hm, trimStart]

theorem noDivision_of_scan? {run : List Char} (hr : DigitRun run) (hk : NoDigitFirst k)
    (h : Division.scan? (run ++ k) = none) : NoDivision k := by
  cases divided k with
  | no h => exact h
  | divisor hg hg' hd =>
    rw [hd.scan? hg hg' hr] at h
    cases h

/-- Where no divisor follows a number, none does in the evenly spaced text. -/
theorem NoDivision.spaced (h : NoDivision k) : NoDivision (spaced false k) := by
  by_cases hs : ∀ c ∈ (trimStart k).head?, c ≠ '/'
  · exact noDivision_of_head fun c hc => hs c (by rwa [← head?_trimStart_spaced])
  · obtain ⟨gap, hg, hk⟩ := exists_eq_gap_append k
    have hslash : ∃ cs, trimStart k = '/' :: cs := by
      cases ht : trimStart k with
      | nil => simp [ht] at hs
      | cons c cs =>
        rw [ht] at hs
        have hc : c = '/' := by simpa using hs
        exact ⟨cs, by rw [hc]⟩
    obtain ⟨cs, hcs⟩ := hslash
    have hno : NoDigitFirst (trimStart cs) := by
      refine noDigitFirst_of_digitRun? ?_
      simpa [hcs, Division.continueWith?] using h [] []
    rw [hcs] at hk
    rw [hk, spaced_gap_slash hg]
    refine noDivision_gap blank_space (noDivision_slash ?_)
    have htrim : trimStart (' ' :: Footrule.spaced true cs) = trimStart (Footrule.spaced true cs) :=
      trimStart_append_of_blank blank_space
    rwa [htrim, NoDigitFirst, head?_trimStart_spaced]

/-- The first character of an evenly spaced text is a space, or a character that is no mark. -/
theorem head_spaced (k : List Char) :
    ∀ c ∈ (spaced false k).head?, c = ' ' ∨ (c ∈ k.head? ∧ isMark c = false) := by
  intro c hc
  cases k with
  | nil => cases hc
  | cons d k =>
    by_cases hb : isBlank d = true
    · by_cases hn : markNext k = true
      · obtain ⟨gap, hg, hk⟩ := exists_eq_gap_append k
        obtain ⟨m, k', hm⟩ : ∃ (m : Mark) (k' : List Char), trimStart k = m.sign :: k' := by
          cases ht : trimStart k with
          | nil => simp [markNext, ht] at hn
          | cons e k' =>
            obtain ⟨m, he⟩ := Option.isSome_iff_exists.1 (show isMark e = true by
              simpa [markNext, ht] using hn)
            exact ⟨m, k', by rw [Mark.sign_of_ofSign? he]⟩
        rw [spaced, if_pos hb, hn, Bool.or_true, if_pos rfl, hk, hm, spaced_gap_sign hg,
          spaced_sign] at hc
        exact .inl (Option.some.inj hc).symm
      · rw [spaced, if_pos hb, Bool.false_or, if_neg hn] at hc
        obtain rfl := Option.some.inj hc
        exact .inr ⟨rfl, isMark_eq_false_of_isBlank hb⟩
    · by_cases hm : isMark d = true
      · rw [spaced, if_neg hb, if_pos hm] at hc
        exact .inl (Option.some.inj hc).symm
      · rw [spaced, if_neg hb, if_neg hm] at hc
        obtain rfl := Option.some.inj hc
        exact .inr ⟨rfl, Bool.eq_false_iff.2 hm⟩

theorem NoDigitFirst.spaced (hk : NoDigitFirst k) : NoDigitFirst (spaced false k) := by
  intro c hc
  rcases head_spaced k c hc with rfl | ⟨h, -⟩
  · decide
  · exact hk c h

theorem scan?_spaced_eq_none (h : Division.scan? (trimStart k) = none) (afterMark : Bool) :
    Division.scan? (trimStart (spaced afterMark k)) = none := by
  cases hd : digitRun? (trimStart k) with
  | none =>
    refine Division.scan?_eq_none ?_
    rw [NoDigitFirst, head?_trimStart_spaced]
    exact noDigitFirst_of_digitRun? hd
  | some found =>
    obtain ⟨run, k'⟩ := found
    obtain ⟨hk, hr, hk'⟩ := digitRun?_eq_some_iff_append.1 hd
    rw [hk] at h
    rw [trimStart_spaced, hk, spaced_run hr, trimStart_eq_self (Literal.isBlank_head_run hr _),
      Division.scan?_run hr hk'.spaced]
    exact (noDivision_of_scan? hr hk' h).spaced _ _

/-- An evenly spaced text begins with no division sign. -/
theorem slash_spaced (k : List Char) : signedRun? '/' (joinFractions (spaced false k)) = none := by
  refine signedRun?_eq_none fun c hc => ?_
  rw [head?_joinFractions] at hc
  rcases head_spaced k c hc with rfl | ⟨-, hm⟩
  · decide
  · rintro rfl
    exact absurd hm (by decide)

theorem point_spaced (h : signedRun? '.' k = none) : signedRun? '.' (spaced false k) = none := by
  cases k with
  | nil => rfl
  | cons c k =>
    by_cases hc : c = '.'
    · subst hc
      rw [signedRun?, if_pos rfl] at h
      rw [spaced_point, signedRun?, if_pos rfl,
        digitRun?_eq_none (noDigitFirst_of_digitRun? h).spaced]
    · refine signedRun?_eq_none fun d hd => ?_
      rcases head_spaced _ d hd with rfl | ⟨h, -⟩
      · decide
      · rwa [← Option.some.inj h]

theorem Divisor.spaced {run decimals : List Char} (h : Divisor run decimals k) :
    Divisor run decimals (spaced false k) := by
  cases h with
  | whole hr hk hp => exact .whole hr hk.spaced (point_spaced hp)
  | decimal hr hd hk => exact .decimal hr hd hk.spaced

end Spaced

end Footrule
