import Footrule.Proofs.Written

/-!
# Finding written literals

A literal that is followed by what starts no number (`Bounded`) is found whole, with what follows it
as the rest (`Literal.scan?_text_append`), except that a whole number goes on as a fraction when a
slash and digits follow. Nothing is found where a text begins with neither a digit nor a point.
-/

namespace Footrule

/-! ## Characters -/

/-- The ASCII letters, by code point. -/
def letterRanges : List CharRange := [⟨0x41, 0x5A⟩, ⟨0x61, 0x7A⟩]

theorem inRanges_of_isAlpha {c : Char} (h : c.isAlpha = true) : inRanges letterRanges c = true := by
  refine List.any_eq_true.2 ?_
  rcases Bool.or_eq_true_iff.1 h with h | h
  · exact ⟨⟨0x41, 0x5A⟩, by decide, CharRange.contains_iff.2 (of_decide_eq_true h)⟩
  · obtain ⟨hfirst, hlast⟩ := Bool.and_eq_true_iff.1 h
    exact ⟨⟨0x61, 0x7A⟩, by decide,
      CharRange.contains_iff.2 ⟨of_decide_eq_true hfirst, of_decide_eq_true hlast⟩⟩

theorem isDigit_eq_false_of_isAlpha {c : Char} (h : c.isAlpha = true) : isDigit c = false :=
  not_inRanges_of_disjoint (by decide) (inRanges_of_isAlpha h)

theorem isBlank_eq_false_of_isAlpha {c : Char} (h : c.isAlpha = true) : isBlank c = false :=
  not_inRanges_of_disjoint (by decide) (inRanges_of_isAlpha h)

/-- A letter neither begins a number nor goes on with one. -/
theorem neither_of_isAlpha {c : Char} (h : c.isAlpha = true) : isDigit c = false ∧ c ≠ '.' := by
  refine ⟨isDigit_eq_false_of_isAlpha h, ?_⟩
  rintro rfl
  exact absurd h (by decide)

theorem isDigit_eq_false_of_isBlank {c : Char} (h : isBlank c = true) : isDigit c = false :=
  Bool.eq_false_iff.2 fun hd => by simp [isBlank_eq_false_of_isDigit hd] at h

/-! ## Runs -/

section Runs

variable {p : Char → Bool} {cs k : List Char}

theorem takeWhile_eq_nil_of_head (hk : ∀ c ∈ k.head?, p c = false) : k.takeWhile p = [] := by
  cases k with
  | nil => rfl
  | cons c k =>
    have hc := hk c rfl
    simp [hc]

theorem dropWhile_eq_self_of_head (hk : ∀ c ∈ k.head?, p c = false) : k.dropWhile p = k := by
  cases k with
  | nil => rfl
  | cons c k =>
    have hc := hk c rfl
    simp [hc]

/-- A run of characters of a kind ends where another kind begins. -/
theorem head_dropWhile (p : Char → Bool) (cs : List Char) :
    ∀ c ∈ (cs.dropWhile p).head?, p c = false := by
  intro c hc
  have h := List.head?_dropWhile_not p cs
  rwa [Option.mem_def.1 hc] at h

/-- A run of characters of a kind ends before the first of another kind. -/
theorem takeWhile_append_of_head (hcs : ∀ c ∈ cs, p c = true) (hk : ∀ c ∈ k.head?, p c = false) :
    (cs ++ k).takeWhile p = cs := by
  rw [List.takeWhile_append_of_pos hcs, takeWhile_eq_nil_of_head hk, List.append_nil]

theorem dropWhile_append_of_head (hcs : ∀ c ∈ cs, p c = true) (hk : ∀ c ∈ k.head?, p c = false) :
    (cs ++ k).dropWhile p = k := by
  rw [List.dropWhile_append_of_pos hcs, dropWhile_eq_self_of_head hk]

end Runs

/-- No digit comes first. -/
def NoDigitFirst (k : List Char) : Prop := ∀ c ∈ k.head?, isDigit c = false

/-- A run of digits of any decimal system. -/
def DigitRun (cs : List Char) : Prop := cs ≠ [] ∧ ∀ c ∈ cs, isDigit c = true

theorem PlainRun.isDigit {run : List Char} (h : PlainRun run) : ∀ c ∈ run, isDigit c = true :=
  fun c hc => isDigit_of_ascii (h.2 c hc)

theorem PlainRun.digits {run : List Char} (h : PlainRun run) : DigitRun run := ⟨h.1, h.isDigit⟩

theorem digitRun?_append {run k : List Char} (hr : DigitRun run) (hk : NoDigitFirst k) :
    digitRun? (run ++ k) = some (run, k) :=
  digitRun?_eq_some_iff.2
    ⟨hr.1, (takeWhile_append_of_head hr.2 hk).symm, (dropWhile_append_of_head hr.2 hk).symm⟩

theorem digitRun?_eq_none {k : List Char} (hk : NoDigitFirst k) : digitRun? k = none := by
  rw [digitRun?, takeWhile_eq_nil_of_head hk]

theorem signedRun?_append {sign : Char} {run k : List Char} (hr : DigitRun run)
    (hk : NoDigitFirst k) : signedRun? sign (sign :: (run ++ k)) = some (run, k) := by
  rw [signedRun?, if_pos rfl, digitRun?_append hr hk]

theorem signedRun?_eq_none {sign : Char} {k : List Char} (hk : ∀ c ∈ k.head?, c ≠ sign) :
    signedRun? sign k = none := by
  cases k with
  | nil => rfl
  | cons c k => exact if_neg (hk c rfl)

/-- A run is found exactly where one stands that no digit follows. -/
theorem digitRun?_eq_some_iff_append {cs run k : List Char} :
    digitRun? cs = some (run, k) ↔ cs = run ++ k ∧ DigitRun run ∧ NoDigitFirst k := by
  refine ⟨fun h => ?_, ?_⟩
  · obtain ⟨hne, rfl, rfl⟩ := digitRun?_eq_some_iff.1 h
    exact ⟨append_of_digitRun? h, ⟨hne, List.all_eq_true.1 List.all_takeWhile⟩, head_dropWhile _ _⟩
  · rintro ⟨rfl, hr, hk⟩
    exact digitRun?_append hr hk

theorem signedRun?_eq_some_iff {sign : Char} {cs run k : List Char} :
    signedRun? sign cs = some (run, k) ↔
      cs = sign :: (run ++ k) ∧ DigitRun run ∧ NoDigitFirst k := by
  refine ⟨fun h => ?_, ?_⟩
  · cases cs with
    | nil => cases h
    | cons c cs =>
      simp only [signedRun?, Option.ite_none_right_eq_some] at h
      obtain ⟨rfl, h⟩ := h
      obtain ⟨rfl, hr, hk⟩ := digitRun?_eq_some_iff_append.1 h
      exact ⟨rfl, hr, hk⟩
  · rintro ⟨rfl, hr, hk⟩
    exact signedRun?_append hr hk

/-! ## What follows a number -/

/-- What is left after the blanks starts no number. -/
def Bounded (k : List Char) : Prop := ∀ c ∈ (trimStart k).head?, isDigit c = false ∧ c ≠ '.'

theorem blank_nil : ∀ c ∈ ([] : List Char), isBlank c = true := List.forall_mem_nil _

theorem blank_space : ∀ c ∈ [' '], isBlank c = true := by simp

theorem trimStart_append_of_blank {gap k : List Char} (h : ∀ c ∈ gap, isBlank c = true) :
    trimStart (gap ++ k) = trimStart k :=
  List.dropWhile_append_of_pos h

theorem trimStart_eq_self {k : List Char} (h : ∀ c ∈ k.head?, isBlank c = false) :
    trimStart k = k :=
  dropWhile_eq_self_of_head h

theorem isBlank_head_trimStart (cs : List Char) :
    ∀ c ∈ (trimStart cs).head?, isBlank c = false := head_dropWhile isBlank cs

/-- A text is its first blanks and the rest. -/
theorem exists_eq_gap_append (cs : List Char) :
    ∃ gap, (∀ c ∈ gap, isBlank c = true) ∧ cs = gap ++ trimStart cs :=
  ⟨cs.takeWhile isBlank, List.all_eq_true.1 List.all_takeWhile,
    List.takeWhile_append_dropWhile.symm⟩

/-- The first character is a blank or the first one after the blanks. -/
theorem head_of_trimStart {p : Char → Prop} {k : List Char}
    (h : ∀ c ∈ (trimStart k).head?, p c) : ∀ c ∈ k.head?, isBlank c = true ∨ p c := by
  intro c hc
  cases hb : isBlank c with
  | true => exact .inl rfl
  | false =>
    refine .inr (h c ?_)
    rwa [trimStart_eq_self]
    intro c' hc'
    rwa [Option.mem_unique hc' hc]

section Gap

variable {gap : List Char} {c : Char}

theorem trimStart_gap_cons (hg : ∀ d ∈ gap, isBlank d = true) (hc : isBlank c = false)
    (k : List Char) : trimStart (gap ++ c :: k) = c :: k := by
  rw [trimStart_append_of_blank hg, trimStart, List.dropWhile_cons_of_neg (by simp [hc])]

/-- What holds of the first character after the blanks. -/
theorem forall_head_gap_cons {p : Char → Prop} (hg : ∀ d ∈ gap, isBlank d = true)
    (hc : isBlank c = false) (k : List Char) :
    (∀ d ∈ (trimStart (gap ++ c :: k)).head?, p d) ↔ p c := by
  simp [trimStart_gap_cons hg hc k]

/-- A text is blank, or its blanks are followed by a character of which is known what it is. -/
theorem blank_or_gap_cons {p : Char → Prop} {k : List Char}
    (h : ∀ c ∈ (trimStart k).head?, p c) : (∀ c ∈ k, isBlank c = true) ∨
      ∃ gap c post, (∀ d ∈ gap, isBlank d = true) ∧ p c ∧ k = gap ++ c :: post := by
  obtain ⟨gap, hg, hk⟩ := exists_eq_gap_append k
  cases hrest : trimStart k with
  | nil =>
    rw [hrest, List.append_nil] at hk
    exact .inl (hk ▸ hg)
  | cons c post => exact .inr ⟨gap, c, post, hg, h c (by rw [hrest]; rfl), hrest ▸ hk⟩

end Gap

namespace Bounded

variable {k : List Char}

theorem nil : Bounded [] := fun c hc => (Option.not_mem_none c hc).elim

/-- The first character itself is no digit and no point, blank or not. -/
theorem head (hk : Bounded k) : ∀ c ∈ k.head?, isDigit c = false ∧ c ≠ '.' := by
  intro c hc
  rcases head_of_trimStart hk c hc with hb | h
  · refine ⟨isDigit_eq_false_of_isBlank hb, ?_⟩
    rintro rfl
    exact absurd hb (by decide)
  · exact h

theorem noDigitFirst (hk : Bounded k) : NoDigitFirst k := fun c hc => (hk.head c hc).1

theorem signedRun?_point (hk : Bounded k) : signedRun? '.' k = none :=
  signedRun?_eq_none fun c hc => (hk.head c hc).2

theorem spacedFraction? (hk : Bounded k) : spacedFraction? k = none := by
  have hd : fractionRun? (k.dropWhile isBlank) = none := by
    have hrun : digitRun? (k.dropWhile isBlank) = none := digitRun?_eq_none fun c hc => (hk c hc).1
    rw [fractionRun?, hrun]
    rfl
  unfold Footrule.spacedFraction?
  rw [hd]
  split <;> rfl

/-- Letters carry no number on. -/
theorem letters (hk : Bounded k) {name : List Char} (h : ∀ c ∈ name, c.isAlpha = true) :
    Bounded (name ++ k) := by
  cases name with
  | nil => exact hk
  | cons c name =>
    have hc := h c List.mem_cons_self
    exact (forall_head_gap_cons blank_nil (isBlank_eq_false_of_isAlpha hc) _).2
      (neither_of_isAlpha hc)

end Bounded

/-! ## Literals -/

namespace Literal

/-- The literal is written in digits of any decimal system. -/
def Digital : Literal → Prop
  | whole run => DigitRun run
  | decimal run decimals => (∀ c ∈ run, isDigit c = true) ∧ DigitRun decimals
  | fraction num den => DigitRun num ∧ DigitRun den
  | mixed run gap num den => DigitRun run ∧ BlankRun gap ∧ DigitRun num ∧ DigitRun den

theorem Plain.digital {l : Literal} (hl : l.Plain) : l.Digital := by
  cases l with
  | whole run => exact PlainRun.digits hl
  | decimal run decimals => exact ⟨fun c hc => isDigit_of_ascii (hl.1 c hc), hl.2.digits⟩
  | fraction num den => exact ⟨hl.1.digits, hl.2.digits⟩
  | mixed run gap num den => exact ⟨hl.1.digits, hl.2.1, hl.2.2.1.digits, hl.2.2.2.digits⟩

/-- The characters of numbers: digits, blanks, the point and the slash. -/
def IsNumeric (c : Char) : Prop := isDigit c = true ∨ isBlank c = true ∨ c = '.' ∨ c = '/'

instance (c : Char) : Decidable (IsNumeric c) := inferInstanceAs (Decidable (_ ∨ _))

/-- A literal has no other characters. -/
theorem Digital.isNumeric {l : Literal} (hl : l.Digital) : ∀ c ∈ l.text, IsNumeric c := by
  have hrun {run : List Char} (hr : ∀ c ∈ run, isDigit c = true) : ∀ c ∈ run, IsNumeric c :=
    fun c hc => .inl (hr c hc)
  have hpoint : IsNumeric '.' := .inr (.inr (.inl rfl))
  have hslash : IsNumeric '/' := .inr (.inr (.inr rfl))
  have hfraction {num den : List Char} (hn : DigitRun num) (hd : DigitRun den) :
      ∀ c ∈ num ++ '/' :: den, IsNumeric c :=
    List.forall_mem_append.2 ⟨hrun hn.2, List.forall_mem_cons.2 ⟨hslash, hrun hd.2⟩⟩
  cases l with
  | whole run => exact hrun hl.2
  | decimal run decimals =>
    exact List.forall_mem_append.2 ⟨hrun hl.1, List.forall_mem_cons.2 ⟨hpoint, hrun hl.2.2⟩⟩
  | fraction num den => exact hfraction hl.1 hl.2
  | mixed run gap num den =>
    obtain ⟨hr, hg, hn, hd⟩ := hl
    have htext : (mixed run gap num den).text = run ++ (gap ++ (num ++ '/' :: den)) := by
      simp [text]
    rw [htext]
    exact List.forall_mem_append.2 ⟨hrun hr.2, List.forall_mem_append.2
      ⟨fun c hc => .inr (.inl (hg.2 c hc)), hfraction hn hd⟩⟩

theorem decimal_text_append (run decimals k : List Char) :
    (decimal run decimals).text ++ k = run ++ '.' :: (decimals ++ k) := by
  simp [text]

theorem fraction_text_append (num den k : List Char) :
    (fraction num den).text ++ k = num ++ '/' :: (den ++ k) := by
  simp [text]

theorem mixed_text_append (run gap num den k : List Char) :
    (mixed run gap num den).text ++ k = run ++ (gap ++ (num ++ '/' :: (den ++ k))) := by
  simp [text]

theorem scan?_eq_none {k : List Char} (hk : ∀ c ∈ k.head?, isDigit c = false ∧ c ≠ '.') :
    scan? k = none := by
  rw [scan?, digitRun?_eq_none fun c hc => (hk c hc).1,
    signedRun?_eq_none fun c hc => (hk c hc).2]
  rfl

theorem scan?_append {run k : List Char} (hr : DigitRun run) (hk : NoDigitFirst k) :
    scan? (run ++ k) = some (continueRun run k) := by
  rw [scan?, digitRun?_append hr hk]

theorem noDigitFirst_cons {c : Char} {k : List Char} (hc : isDigit c = false) :
    NoDigitFirst (c :: k) := by
  intro c' hc'
  rwa [← Option.some.inj hc']

theorem noDigitFirst_slash (k : List Char) : NoDigitFirst ('/' :: k) :=
  noDigitFirst_cons (by decide)

theorem noDigitFirst_point (k : List Char) : NoDigitFirst ('.' :: k) :=
  noDigitFirst_cons (by decide)

theorem noDigitFirst_gap {gap k : List Char} (hg : BlankRun gap) : NoDigitFirst (gap ++ k) := by
  obtain ⟨c, gap, rfl⟩ := List.exists_cons_of_ne_nil hg.1
  exact noDigitFirst_cons (isDigit_eq_false_of_isBlank (hg.2 c List.mem_cons_self))

/-- Before a slash and digits a run is the numerator of a fraction. -/
theorem continueRun_slash {run den k : List Char} (hd : DigitRun den) (hk : NoDigitFirst k) :
    continueRun run ('/' :: (den ++ k)) = (fraction run den, k) := by
  rw [continueRun, signedRun?_append hd hk]

/-- Before a point and digits a run is the whole part of a decimal. -/
theorem continueRun_point {run decimals k : List Char} (hd : DigitRun decimals)
    (hk : NoDigitFirst k) :
    continueRun run ('.' :: (decimals ++ k)) = (decimal run decimals, k) := by
  have hs : signedRun? '/' ('.' :: (decimals ++ k)) = none := by
    rw [signedRun?, if_neg (by decide)]
  rw [continueRun, hs, signedRun?_append hd hk]

theorem isBlank_head_run {run : List Char} (hr : DigitRun run) (k : List Char) :
    ∀ c ∈ (run ++ k).head?, isBlank c = false := by
  obtain ⟨c, run, rfl⟩ := List.exists_cons_of_ne_nil hr.1
  intro c' hc'
  rw [← Option.some.inj hc']
  exact isBlank_eq_false_of_isDigit (hr.2 c List.mem_cons_self)

/-- Blanks are followed by a fraction exactly where it is written so. -/
theorem spacedFraction?_eq_some_iff {cs gap num den k : List Char} :
    spacedFraction? cs = some ((gap, num, den), k) ↔
      cs = gap ++ (num ++ '/' :: (den ++ k)) ∧ BlankRun gap ∧ DigitRun num ∧ DigitRun den ∧
        NoDigitFirst k := by
  refine ⟨fun h => ?_, ?_⟩
  · unfold spacedFraction? at h
    split at h
    · cases h
    · next b bs hb =>
      simp only [Option.map_eq_some_iff, Prod.mk.injEq, Prod.exists, fractionRun?,
        Option.bind_eq_some_iff] at h
      obtain ⟨n, d, r, ⟨n', k', hn, d', k'', hd, ⟨rfl, rfl⟩, rfl⟩, ⟨rfl, rfl, rfl⟩, rfl⟩ := h
      obtain ⟨hcs, hnum, -⟩ := digitRun?_eq_some_iff_append.1 hn
      obtain ⟨rfl, hden, hk⟩ := signedRun?_eq_some_iff.1 hd
      have hblank : ∀ c ∈ b :: bs, isBlank c = true := hb ▸ List.all_eq_true.1 List.all_takeWhile
      refine ⟨?_, ⟨List.cons_ne_nil b bs, hblank⟩, hnum, hden, hk⟩
      rw [← List.takeWhile_append_dropWhile (p := isBlank) (l := cs), hb, hcs]
  · rintro ⟨rfl, hg, hn, hd, hk⟩
    have hf : fractionRun? (num ++ '/' :: (den ++ k)) = some ((num, den), k) := by
      rw [fractionRun?, digitRun?_append hn (noDigitFirst_slash _)]
      simp only [Option.bind_some, signedRun?_append hd hk, Option.map_some]
    have hhead := isBlank_head_run hn ('/' :: (den ++ k))
    rw [spacedFraction?, takeWhile_append_of_head hg.2 hhead, dropWhile_append_of_head hg.2 hhead,
      hf]
    obtain ⟨b, bs, rfl⟩ := List.exists_cons_of_ne_nil hg.1
    rfl

/-- Before blanks and a fraction a run is the whole part of a mixed fraction. -/
theorem continueRun_gap {run gap num den k : List Char} (hg : BlankRun gap) (hn : DigitRun num)
    (hd : DigitRun den) (hk : NoDigitFirst k) :
    continueRun run (gap ++ (num ++ '/' :: (den ++ k))) = (mixed run gap num den, k) := by
  have hsf : spacedFraction? (gap ++ (num ++ '/' :: (den ++ k))) = some ((gap, num, den), k) :=
    spacedFraction?_eq_some_iff.2 ⟨rfl, hg, hn, hd, hk⟩
  have hsign (sign : Char) (hsign : isBlank sign = false) :
      signedRun? sign (gap ++ (num ++ '/' :: (den ++ k))) = none := by
    refine signedRun?_eq_none fun c hc => ?_
    obtain ⟨b, bs, rfl⟩ := List.exists_cons_of_ne_nil hg.1
    rintro rfl
    rw [← Option.some.inj hc, hg.2 b List.mem_cons_self] at hsign
    cases hsign
  rw [continueRun, hsign '/' (by decide), hsign '.' (by decide), hsf]

/-- Before what starts no number a run is a whole number, or the numerator of a fraction. -/
theorem continueRun_bounded {k : List Char} (hk : Bounded k) (run : List Char) :
    continueRun run k =
      match signedRun? '/' k with
      | some (den, rest) => (fraction run den, rest)
      | none => (whole run, k) := by
  rw [continueRun, hk.signedRun?_point, hk.spacedFraction?]
  cases signedRun? '/' k <;> rfl

/-- **A written literal is found again.** -/
theorem scan?_text_append {l : Literal} (hl : l.Digital) {k : List Char} (hk : Bounded k)
    (hw : (∃ run, l = whole run) → signedRun? '/' k = none) :
    scan? (l.text ++ k) = some (l, k) := by
  cases l with
  | whole run =>
    rw [text, scan?_append hl hk.noDigitFirst, continueRun_bounded hk, hw ⟨run, rfl⟩]
  | decimal run decimals =>
    obtain ⟨hr, hd⟩ := hl
    rw [decimal_text_append]
    by_cases hne : run = []
    · have hp : digitRun? ('.' :: (decimals ++ k)) = none :=
        digitRun?_eq_none (noDigitFirst_point _)
      rw [hne, List.nil_append, scan?, hp, signedRun?_append hd hk.noDigitFirst]
      rfl
    · rw [scan?_append ⟨hne, hr⟩ (noDigitFirst_point _), continueRun_point hd hk.noDigitFirst]
  | fraction num den =>
    obtain ⟨hn, hd⟩ := hl
    rw [fraction_text_append, scan?_append hn (noDigitFirst_slash _),
      continueRun_slash hd hk.noDigitFirst]
  | mixed run gap num den =>
    obtain ⟨hr, hg, hn, hd⟩ := hl
    rw [mixed_text_append, scan?_append hr (noDigitFirst_gap hg),
      continueRun_gap hg hn hd hk.noDigitFirst]

/-- A written literal begins with a digit or a point. -/
theorem head_text {l : Literal} (hl : l.Digital) (k : List Char) :
    ∃ c cs, l.text ++ k = c :: cs ∧ (isDigit c = true ∨ c = '.') := by
  have hrun {run : List Char} (hr : DigitRun run) (k : List Char) :
      ∃ c cs, run ++ k = c :: cs ∧ (isDigit c = true ∨ c = '.') := by
    obtain ⟨c, cs, rfl⟩ := List.exists_cons_of_ne_nil hr.1
    exact ⟨c, cs ++ k, rfl, .inl (hr.2 c List.mem_cons_self)⟩
  cases l with
  | whole run => exact hrun hl k
  | decimal run decimals =>
    by_cases hne : run = []
    · exact ⟨'.', decimals ++ k, by rw [hne]; rfl, .inr rfl⟩
    · rw [decimal_text_append]
      exact hrun ⟨hne, hl.1⟩ _
  | fraction num den =>
    rw [fraction_text_append]
    exact hrun hl.1 _
  | mixed run gap num den =>
    rw [mixed_text_append]
    exact hrun hl.1 _

theorem isBlank_head_text {l : Literal} (hl : l.Digital) (k : List Char) :
    ∀ c ∈ (l.text ++ k).head?, isBlank c = false := by
  obtain ⟨c, cs, he, hc⟩ := head_text hl k
  intro c' hc'
  rw [he] at hc'
  obtain rfl := Option.some.inj hc'
  rcases hc with hd | rfl
  · exact isBlank_eq_false_of_isDigit hd
  · decide

end Literal

/-! ## Names of units -/

theorem isAlpha_of_isAlpha_toLower {c : Char} (h : c.toLower.isAlpha = true) :
    c.isAlpha = true := by
  by_cases hu : c.isUpper = true
  · exact Bool.or_eq_true_iff.2 (.inl hu)
  · have hl : c.toLower = c := dif_neg fun h => hu (decide_eq_true h)
    rwa [hl] at h

theorem LengthUnit.letters_of_mem_aliases {u : LengthUnit} {word : String} (h : word ∈ u.aliases) :
    word.toList ≠ [] ∧ ∀ c ∈ word.toList, c.isAlpha = true :=
  (by cases u <;> decide : ∀ w ∈ u.aliases, w.toList ≠ [] ∧ ∀ c ∈ w.toList, c.isAlpha = true) word h

namespace Suffix

theorem name_ne_nil (s : Suffix) : s.name ≠ [] := by
  intro h
  have hk := (LengthUnit.letters_of_mem_aliases s.known).1
  rw [h] at hk
  exact hk rfl

theorem isAlpha_name (s : Suffix) : ∀ c ∈ s.name, c.isAlpha = true := by
  intro c hc
  have hk := (LengthUnit.letters_of_mem_aliases s.known).2 c.toLower
  rw [String.toList_ofList] at hk
  exact isAlpha_of_isAlpha_toLower (hk (List.mem_map_of_mem hc))

theorem name_neither (s : Suffix) : ∀ c ∈ s.name, isDigit c = false ∧ c ≠ '.' := fun c hc =>
  neither_of_isAlpha (s.isAlpha_name c hc)

/-- After its blanks a unit begins with a letter. -/
theorem head (s : Suffix) (k : List Char) :
    ∀ c ∈ (trimStart (s.text ++ k)).head?, c.isAlpha = true := by
  obtain ⟨c, cs, hn⟩ := List.exists_cons_of_ne_nil s.name_ne_nil
  have hc : c.isAlpha = true := s.isAlpha_name c (by rw [hn]; exact List.mem_cons_self)
  rw [text, List.append_assoc, hn]
  exact (forall_head_gap_cons s.blank (isBlank_eq_false_of_isAlpha hc) _).2 hc

theorem signedRun?_slash (s : Suffix) (k : List Char) : signedRun? '/' (s.text ++ k) = none := by
  refine signedRun?_eq_none fun c hc => ?_
  rintro rfl
  rcases head_of_trimStart (s.head k) _ hc with h | h
  · exact absurd h (by decide)
  · exact absurd h (by decide)

theorem bounded (s : Suffix) (k : List Char) : Bounded (s.text ++ k) := fun c hc =>
  neither_of_isAlpha (s.head k c hc)

end Suffix

end Footrule
