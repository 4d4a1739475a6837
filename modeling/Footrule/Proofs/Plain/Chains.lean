import Footrule.Proofs.Grammar.Machine
import Footrule.Proofs.Plain.Joining

/-!
# Chains of divisions

A chain is a whole number that is divided by others in turn, each with or without a sign and with
any blanks about the division signs (`Chain`). Joining fractions makes an unsigned divisor the
denominator of a signed one directly before it (`joinedLinks`): in `6 / -4 / 2` the second division
is taken for the fraction `4/2`. All other divisions of a chain are read as they are written, tight
or loose (`reads_links`), whether mixed fractions are written as sums or not (`Reader`).
-/

namespace Footrule

open Formula

/-! ## Chains -/

/-- A sign in front of a number, if there is one: a minus or a plus. -/
def signText : Option Bool → List Char
  | none => []
  | some minus => [(if minus then Operator.sub else .add).sign]

/-- A division sign with blanks about it, and a whole number with a sign or without. -/
structure Link where
  before : List Char
  after : List Char
  sign : Option Bool
  digits : List Char
  blank_before : ∀ c ∈ before, isBlank c = true
  blank_after : ∀ c ∈ after, isBlank c = true
  plain : PlainRun digits

/-- A whole number that is divided by others, from left to right. -/
structure Chain where
  first : List Char
  links : List Link
  plain : PlainRun first

/-- How a link is written. -/
def Link.text (l : Link) : List Char :=
  l.before ++ '/' :: (l.after ++ (signText l.sign ++ l.digits))

/-- How the links of a chain are written. -/
def linksText (ls : List Link) : List Char := ls.flatMap Link.text

/-- How a chain is written. -/
def Chain.text (c : Chain) : List Char := c.first ++ linksText c.links

/-! ## Joined links -/

/-- A link, and the one after it if joining makes that the denominator of a fraction. -/
structure JoinedLink where
  link : Link
  den : Option Link

/-- A signed link is joined with an unsigned one directly after it. -/
def joinedLinks : List Link → List JoinedLink
  | [] => []
  | [l] => [⟨l, none⟩]
  | l :: l' :: ls =>
    if l.sign ≠ none ∧ l'.sign = none then ⟨l, some l'⟩ :: joinedLinks ls
    else ⟨l, none⟩ :: joinedLinks (l' :: ls)

/-- No unsigned link comes next. -/
def NoUnsignedFirst (ls : List Link) : Prop := ∀ l ∈ ls.head?, l.sign ≠ none

namespace JoinedLink

/-- The literal after the division sign. -/
def literal : JoinedLink → Literal
  | ⟨l, none⟩ => .whole l.digits
  | ⟨l, some l'⟩ => .fraction l.digits l'.digits

/-- The tokens of a joined link. -/
def tokens (g : JoinedLink) : List Token :=
  .mark (.operator .div) ::
    (g.link.sign.toList.map Level.signToken ++ [.number g.literal.text none])

end JoinedLink

/-- The tokens of the links of a chain. -/
def linksTokens (ls : List Link) : List Token := (joinedLinks ls).flatMap JoinedLink.tokens

theorem joinedLinks_unsigned {l : Link} (hl : l.sign = none) (ls : List Link) :
    joinedLinks (l :: ls) = ⟨l, none⟩ :: joinedLinks ls := by
  cases ls with
  | nil => rfl
  | cons l' ls => rw [joinedLinks, if_neg fun h => h.1 hl]

theorem joinedLinks_signed {l : Link} {ls : List Link} (h : NoUnsignedFirst ls) :
    joinedLinks (l :: ls) = ⟨l, none⟩ :: joinedLinks ls := by
  cases ls with
  | nil => rfl
  | cons l' ls => rw [joinedLinks, if_neg fun h' => h l' rfl h'.2]

theorem joinedLinks_fraction {l l' : Link} (hl : l.sign ≠ none) (hl' : l'.sign = none)
    (ls : List Link) : joinedLinks (l :: l' :: ls) = ⟨l, some l'⟩ :: joinedLinks ls := by
  rw [joinedLinks, if_pos ⟨hl, hl'⟩]

/-! ## Reading the links -/

/-- What reads a text from its left end, whether mixed fractions become sums before or not. -/
structure Reader (read : Bool → List Char → Option (List Token)) : Prop where
  nil : read false [] = some []
  gap {b : Bool} {gap k : List Char} : (∀ c ∈ gap, isBlank c = true) → read b (gap ++ k) = read b k
  sign {b : Bool} (m : Mark) (k : List Char) :
    read b (m.sign :: k) = (read (m = .operator .div) k).map (.mark m :: ·)
  whole {b : Bool} {run k : List Char} : DigitRun run → EndsRun k →
    read b (run ++ k) = (read false k).map (.number run none :: ·)
  fraction {b : Bool} {num den k : List Char} : DigitRun num → DigitRun den → NoDigitFirst k →
    spacedFraction? k = none → read b (num ++ '/' :: (den ++ k)) =
      (read false k).map (numberTokens b (.fraction num den) none ++ ·)

theorem reader_reading : Reader reading where
  nil := reading_nil
  gap hg := reading_gap hg _
  sign := reading_sign
  whole := reading_whole
  fraction hn hd hk _ := reading_fraction hn hd hk

theorem reader_basicReading : Reader basicReading where
  nil := basicReading_nil
  gap hg := basicReading_gap hg _
  sign := basicReading_sign
  whole := basicReading_whole
  fraction := basicReading_fraction

/-- The text is read as the given tokens, also when it stands directly after a divisor. -/
structure Reads (read : Bool → List Char → Option (List Token)) (t : List Char)
    (ts : List Token) : Prop where
  noDigitFirst : NoDigitFirst t
  point : signedRun? '.' t = none
  gap : spacedFraction? t = none
  start : read false t = some ts
  divisor {run : List Char} : DigitRun run → read true (run ++ t) = some (.number run none :: ts)

namespace Reads

variable {read : Bool → List Char → Option (List Token)} {t X : List Char} {ts us : List Token}
  {l : Link}

theorem whole (hR : Reader read) (h : Reads read t ts) (hs : signedRun? '/' t = none)
    {run : List Char} (hr : DigitRun run) (b : Bool) :
    read b (run ++ t) = some (.number run none :: ts) := by
  rw [hR.whole hr ⟨h.noDigitFirst, hs, h.point, h.gap⟩, h.start]
  rfl

theorem slash (hR : Reader read) {gap gap' : List Char} (hg : ∀ c ∈ gap, isBlank c = true)
    (hg' : ∀ c ∈ gap', isBlank c = true) (k : List Char) :
    read false (gap ++ '/' :: (gap' ++ k)) =
      (read true k).map (.mark (.operator .div) :: ·) := by
  rw [hR.gap hg]
  exact (hR.sign (.operator .div) _).trans (by rw [hR.gap hg']; rfl)

theorem nil (hR : Reader read) : Reads read [] [] := by
  have hends : EndsRun [] := ⟨fun c hc => (Option.not_mem_none c hc).elim, rfl, rfl, rfl⟩
  refine ⟨hends.noDigitFirst, hends.point, hends.gap, hR.nil, fun {run} hr => ?_⟩
  rw [hR.whole hr hends, hR.nil]
  rfl

/-- A division sign and an unsigned divisor, tight or loose. -/
theorem unsigned (hR : Reader read) (h : Reads read t ts) (hl : l.sign = none) :
    Reads read (l.text ++ t) (.mark (.operator .div) :: .number l.digits none :: ts) := by
  have htext : l.text ++ t = l.before ++ '/' :: (l.after ++ (l.digits ++ t)) := by
    simp [Link.text, hl, signText]
  have hstart : read false (l.text ++ t) =
      some (.mark (.operator .div) :: .number l.digits none :: ts) := by
    rw [htext, slash hR l.blank_before l.blank_after, h.divisor l.plain.digits]
    rfl
  rw [htext] at hstart ⊢
  refine ⟨noDigitFirst_gap_slash l.blank_before _, signedRun?_point_gap_slash l.blank_before _,
    spacedFraction?_gap_slash l.blank_before _, hstart, fun {run} hr => ?_⟩
  by_cases hloose : l.before ≠ [] ∨ l.after ≠ []
  · rw [hR.whole hr (endsRun_of_loose l.blank_before l.blank_after hloose _), hstart]
    rfl
  · obtain ⟨hbefore, hafter⟩ : l.before = [] ∧ l.after = [] := by simpa using hloose
    rw [hbefore, hafter, List.nil_append, List.nil_append,
      hR.fraction hr l.plain.digits h.noDigitFirst h.gap, h.start]
    rfl

/-- A division sign and a sign, and what is read after them. -/
theorem signed (hR : Reader read) {minus : Bool} (h : read false X = some us)
    {gap gap' : List Char} (hg : ∀ c ∈ gap, isBlank c = true)
    (hg' : ∀ c ∈ gap', isBlank c = true) :
    Reads read (gap ++ '/' :: (gap' ++ (signText (some minus) ++ X)))
      (.mark (.operator .div) :: Level.signToken minus :: us) := by
  have hsign (b : Bool) :
      read b (signText (some minus) ++ X) = some (Level.signToken minus :: us) := by
    refine (hR.sign (.operator (if minus then .sub else .add)) X).trans ?_
    cases minus <;> simp [h, Level.signToken]
  have hstart : read false (gap ++ '/' :: (gap' ++ (signText (some minus) ++ X))) =
      some (.mark (.operator .div) :: Level.signToken minus :: us) := by
    rw [slash hR hg hg', hsign]
    rfl
  have hno : NoDigitFirst (signText (some minus) ++ X) := by
    cases minus <;> exact Literal.noDigitFirst_cons (by decide)
  have hends := endsRun_of_gap_slash hg hg' hno
  refine ⟨hends.noDigitFirst, hends.point, hends.gap, hstart, fun {run} hr => ?_⟩
  rw [hR.whole hr hends, hstart]
  rfl

end Reads

/-! ## Joining the fractions of a chain -/

section Links

variable {l l' : Link} {ls : List Link} {run : List Char}

theorem Link.text_unsigned (hl : l.sign = none) (k : List Char) :
    l.text ++ k = l.before ++ '/' :: (l.after ++ (l.digits ++ k)) := by
  simp [text, hl, signText]

theorem Link.text_signed {minus : Bool} (hl : l.sign = some minus) (k : List Char) :
    l.text ++ k = l.before ++ '/' :: (l.after ++ (signText (some minus) ++ (l.digits ++ k))) := by
  simp [text, hl]

theorem linksText_cons (l : Link) (ls : List Link) :
    linksText (l :: ls) = l.text ++ linksText ls := rfl

theorem Link.text_append (l : Link) (k : List Char) :
    l.text ++ k = l.before ++ '/' :: (l.after ++ (signText l.sign ++ (l.digits ++ k))) := by
  simp [text]

theorem noDigitFirst_linksText (ls : List Link) : NoDigitFirst (linksText ls) := by
  cases ls with
  | nil => exact fun c hc => (Option.not_mem_none c hc).elim
  | cons l ls =>
    rw [linksText_cons, l.text_append]
    exact noDigitFirst_gap_slash l.blank_before _

theorem divisor_linksText (l : Link) (ls : List Link) : Divisor l.digits [] (linksText ls) := by
  refine .whole l.plain.digits (noDigitFirst_linksText ls) ?_
  cases ls with
  | nil => rfl
  | cons l' ls =>
    rw [linksText_cons, l'.text_append]
    exact signedRun?_point_gap_slash l'.blank_before _

/-- A sign after a division sign is no digit. -/
theorem noDivision_linksText (h : NoUnsignedFirst ls) : NoDivision (linksText ls) := by
  cases ls with
  | nil => exact noDivision_of_head fun c hc => (Option.not_mem_none c hc).elim
  | cons l ls =>
    obtain ⟨minus, hl⟩ := Option.ne_none_iff_exists'.1 (h l rfl)
    rw [linksText_cons, Link.text_signed hl]
    refine noDivision_gap l.blank_before (noDivision_slash ?_)
    rw [trimStart_append_of_blank l.blank_after]
    cases minus <;> exact Literal.noDigitFirst_cons (by decide)

/-- A number is joined with the unsigned divisor directly after it. -/
theorem joinFractions_dividend_unsigned (hr : DigitRun run) (hl : l.sign = none) :
    joinFractions (run ++ linksText (l :: ls)) =
      run ++ '/' :: (l.digits ++ joinFractions (linksText ls)) := by
  rw [linksText_cons, Link.text_unsigned hl]
  exact joinFractions_whole hr l.blank_before l.blank_after (divisor_linksText l ls)

theorem joinFractions_dividend (hr : DigitRun run) (h : NoUnsignedFirst ls) :
    joinFractions (run ++ linksText ls) = run ++ joinFractions (linksText ls) :=
  joinFractions_run hr.2 (noDigitFirst_linksText ls) (noDivision_linksText h)

theorem joinFractions_signed {minus : Bool} (hl : l.sign = some minus) :
    joinFractions (linksText (l :: ls)) =
      l.before ++ '/' :: (l.after ++
        (signText (some minus) ++ joinFractions (l.digits ++ linksText ls))) := by
  have hsign (k : List Char) :
      joinFractions (signText (some minus) ++ k) = signText (some minus) ++ joinFractions k := by
    cases minus <;> exact joinFractions_cons (by decide) (by decide) k
  have hscan : Division.scan? (trimStart (l.after ++
      (signText (some minus) ++ (l.digits ++ linksText ls)))) = none := by
    rw [trimStart_append_of_blank l.blank_after]
    refine Division.scan?_eq_none ?_
    cases minus <;> exact Literal.noDigitFirst_cons (by decide)
  rw [linksText_cons, Link.text_signed hl, joinFractions_blank l.blank_before,
    joinFractions_slash hscan, joinFractions_blank l.blank_after, hsign]

/-- A division sign and an unsigned divisor are kept, if no unsigned one follows. -/
theorem joinFractions_unsigned (hl : l.sign = none) (h : NoUnsignedFirst ls) :
    joinFractions (linksText (l :: ls)) = l.text ++ joinFractions (linksText ls) := by
  have hdigits := l.plain.digits
  have hscan : Division.scan? (trimStart (l.after ++ (l.digits ++ linksText ls))) = none := by
    rw [trimStart_append_of_blank l.blank_after,
      trimStart_eq_self (Literal.isBlank_head_run hdigits _),
      Division.scan?_run hdigits (noDigitFirst_linksText ls), noDivision_linksText h]
  rw [linksText_cons, Link.text_unsigned hl, Link.text_unsigned hl,
    joinFractions_blank l.blank_before, joinFractions_slash hscan,
    joinFractions_blank l.blank_after, joinFractions_dividend hdigits h]

/-- After a division sign two unsigned divisors are kept. -/
theorem joinFractions_unsigned_unsigned (hl : l.sign = none) (hl' : l'.sign = none) :
    joinFractions (linksText (l :: l' :: ls)) =
      l.text ++ (l'.text ++ joinFractions (linksText ls)) := by
  rw [linksText_cons, linksText_cons, Link.text_unsigned hl, Link.text_unsigned hl',
    Link.text_unsigned hl, Link.text_unsigned hl', joinFractions_blank l.blank_before]
  have hdivision := joinFractions_slash_division l.blank_after l.plain.digits l'.blank_before
    l'.blank_after (divisor_linksText l' ls)
  exact congrArg _ hdivision

end Links

/-! ## Reading a chain -/

theorem noUnsignedFirst_or (ls : List Link) :
    NoUnsignedFirst ls ∨ ∃ l ls', ls = l :: ls' ∧ l.sign = none := by
  cases ls with
  | nil => exact .inl fun l hl => (Option.not_mem_none l hl).elim
  | cons l ls =>
    by_cases hl : l.sign = none
    · exact .inr ⟨l, ls, rfl, hl⟩
    · refine .inl fun l' hl' => ?_
      rwa [← Option.some.inj hl']

section Read

variable {read : Bool → List Char → Option (List Token)} {run : List Char} {l : Link}
  {ls : List Link} {ts : List Token}

/-- A number with the unsigned divisor directly after it is read as a fraction. -/
theorem read_dividend_unsigned (hR : Reader read) (hr : DigitRun run) (hl : l.sign = none)
    (h : Reads read (joinFractions (linksText ls)) ts) :
    read false (joinFractions (run ++ linksText (l :: ls))) =
      some (.number (Literal.fraction run l.digits).text none :: ts) := by
  rw [joinFractions_dividend_unsigned hr hl,
    hR.fraction hr l.plain.digits h.noDigitFirst h.gap, h.start]
  rfl

theorem read_dividend (hR : Reader read) (hr : DigitRun run) (hls : NoUnsignedFirst ls)
    (h : Reads read (joinFractions (linksText ls)) ts) :
    read false (joinFractions (run ++ linksText ls)) = some (.number run none :: ts) := by
  rw [joinFractions_dividend hr hls]
  exact h.whole hR (signedRun?_slash_of_noDivision (noDivision_linksText hls)) hr false

theorem linksTokens_cons {g : JoinedLink} {ls' : List Link}
    (h : joinedLinks (l :: ls) = g :: joinedLinks ls') :
    linksTokens (l :: ls) = g.tokens ++ linksTokens ls' := by
  rw [linksTokens, h, List.flatMap_cons, linksTokens]

/-- **The links of a chain are read as they are joined.** -/
theorem reads_links (hR : Reader read) (ls : List Link) :
    Reads read (joinFractions (linksText ls)) (linksTokens ls) := by
  induction hlen : ls.length using Nat.strongRecOn generalizing ls with
  | ind n ih =>
    subst hlen
    cases ls with
    | nil =>
      rw [linksText, List.flatMap_nil, joinFractions, Rule.pass_nil]
      exact .nil hR
    | cons l ls =>
      have hls := ih _ (Nat.lt_succ_self _) ls rfl
      cases hl : l.sign with
      | none =>
        rw [linksTokens_cons (joinedLinks_unsigned hl ls), JoinedLink.tokens, hl]
        rcases noUnsignedFirst_or ls with hno | ⟨l', ls', rfl, hl'⟩
        · rw [joinFractions_unsigned hl hno]
          exact hls.unsigned hR hl
        · have hls' := ih _ (by simp only [List.length_cons]; omega) ls' rfl
          rw [joinFractions_unsigned_unsigned hl hl',
            linksTokens_cons (joinedLinks_unsigned hl' ls'), JoinedLink.tokens, hl']
          exact (hls'.unsigned hR hl').unsigned hR hl
      | some minus =>
        have hne : l.sign ≠ none := by simp [hl]
        rw [joinFractions_signed hl]
        rcases noUnsignedFirst_or ls with hno | ⟨l', ls', rfl, hl'⟩
        · have hread := read_dividend hR l.plain.digits hno hls
          rw [linksTokens_cons (joinedLinks_signed hno), JoinedLink.tokens, hl]
          exact .signed hR hread l.blank_before l.blank_after
        · have hls' := ih _ (by simp only [List.length_cons]; omega) ls' rfl
          have hread := read_dividend_unsigned hR l.plain.digits hl' hls'
          rw [linksTokens_cons (joinedLinks_fraction hne hl' ls'), JoinedLink.tokens, hl]
          exact .signed hR hread l.blank_before l.blank_after

namespace Chain

/-- The tokens of a chain with its links joined. -/
def tokens (c : Chain) : List Token := .number c.first none :: linksTokens c.links

theorem followsValue_linksTokens (ls : List Link) : FollowsValue (linksTokens ls) := by
  unfold linksTokens
  cases joinedLinks ls with
  | nil => trivial
  | cons g gs => trivial

/-- **A chain is read as its tokens, or with a fraction for its first division.** -/
theorem exists_read (hR : Reader read) (c : Chain) :
    ∃ ts, read false (joinFractions c.text) = some ts ∧ Regrouped false ts c.tokens := by
  obtain ⟨first, links, hfirst⟩ := c
  rcases noUnsignedFirst_or links with hno | ⟨l, ls, rfl, hl⟩
  · exact ⟨_, read_dividend hR hfirst.digits hno (reads_links hR links), .refl _ _⟩
  · refine ⟨_, read_dividend_unsigned hR hfirst.digits hl (reads_links hR ls), ?_⟩
    rw [tokens, linksTokens_cons (joinedLinks_unsigned hl ls), JoinedLink.tokens, hl]
    exact .fraction (readsAsQuotient_fraction hfirst l.plain) (followsValue_linksTokens ls)
      (.refl _ _)

end Chain

end Read

end Footrule
