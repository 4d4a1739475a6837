import Footrule.Proofs.Written.Passes

/-!
# Joining the units of a written expression

In advanced mode the blanks before the units of a written expression go, and nothing else does
(`Flow.joinUnits`). The name of a unit is found where it is written
(`LengthUnit.firstWordAt?_aliases`): of the words that are tried, the first that fits is the whole
name.
-/

namespace Footrule

open Formula Piece

/-! ## Words at the start of a name -/

/-- No form of a letter comes first. -/
def NoLetterFirst (k : List Char) : Prop := ∀ c ∈ k.head?, c.isAlpha = false ∧ c ≠ 'ſ'

theorem isFormOf_of_isAlpha {letter c : Char} (hc : c.isAlpha = true)
    (h : isFormOf letter c = true) : c.toLower = letter := by
  simp only [isFormOf, Bool.or_eq_true, Bool.and_eq_true, decide_eq_true_eq] at h
  rcases h with h | ⟨-, rfl⟩
  · exact h
  · exact absurd hc (by decide)

theorem isFormOf_toLower (c : Char) : isFormOf c.toLower c = true := by
  simp [isFormOf]

theorem isFormOf_eq_false {letter c : Char} (hl : letter.isAlpha = true)
    (hc : c.isAlpha = false ∧ c ≠ 'ſ') : isFormOf letter c = false := by
  have hne : c.toLower ≠ letter := by
    rintro rfl
    rw [isAlpha_of_isAlpha_toLower hl] at hc
    exact Bool.noConfusion hc.1
  simp [isFormOf, hne, hc.2]

/-- A word is found at the start of a name in letters of either case. -/
theorem wordAt?_append (name k : List Char) :
    wordAt? (name.map Char.toLower) (name ++ k) = some (name, k) := by
  induction name with
  | nil => rfl
  | cons c name ih =>
    rw [List.map_cons, List.cons_append, wordAt?, if_pos (isFormOf_toLower c), ih]
    rfl

/-- A word that is found there does not go beyond the name. -/
theorem wordAt?_name {word name k w rest : List Char} (hword : ∀ c ∈ word, c.isAlpha = true)
    (hname : ∀ c ∈ name, c.isAlpha = true) (hk : NoLetterFirst k)
    (h : wordAt? word (name ++ k) = some (w, rest)) :
    w.map Char.toLower = word ∧ ∃ name', name = w ++ name' ∧ rest = name' ++ k := by
  induction word generalizing name w with
  | nil =>
    cases h
    exact ⟨rfl, name, rfl, rfl⟩
  | cons letter word ih =>
    obtain ⟨hletter, hword⟩ := List.forall_mem_cons.1 hword
    cases name with
    | nil =>
      cases k with
      | nil => cases h
      | cons c k =>
        rw [List.nil_append, wordAt?, if_neg (by simp [isFormOf_eq_false hletter (hk c rfl)])] at h
        cases h
    | cons c name =>
      obtain ⟨hc, hname⟩ := List.forall_mem_cons.1 hname
      rw [List.cons_append, wordAt?, Option.ite_none_right_eq_some] at h
      obtain ⟨hform, h⟩ := h
      obtain ⟨⟨w', rest'⟩, hw, he⟩ := Option.map_eq_some_iff.1 h
      obtain ⟨rfl, rfl⟩ := Prod.mk.inj he
      obtain ⟨hlower, name', rfl, rfl⟩ := ih hword hname hw
      refine ⟨?_, name', rfl, rfl⟩
      rw [List.map_cons, hlower, isFormOf_of_isAlpha hc hform]

/-- A word found at the start of a text, among words of which none begins with a later one. -/
theorem firstWordAt?_name {words : List String} {name k : List Char}
    (hwords : ∀ word ∈ words, ∀ c ∈ word.toList, c.isAlpha = true)
    (hpair : words.Pairwise fun word word' => ¬ word.toList <+: word'.toList)
    (hname : ∀ c ∈ name, c.isAlpha = true) (hk : NoLetterFirst k)
    (h : String.ofList (name.map Char.toLower) ∈ words) :
    firstWordAt? words (name ++ k) = some (name, k) := by
  induction words with
  | nil => cases h
  | cons word words ih =>
    obtain ⟨hword, hwords⟩ := List.forall_mem_cons.1 hwords
    obtain ⟨hfirst, hpair⟩ := List.pairwise_cons.1 hpair
    rcases List.mem_cons.1 h with heq | hmem
    · have hfound := wordAt?_append name k
      have htl : word.toList = name.map Char.toLower := by rw [← heq, String.toList_ofList]
      rw [← htl] at hfound
      rw [firstWordAt?, List.findSome?_cons, hfound]
    · have hnone : wordAt? word.toList (name ++ k) = none := by
        refine Option.eq_none_iff_forall_ne_some.2 fun ⟨w, rest⟩ hw => hfirst _ hmem ?_
        obtain ⟨hlower, name', rfl, -⟩ := wordAt?_name hword hname hk hw
        rw [String.toList_ofList, List.map_append, hlower]
        exact List.prefix_append _ _
      rw [firstWordAt?, List.findSome?_cons, hnone]
      exact ih hwords hpair hmem

namespace LengthUnit

theorem pairwise_aliases (u : LengthUnit) :
    u.aliases.Pairwise fun word word' => ¬ word.toList <+: word'.toList := by
  cases u <;> decide

/-- The name of a unit is found where it is written. -/
theorem firstWordAt?_aliases {s : Suffix} {u : LengthUnit} (hu : s.unit = u) {k : List Char}
    (hk : NoLetterFirst k) : firstWordAt? u.aliases (s.name ++ k) = some (s.name, k) := by
  subst hu
  exact firstWordAt?_name (fun _ h => (letters_of_mem_aliases h).2) s.unit.pairwise_aliases
    s.isAlpha_name hk s.known

end LengthUnit

/-! ## What is written side by side -/

theorem noLetter_of_isBlank {c : Char} (hb : isBlank c = true) : c.isAlpha = false ∧ c ≠ 'ſ' := by
  refine ⟨Bool.eq_false_iff.2 fun ha => ?_, ?_⟩
  · rw [isBlank_eq_false_of_isAlpha ha] at hb
    cases hb
  · rintro rfl
    exact absurd hb (by decide)

theorem noLetter_of_isDigit {c : Char} (hd : isDigit c = true) : c.isAlpha = false ∧ c ≠ 'ſ' := by
  refine ⟨Bool.eq_false_iff.2 fun ha => ?_, ?_⟩
  · rw [isDigit_eq_false_of_isAlpha ha] at hd
    cases hd
  · rintro rfl
    exact absurd hd (by decide)

/-- No character of a number is a letter. -/
theorem Literal.IsNumeric.noLetter {c : Char} (h : IsNumeric c) :
    c.isAlpha = false ∧ c ≠ 'ſ' := by
  rcases h with hd | hb | rfl | rfl
  · exact noLetter_of_isDigit hd
  · exact noLetter_of_isBlank hb
  · decide
  · decide

theorem noLetterFirst_of_isBlank {gap k : List Char} (hg : ∀ c ∈ gap, isBlank c = true)
    (hk : NoLetterFirst k) : NoLetterFirst (gap ++ k) := by
  cases gap with
  | nil => exact hk
  | cons b gap =>
    intro c hc
    obtain rfl := Option.some.inj hc
    exact noLetter_of_isBlank (hg _ List.mem_cons_self)

theorem Closes.noLetterFirst {k : List Char} (hk : Closes k) : NoLetterFirst k := by
  intro c hc
  rcases hk.head c hc with h | h
  · have hb : ∀ c' ∈ [c], isBlank c' = true := fun c' hc' => by rwa [List.mem_singleton.1 hc']
    exact noLetterFirst_of_isBlank hb (k := []) (fun c hc => (Option.not_mem_none c hc).elim) c rfl
  · exact (by decide : ∀ c ∈ closers, c.isAlpha = false ∧ c ≠ 'ſ') c h

theorem Literal.noLetterFirst {l : Literal} (hl : l.Plain) (k : List Char) :
    NoLetterFirst (l.text ++ k) := by
  obtain ⟨c, cs, he, hc⟩ := l.head_text hl.digital k
  intro c' hc'
  rw [he] at hc'
  obtain rfl := Option.some.inj hc'
  rcases hc with h | rfl
  · exact noLetter_of_isDigit h
  · decide

namespace Suffix

/-- The unit directly after its number. -/
def closed (s : Suffix) : Suffix := { s with gap := [], blank := blank_nil }

theorem text_closed (s : Suffix) : s.closed.text = s.name := rfl

theorem takeWhile_isAlpha (s : Suffix) {k : List Char} (hk : NoLetterFirst k) :
    (s.name ++ k).takeWhile Char.isAlpha = s.name :=
  takeWhile_append_of_head s.isAlpha_name fun c hc => (hk c hc).1

theorem dropWhile_isAlpha (s : Suffix) {k : List Char} (hk : NoLetterFirst k) :
    (s.name ++ k).dropWhile Char.isAlpha = k :=
  dropWhile_append_of_head s.isAlpha_name fun c hc => (hk c hc).1

theorem isBlank_head_name (s : Suffix) (k : List Char) :
    ∀ c ∈ (s.name ++ k).head?, isBlank c = false := by
  obtain ⟨c, name, hn⟩ := List.exists_cons_of_ne_nil s.name_ne_nil
  intro c' hc'
  rw [hn] at hc'
  obtain rfl := Option.some.inj hc'
  exact isBlank_eq_false_of_isAlpha (s.isAlpha_name c (by rw [hn]; exact List.mem_cons_self))

end Suffix

/-- The measure with its unit directly after its number. -/
def Measure.closed (m : Measure) : Measure := ⟨m.number, m.suffix.map Suffix.closed⟩

namespace Piece

/-- The piece with every unit directly after its number. -/
def closed : Piece → Piece
  | measure m => measure m.closed
  | compound c =>
    compound { c with feetSuffix := c.feetSuffix.closed, inchesSuffix := c.inchesSuffix.closed }
  | q => q

/-- A length in feet and inches as the sum of the two; other pieces stay. -/
def sumLengths : Piece → List Piece
  | compound c => [opening, measure c.first, operator .add true, measure c.second, closing]
  | q => [q]

end Piece

/-! ## Fractions right after a number -/

section Flow

variable {b : Bool} {ps : List Piece}

theorem divides_simple : Divides Measure.Simple := by
  rintro ⟨⟨l, hl⟩, s⟩ ⟨hs, hd⟩
  refine ⟨hs, fun hf => ?_⟩
  cases l with
  | fraction num den => exact hd
  | _ => exact hf

/-- A slash and digits right after a value are a tight division sign and a whole number. -/
theorem Flow.signedRun?_slash (h : Flow Measure.Simple true ps) {den rest : List Char}
    (hd : signedRun? '/' (written ps) = some (den, rest)) :
    ∃ (l : PlainLiteral) (qs : List Piece),
      ps = .operator .div true :: .measure l.measure :: qs ∧ l.literal = .whole den ∧
        rest = written qs ∧ Flow Measure.Simple true qs := by
  cases h with
  | nil => cases hd
  | closing h => cases hd
  | @operator o tight qs hdiv h =>
    cases tight with
    | false => cases hd
    | true =>
      by_cases ho : o = .div
      · subst ho
        rcases (hdiv rfl).opening_or divides_simple with ⟨qs, rfl⟩ | ⟨⟨l, hl⟩, qs, rfl, hs, -⟩
        · cases hd
        · have hq : Flow Measure.Simple true qs := h.of_measure
          cases l with
          | whole run =>
            have hrun := @signedRun?_append '/' _ _ (PlainRun.digits hl) hq.closes.bounded.noDigitFirst
            have hw : written (.operator .div true :: .measure ⟨⟨.whole run, hl⟩, none⟩ :: qs) =
                '/' :: (run ++ written qs) := by
              simp [Piece.text, Measure.text, PlainLiteral.text, Literal.text, Operator.sign]
            rw [PlainLiteral.measure, hw, hrun] at hd
            cases hd
            exact ⟨⟨.whole _, hl⟩, qs, rfl, rfl, rfl, hq⟩
          | decimal run decimals => exact ((hdiv rfl).2 rfl _ _ rfl).elim
          | fraction num den => exact hs.2.elim
          | mixed run gap num den => exact hs.2.elim
      · have hne : o.sign ≠ '/' := by
          cases o <;> first | decide | exact (ho rfl).elim
        rw [signedRun?_eq_none fun c hc => by rwa [← Option.some.inj hc]] at hd
        cases hd

/-! ## Joining units -/

theorem firesAtLiterals_unit : unitRule.FiresAtLiterals fun _ rest =>
    rest.takeWhile isBlank = [] ∨ (trimStart rest).takeWhile Char.isAlpha = [] where
  elsewhere h := by
    simp only [unitRule, joinedUnit?, h]
  keeps h hs := by
    simp only [unitRule, joinedUnit?, h, if_pos hs]

/-- A unit directly after its number stays there. -/
theorem joinUnits_name (l : PlainLiteral) (s : Suffix) {k : List Char} :
    joinUnits (l.literal.text ++ (s.name ++ k)) = l.literal.text ++ (s.name ++ joinUnits k) := by
  have hlit : joinUnits (l.literal.text ++ (s.name ++ k)) =
      l.literal.text ++ joinUnits (s.name ++ k) := by
    refine Rule.pass_literal firesAtLiterals_unit l.plain (s.closed.bounded k)
      (fun _ _ => .inl (takeWhile_eq_nil_of_head (s.isBlank_head_name k))) ?_
    intro run den rest h
    rw [← s.text_closed, s.closed.signedRun?_slash k] at h
    cases h
  have hname : joinUnits (s.name ++ k) = s.name ++ joinUnits k :=
    Rule.pass_text firesAtLiterals_unit s.name_neither k
  rw [hlit, hname]

/-- The blanks between a number and its unit go. -/
theorem joinUnits_suffixed (l : PlainLiteral) (s : Suffix) {k : List Char} (hk : NoLetterFirst k) :
    joinUnits ((⟨l, some s⟩ : Measure).text ++ k) =
      (Measure.closed ⟨l, some s⟩).text ++ joinUnits k := by
  have htext : (⟨l, some s⟩ : Measure).text ++ k = l.literal.text ++ (s.text ++ k) :=
    List.append_assoc _ _ _
  have hclosed : (Measure.closed ⟨l, some s⟩).text = l.literal.text ++ s.name := rfl
  have hblank := s.isBlank_head_name k
  rw [htext, hclosed, List.append_assoc]
  by_cases hg : s.gap = []
  · have hs : s.text ++ k = s.name ++ k := by rw [Suffix.text, hg, List.nil_append]
    rw [hs, joinUnits_name]
  · have hgap : (s.text ++ k).takeWhile isBlank = s.gap := by
      rw [Suffix.text, List.append_assoc, takeWhile_append_of_head s.blank hblank]
    have htrim : trimStart (s.text ++ k) = s.name ++ k := by
      rw [Suffix.text, List.append_assoc, trimStart_append_of_blank s.blank,
        trimStart_eq_self hblank]
    have hscan := Literal.scan?_text_append l.plain.digital (s.bounded k) fun _ => s.signedRun?_slash k
    have hfire : unitRule.fire? (l.literal.text ++ (s.text ++ k)) =
        some (l.literal.text ++ s.name, k) := by
      have hne : ¬ (s.gap = [] ∨ s.name = []) := fun h => h.elim hg s.name_ne_nil
      simp only [unitRule, joinedUnit?, hscan, hgap, htrim, s.takeWhile_isAlpha hk,
        s.dropWhile_isAlpha hk, if_neg hne]
    refine (Rule.pass_of_fire hfire).trans ?_
    rw [List.append_assoc]
    rfl

theorem joinUnits_number (l : PlainLiteral) (h : Flow Measure.Simple true ps) :
    joinUnits (l.literal.text ++ written ps) = l.literal.text ++ joinUnits (written ps) := by
  have hnone {qs : List Piece} (h : Flow Measure.Simple true qs) :
      (trimStart (written qs)).takeWhile Char.isAlpha = [] :=
    takeWhile_eq_nil_of_head h.closes.noLetterFirst_trimStart
  refine Rule.pass_literal firesAtLiterals_unit l.plain h.closes.bounded
    (fun _ _ => .inr (hnone h)) fun run den rest hd => ?_
  obtain ⟨l', qs, -, -, rfl, hq⟩ := h.signedRun?_slash hd
  exact .inr (hnone hq)

theorem joinUnits_compound (c : Compound) {k : List Char} (hk : NoLetterFirst k) :
    joinUnits (c.text ++ k) = (Piece.closed (.compound c)).text ++ joinUnits k := by
  have htext : c.text ++ k = c.first.text ++ (c.gap ++ (c.second.text ++ k)) := by
    simp [Compound.text]
  have hsecond : NoLetterFirst (c.second.text ++ k) := by
    rw [Compound.second, Measure.text, List.append_assoc]
    exact c.inches.literal.noLetterFirst c.inches.plain _
  have hgap (k : List Char) : joinUnits (c.gap ++ k) = c.gap ++ joinUnits k :=
    Rule.pass_blank firesAtLiterals_unit c.blank k
  have hclosed : (Piece.closed (.compound c)).text =
      c.first.closed.text ++ (c.gap ++ c.second.closed.text) := rfl
  have hfirst := noLetterFirst_of_isBlank c.blank hsecond
  rw [htext, Compound.first, joinUnits_suffixed _ _ hfirst, hgap, Compound.second,
    joinUnits_suffixed _ _ hk, hclosed, List.append_assoc, List.append_assoc]
  rfl

theorem keepsMarks_closed : KeepsMarks fun q => [q.closed] := by
  intro q hq
  cases q with
  | measure m => exact (hq trivial).elim
  | compound c => exact (hq trivial).elim
  | _ => rfl

/-- **The blanks before the units of a written expression go, and nothing else.** -/
theorem Flow.joinUnits (h : Flow Measure.Simple b ps) :
    joinUnits (written ps) = written (ps.map Piece.closed) := by
  rw [List.map_eq_flatMap]
  refine h.pass_pieces firesAtLiterals_unit keepsMarks_closed (P := fun _ => True)
    (fun {q ps} hq _ h => ?_) fun _ _ => trivial
  rw [written_singleton]
  cases q with
  | measure m =>
    obtain ⟨l, _ | s⟩ := m
    · rw [Piece.text, Piece.closed, Measure.closed, Option.map_none, Piece.text, Measure.text_none]
      exact joinUnits_number l h
    · exact joinUnits_suffixed l s h.closes.noLetterFirst
  | compound c => exact joinUnits_compound c h.closes.noLetterFirst
  | _ => exact hq.elim

theorem StartsDivisor.closed {tight : Bool} (hd : StartsDivisor Measure.Simple tight ps) :
    StartsDivisor Measure.Simple tight (ps.flatMap fun q => [q.closed]) := by
  rcases hd.opening_or divides_simple with ⟨qs, rfl⟩ | ⟨l, qs, rfl, -, -⟩
  · trivial
  · exact hd

theorem Flow.closed (h : Flow Measure.Simple b ps) :
    Flow Measure.Simple b (ps.map Piece.closed) := by
  rw [List.map_eq_flatMap]
  refine h.flatMap keepsMarks_closed (fun {q ps} hq h => ?_) StartsDivisor.closed
  cases q with
  | measure m => exact .measure _ h
  | compound c => exact .compound _ h
  | _ => exact hq.elim

end Flow

end Footrule
