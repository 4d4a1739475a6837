import Footrule.Proofs.Written.Units

/-!
# Lengths in feet and inches

In advanced mode the lengths in feet and inches of a written expression become sums
(`Flow.sumFeetInches`). A length in feet alone is kept: after its name comes the end, an operator or
a closing parenthesis, and none of them starts a length in inches (`noInches_name`).
-/

namespace Footrule

open Formula Piece

/-! ## Feet without inches -/

/-- If a name of the foot is first in a text, no length in inches follows it. -/
def NoInches (k : List Char) : Prop :=
  ∀ name rest, firstWordAt? LengthUnit.foot.aliases k = some (name, rest) →
    measureAt? .inch (trimStart rest) = none

theorem firesAtLiterals_feetInches :
    feetInchesRule.FiresAtLiterals fun _ rest => NoInches rest where
  elsewhere h := by
    simp only [feetInchesRule, feetInchesSum?, measureAt?, h, Option.bind_none]
  keeps {cs l rest} h hs := by
    have hfeet : measureAt? .foot cs =
        (firstWordAt? LengthUnit.foot.aliases rest).map fun found =>
          (l.text ++ found.1, found.2) := by
      rw [measureAt?, h]
      rfl
    simp only [feetInchesRule, feetInchesSum?, hfeet]
    cases hw : firstWordAt? LengthUnit.foot.aliases rest with
    | none => rfl
    | some found =>
      have hnone := hs found.1 found.2 hw
      simp only [Option.map_some, Option.bind_some, hnone, Option.map_none]

/-- Where a value ends no length in inches follows, be it the end of a name or not. -/
theorem noInches_name {name k : List Char} (hname : ∀ c ∈ name, c.isAlpha = true)
    (hk : Closes k) : NoInches (name ++ k) := by
  intro w rest h
  obtain ⟨word, hword, hw⟩ := List.exists_of_findSome?_eq_some h
  obtain ⟨-, name', rfl, rfl⟩ :=
    wordAt?_name (LengthUnit.letters_of_mem_aliases hword).2 hname hk.noLetterFirst hw
  have hbounded := hk.bounded.letters (List.forall_mem_append.1 hname).2
  rw [measureAt?, Literal.scan?_eq_none hbounded]
  rfl

theorem noInches_of_closes {k : List Char} (hk : Closes k) : NoInches k :=
  @noInches_name [] _ (List.forall_mem_nil _) hk

/-! ## Lengths side by side -/

/-- A number and, directly after it, a name of the unit are found. -/
theorem measureAt?_text (l : PlainLiteral) {s : Suffix} {u : LengthUnit} (hu : s.unit = u)
    {k : List Char} (hk : NoLetterFirst k) :
    measureAt? u (l.literal.text ++ (s.name ++ k)) = some (l.literal.text ++ s.name, k) := by
  have hscan : Literal.scan? (l.literal.text ++ (s.name ++ k)) = some (l.literal, s.name ++ k) :=
    Literal.scan?_text_append l.plain.digital (s.closed.bounded k) fun _ => s.closed.signedRun?_slash k
  have hname := LengthUnit.firstWordAt?_aliases hu hk
  simp only [measureAt?, hscan, Option.bind_some, hname, Option.map_some]

namespace Piece

/-- The units of the piece stand directly after their numbers. -/
def IsClosed : Piece → Prop
  | measure m => ∀ s ∈ m.suffix, s.gap = []
  | compound c => c.feetSuffix.gap = [] ∧ c.inchesSuffix.gap = []
  | _ => True

theorem isClosed_closed (q : Piece) : q.closed.IsClosed := by
  cases q with
  | measure m =>
    obtain ⟨l, _ | s⟩ := m
    · exact fun s hs => (Option.not_mem_none s hs).elim
    · intro s' hs'
      rw [← Option.some.inj hs']
      rfl
  | compound c => exact ⟨rfl, rfl⟩
  | _ => trivial

end Piece

theorem Measure.text_of_closed {l : PlainLiteral} {s : Suffix} (hs : s.gap = []) (k : List Char) :
    (⟨l, some s⟩ : Measure).text ++ k = l.literal.text ++ (s.name ++ k) := by
  rw [text, Option.map_some, Option.getD_some, Suffix.text, hs, List.nil_append, List.append_assoc]
  rfl

section Flow

variable {p : Measure → Prop} {b : Bool} {ps : List Piece}

/-- A length in feet and inches becomes a sum. -/
theorem sumFeetInches_compound {c : Compound} (hc : (Piece.compound c).IsClosed) {k : List Char}
    (hk : NoLetterFirst k) :
    sumFeetInches (c.text ++ k) = written (sumLengths (.compound c)) ++ sumFeetInches k := by
  have htext : c.text ++ k = c.feet.literal.text ++ (c.feetSuffix.name ++
      (c.gap ++ (c.inches.literal.text ++ (c.inchesSuffix.name ++ k)))) := by
    have happ : c.text ++ k = c.first.text ++ (c.gap ++ (c.second.text ++ k)) := by
      simp [Compound.text]
    rw [happ, Compound.first, Compound.second, Measure.text_of_closed hc.1,
      Measure.text_of_closed hc.2]
  have hinches := c.inches.literal.noLetterFirst c.inches.plain (c.inchesSuffix.name ++ k)
  have htrim : trimStart (c.gap ++ (c.inches.literal.text ++ (c.inchesSuffix.name ++ k))) =
      c.inches.literal.text ++ (c.inchesSuffix.name ++ k) := by
    rw [trimStart_append_of_blank c.blank, trimStart_eq_self]
    exact Literal.isBlank_head_text c.inches.plain.digital _
  have hfire : feetInchesRule.fire? (c.text ++ k) =
      some (sumOf (c.feet.literal.text ++ c.feetSuffix.name)
        (c.inches.literal.text ++ c.inchesSuffix.name), k) := by
    have hfirst := measureAt?_text c.feet c.isFoot (noLetterFirst_of_isBlank c.blank hinches)
    have hsecond := measureAt?_text c.inches c.isInch hk
    rw [htext]
    simp only [feetInchesRule, feetInchesSum?, hfirst, Option.bind_some, htrim, hsecond,
      Option.map_some]
  refine (Rule.pass_of_fire hfire).trans ?_
  simp [sumLengths, Piece.text, Compound.first, Compound.second, Measure.text, Suffix.text, hc.1,
    hc.2, PlainLiteral.text, sumOf, Operator.sign, sumFeetInches]

/-- A number with its unit directly after it is kept, where a value ends after it. -/
theorem sumFeetInches_suffixed (l : PlainLiteral) {s : Suffix} (hs : s.gap = []) {k : List Char}
    (hk : Closes k) : sumFeetInches ((⟨l, some s⟩ : Measure).text ++ k) =
      (⟨l, some s⟩ : Measure).text ++ sumFeetInches k := by
  have hlit : sumFeetInches (l.literal.text ++ (s.name ++ k)) =
      l.literal.text ++ sumFeetInches (s.name ++ k) := by
    refine Rule.pass_literal firesAtLiterals_feetInches l.plain (s.closed.bounded _)
      (fun _ _ => noInches_name s.isAlpha_name hk) fun run den rest hd => ?_
    rw [← s.text_closed, s.closed.signedRun?_slash] at hd
    cases hd
  have hname : sumFeetInches (s.name ++ k) = s.name ++ sumFeetInches k :=
    Rule.pass_text firesAtLiterals_feetInches s.name_neither _
  rw [Measure.text_of_closed hs, Measure.text_of_closed hs, hlit, hname]

/-- A number with or without a unit is kept. -/
theorem sumFeetInches_measure {m : Measure} (hm : (Piece.measure m).IsClosed)
    (h : Flow Measure.Simple true ps) :
    sumFeetInches (m.text ++ written ps) = m.text ++ sumFeetInches (written ps) := by
  obtain ⟨l, _ | s⟩ := m
  · rw [Measure.text_none]
    refine Rule.pass_literal firesAtLiterals_feetInches l.plain h.closes.bounded
      (fun _ _ => noInches_of_closes h.closes) fun run den rest hd => ?_
    obtain ⟨l', qs, -, -, rfl, hq⟩ := h.signedRun?_slash hd
    exact noInches_of_closes hq.closes
  · exact sumFeetInches_suffixed l (hm s rfl) h.closes

theorem keepsMarks_sumLengths : KeepsMarks sumLengths := by
  intro q hq
  cases q with
  | compound c => exact (hq trivial).elim
  | _ => rfl

/-- **The lengths in feet and inches become sums, and nothing else changes.** -/
theorem Flow.sumFeetInches (h : Flow Measure.Simple b ps) (hc : ∀ q ∈ ps, q.IsClosed) :
    sumFeetInches (written ps) = written (ps.flatMap sumLengths) := by
  refine h.pass_pieces firesAtLiterals_feetInches keepsMarks_sumLengths
    (fun {q ps} hq hclosed h => ?_) hc
  cases q with
  | measure m =>
    have hs : sumLengths (.measure m) = [.measure m] := rfl
    rw [hs, written_singleton]
    exact sumFeetInches_measure hclosed h
  | compound c => exact sumFeetInches_compound hclosed h.closes.noLetterFirst
  | _ => exact hq.elim

theorem StartsDivisor.sumLengths {tight : Bool} (hd : StartsDivisor Measure.Simple tight ps) :
    StartsDivisor Measure.Simple tight (ps.flatMap Piece.sumLengths) := by
  rcases hd.opening_or divides_simple with ⟨qs, rfl⟩ | ⟨l, qs, rfl, -, -⟩
  · trivial
  · exact hd

theorem Flow.sumLengths (h : Flow Measure.Simple b ps) :
    Flow Measure.Simple b (ps.flatMap Piece.sumLengths) := by
  refine h.flatMap keepsMarks_sumLengths (fun {q ps} hq h => ?_) StartsDivisor.sumLengths
  cases q with
  | measure m => exact .measure m h
  | compound c => exact h.sum _ _
  | _ => exact hq.elim

end Flow

end Footrule
