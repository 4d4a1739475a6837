import Footrule.Proofs.Written.Joining

/-!
# Rules that fire at literals

The later passes of the preparation look for literals only (`Rule.FiresAtLiterals`). Such a rule
keeps a written literal if it does not fire at a literal that goes on as this one does
(`Rule.pass_literal`). In basic mode the mixed fractions of a written expression become sums, and
the rest is kept (`Flow.sumMixed`).
-/

namespace Footrule

open Formula Piece

/-! ## Passes over literals -/

/-- The rule fires only at a literal, and not if the literal and what follows it are safe. -/
structure Rule.FiresAtLiterals (r : Rule) (safe : Literal → List Char → Prop) : Prop where
  elsewhere : ∀ {cs}, Literal.scan? cs = none → r.fire? cs = none
  keeps : ∀ {cs l rest}, Literal.scan? cs = some (l, rest) → safe l rest → r.fire? cs = none

section FiresAtLiterals

variable {r : Rule} {safe : Literal → List Char → Prop} {k : List Char}

/-- What has no digit and no point is kept. -/
theorem Rule.pass_text (hr : r.FiresAtLiterals safe) {cs : List Char}
    (h : ∀ c ∈ cs, isDigit c = false ∧ c ≠ '.') (k : List Char) :
    r.pass (cs ++ k) = cs ++ r.pass k := by
  refine pass_append fun {s} hne hs => hr.elsewhere (Literal.scan?_eq_none fun c hc => ?_)
  obtain ⟨d, s, rfl⟩ := List.exists_cons_of_ne_nil hne
  obtain rfl := Option.some.inj hc
  exact h d (hs.mem List.mem_cons_self)

theorem Rule.pass_blank (hr : r.FiresAtLiterals safe) {gap : List Char}
    (h : ∀ c ∈ gap, isBlank c = true) (k : List Char) : r.pass (gap ++ k) = gap ++ r.pass k := by
  refine pass_text hr (fun c hc => ⟨isDigit_eq_false_of_isBlank (h c hc), ?_⟩) k
  rintro rfl
  exact absurd (h _ hc) (by decide)

/-- A run of digits is kept, if it is safe with all that may follow it in a literal. -/
theorem Rule.pass_run (hr : r.FiresAtLiterals safe) {run : List Char}
    (hd : ∀ c ∈ run, isDigit c = true) (hk : NoDigitFirst k)
    (hs : ∀ s l rest, Literal.continueRun s k = (l, rest) → safe l rest) :
    r.pass (run ++ k) = run ++ r.pass k := by
  refine pass_append fun {s} hne hsuf => ?_
  have hdigits : DigitRun s := ⟨hne, fun c hc => hd c (hsuf.mem hc)⟩
  exact hr.keeps (Literal.scan?_append hdigits hk) (hs s _ _ rfl)

/-- **A literal is kept, if none that goes on as it does makes the rule fire.** -/
theorem Rule.pass_literal (hr : r.FiresAtLiterals safe) {l : Literal} (hl : l.Plain)
    (hk : Bounded k) (hs : ∀ l' : Literal, (l'.IsMixed → l.IsMixed) → safe l' k)
    (hdiv : ∀ run den rest, signedRun? '/' k = some (den, rest) → safe (.fraction run den) rest) :
    r.pass (l.text ++ k) = l.text ++ r.pass k := by
  have hlast : ∀ s l' rest, Literal.continueRun s k = (l', rest) → safe l' rest := by
    intro s l' rest h
    rw [Literal.continueRun_bounded hk] at h
    split at h <;> cases h
    · next h => exact hdiv _ _ _ h
    · exact hs _ fun h => nomatch h
  have hrun {run : List Char} (hd : ∀ c ∈ run, c.isDigit = true) :
      r.pass (run ++ k) = run ++ r.pass k :=
    pass_run hr (fun c hc => isDigit_of_ascii (hd c hc)) hk.noDigitFirst hlast
  have hfraction {num den : List Char} (hn : PlainRun num) (hd : PlainRun den) :
      r.pass (num ++ '/' :: (den ++ k)) = num ++ '/' :: (den ++ r.pass k) := by
    have hslash : r.pass ('/' :: (den ++ k)) = '/' :: r.pass (den ++ k) :=
      @pass_text r safe hr ['/'] (by decide) _
    have hnum := pass_run hr hn.isDigit (Literal.noDigitFirst_slash (den ++ k))
      fun s l' rest h => by
        rw [Literal.continueRun_slash hd.digits hk.noDigitFirst] at h
        cases h
        exact hs _ fun h => nomatch h
    rw [hnum, hslash, hrun hd.2]
  cases l with
  | whole run => exact hrun hl.2
  | decimal run decimals =>
    obtain ⟨hw, hd⟩ := hl
    have hpoint : r.pass ('.' :: (decimals ++ k)) = '.' :: r.pass (decimals ++ k) := by
      refine pass_of_not_fire
        (hr.keeps (?_ : Literal.scan? _ = some (.decimal [] decimals, k)) ?_)
      · have hplain : (Literal.decimal [] decimals).Plain := ⟨List.forall_mem_nil _, hd⟩
        exact Literal.scan?_text_append hplain.digital hk fun h => nomatch h
      · exact hs _ fun h => nomatch h
    have hwhole := pass_run hr (fun c hc => isDigit_of_ascii (hw c hc)) (k := '.' :: (decimals ++ k))
      (Literal.noDigitFirst_point _) fun s l' rest h => by
        rw [Literal.continueRun_point hd.digits hk.noDigitFirst] at h
        cases h
        exact hs _ fun h => nomatch h
    rw [Literal.decimal_text_append, Literal.decimal_text_append, hwhole, hpoint, hrun hd.2]
  | fraction num den =>
    rw [Literal.fraction_text_append, Literal.fraction_text_append, hfraction hl.1 hl.2]
  | mixed run gap num den =>
    obtain ⟨hw, hg, hn, hd⟩ := hl
    have hwhole := pass_run hr hw.isDigit (k := gap ++ (num ++ '/' :: (den ++ k)))
      (Literal.noDigitFirst_gap hg) fun s l' rest h => by
        rw [Literal.continueRun_gap hg hn.digits hd.digits hk.noDigitFirst] at h
        cases h
        exact hs _ id
    rw [Literal.mixed_text_append, Literal.mixed_text_append, hwhole, pass_blank hr hg.2,
      hfraction hn hd]

theorem Piece.neither_of_not_isValue {q : Piece} (h : ¬ q.IsValue) :
    ∀ c ∈ q.text, isDigit c = false ∧ c ≠ '.' := by
  cases q with
  | measure m => exact (h trivial).elim
  | compound c => exact (h trivial).elim
  | sign minus => cases minus <;> decide
  | operator o tight => cases o <;> cases tight <;> decide
  | opening => decide
  | closing => decide

/-- **What a pass does to the values, it does to all that is written.** -/
theorem Flow.pass_pieces (hr : r.FiresAtLiterals safe) {f : Piece → List Piece}
    (hf : KeepsMarks f) {P : Piece → Prop} {p : Measure → Prop}
    (hvalue : ∀ {q ps}, q.IsValue → P q → Flow p true ps →
      r.pass (q.text ++ written ps) = written (f q) ++ r.pass (written ps))
    {b : Bool} {ps : List Piece} (h : Flow p b ps) (hP : ∀ q ∈ ps, P q) :
    r.pass (written ps) = written (ps.flatMap f) := by
  have hstep {q : Piece} {ps : List Piece} (hP : ∀ x ∈ q :: ps, P x)
      (hq : r.pass (q.text ++ written ps) = written (f q) ++ r.pass (written ps))
      (ih : (∀ x ∈ ps, P x) → r.pass (written ps) = written (ps.flatMap f)) :
      r.pass (written (q :: ps)) = written ((q :: ps).flatMap f) := by
    rw [written_cons, hq, ih (List.forall_mem_cons.1 hP).2, List.flatMap_cons, written_append]
  have hmark {q : Piece} (hq : ¬ q.IsValue) (ps : List Piece) :
      r.pass (q.text ++ written ps) = written (f q) ++ r.pass (written ps) := by
    rw [Rule.pass_text hr (neither_of_not_isValue hq), hf q hq, written_singleton]
  induction h with
  | nil => exact Rule.pass_nil _
  | measure m h ih =>
    exact hstep hP (hvalue trivial (List.forall_mem_cons.1 hP).1 h) ih
  | compound c h ih =>
    exact hstep hP (hvalue trivial (List.forall_mem_cons.1 hP).1 h) ih
  | sign minus h ih => exact hstep hP (hmark id _) ih
  | opening h ih => exact hstep hP (hmark id _) ih
  | closing h ih => exact hstep hP (hmark id _) ih
  | operator o tight hd h ih => exact hstep hP (hmark id _) ih

end FiresAtLiterals

/-! ## Mixed fractions -/

/-- The numbers without unit that may divide in a formula: whole numbers and decimals. -/
def Measure.Simple (m : Measure) : Prop := m.suffix = none ∧ m.number.literal.IsDecimal

/-- The whole number and the fraction that make up a mixed fraction. -/
def PlainLiteral.parts? : PlainLiteral → Option (PlainLiteral × PlainLiteral)
  | ⟨.mixed run _ num den, h⟩ => some (⟨.whole run, h.1⟩, ⟨.fraction num den, h.2.2⟩)
  | _ => none

namespace Piece

/-- A mixed fraction as the sum of its parts; other pieces stay. -/
def sumParts : Piece → List Piece
  | measure m =>
    match m.number.parts? with
    | some (whole, part) =>
      [opening, measure whole.measure, operator .add true, measure part.measure, closing]
    | none => [measure m]
  | q => [q]

end Piece

theorem firesAtLiterals_mixed : mixedRule.FiresAtLiterals fun l _ => ¬ l.IsMixed where
  elsewhere h := by
    simp only [mixedRule, mixedSum?, h]
  keeps {cs l rest} h hs := by
    simp only [mixedRule, mixedSum?, h]
    split
    · next h => cases h; exact (hs trivial).elim
    · rfl

section Mixed

variable {p : Measure → Prop} {b : Bool} {ps : List Piece}

theorem PlainLiteral.parts?_eq_none {l : PlainLiteral} (h : ¬ l.literal.IsMixed) :
    l.parts? = none := by
  obtain ⟨l, hl⟩ := l
  cases l with
  | mixed run gap num den => exact (h trivial).elim
  | _ => rfl

theorem written_sumParts {l : PlainLiteral} (h : ¬ l.literal.IsMixed) :
    written (sumParts (.measure l.measure)) = l.literal.text := by
  have hparts : l.measure.number.parts? = none := l.parts?_eq_none h
  rw [sumParts, hparts, written_cons, Piece.text, l.text_measure, written_nil, List.append_nil]

theorem sumMixed_number (l : PlainLiteral) {k : List Char} (hk : Bounded k) :
    sumMixed (l.literal.text ++ k) = written (sumParts (.measure l.measure)) ++ sumMixed k := by
  by_cases hm : l.literal.IsMixed
  · obtain ⟨l, hl⟩ := l
    cases l with
    | mixed run gap num den =>
      have hscan := Literal.scan?_text_append hl.digital hk fun h => nomatch h
      have hfire : mixedRule.fire? ((Literal.mixed run gap num den).text ++ k) =
          some (sumOf run (num ++ '/' :: den), k) := by
        simp only [mixedRule, mixedSum?, hscan]
      refine (Rule.pass_of_fire hfire).trans ?_
      simp [sumParts, PlainLiteral.parts?, PlainLiteral.measure, Measure.text, PlainLiteral.text,
        Literal.text, Piece.text, sumOf, Operator.sign, sumMixed]
    | _ => exact hm.elim
  · rw [written_sumParts hm]
    exact Rule.pass_literal firesAtLiterals_mixed l.plain hk (fun l' h h' => hm (h h'))
      fun _ _ _ _ h => h

theorem keepsMarks_sumParts : KeepsMarks sumParts := by
  intro q hq
  cases q with
  | measure m => exact (hq trivial).elim
  | _ => rfl

/-- **The mixed fractions of a written expression without units become sums.** -/
theorem Flow.sumMixed (h : Flow p b ps) (hu : ∀ q ∈ ps, q.Unitless) :
    sumMixed (written ps) = written (ps.flatMap sumParts) := by
  refine h.pass_pieces firesAtLiterals_mixed keepsMarks_sumParts (fun {q ps} hq hunit h => ?_) hu
  cases q with
  | measure m =>
    obtain ⟨l, _ | s⟩ := m
    · rw [Piece.text, Measure.text_none]
      exact sumMixed_number l h.closes.bounded
    · cases hunit
  | compound c => exact hunit.elim
  | _ => exact hq.elim

theorem StartsDivisor.sumParts {tight : Bool} (hp : Divides p) (h : StartsDivisor p tight ps) :
    StartsDivisor Measure.Simple tight (ps.flatMap sumParts) := by
  rcases h.opening_or hp with ⟨qs, rfl⟩ | ⟨⟨l, hl⟩, qs, rfl, hpl, hf⟩
  · trivial
  · cases l with
    | whole run => exact ⟨⟨rfl, trivial⟩, fun _ _ _ h => nomatch h⟩
    | decimal run decimals => exact ⟨⟨rfl, trivial⟩, h.2⟩
    | fraction num den => exact (hf trivial).elim
    | mixed run gap num den => trivial

/-- With its mixed fractions as sums, a written expression divides by simple numbers. -/
theorem Flow.sumParts (hp : Divides p) (h : Flow p b ps) :
    Flow Measure.Simple b (ps.flatMap Piece.sumParts) := by
  refine h.flatMap keepsMarks_sumParts (fun {q ps} hq h => ?_) fun hd => hd.sumParts hp
  cases q with
  | measure m =>
    rw [Piece.sumParts]
    split
    · exact h.sum _ _
    · exact .measure m h
  | compound c => exact .compound c h
  | _ => exact hq.elim

end Mixed

end Footrule
