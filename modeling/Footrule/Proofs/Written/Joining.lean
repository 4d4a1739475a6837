import Footrule.Proofs.Written.Fractions
import Footrule.Proofs.Written.Pieces

/-!
# Joining the fractions of a written expression

Joining fractions takes the spaces from some division signs of a written expression and leaves
everything else as it is (`Flow.joins`). A division sign whose spaces go stands between a number and
a divisor that begins with digits and does not go on with decimals.
-/

namespace Footrule

open Formula Piece

/-! ## Divisors among the pieces -/

/-- Every operator has a space on each side. -/
def Loose (ps : List Piece) : Prop := ps.map loosen = ps

theorem Loose.of_cons {q : Piece} {ps : List Piece} (h : Loose (q :: ps)) :
    q.loosen = q ∧ Loose ps :=
  List.cons.inj h

/-- The numbers that may divide carry no unit and are no fractions. -/
def Divides (p : Measure → Prop) : Prop :=
  ∀ m, p m → m.suffix = none ∧ ¬ m.number.literal.IsFraction

section Division

variable {p : Measure → Prop} {ps : List Piece}

theorem PlainLiteral.text_measure (l : PlainLiteral) : l.measure.text = l.literal.text :=
  Measure.text_none l

theorem continueWith?_operator {l : PlainLiteral} (hl : ¬ l.literal.IsFraction)
    (h : Flow p true ps) (dividend gap : List Char) :
    Division.continueWith? dividend gap
        (trimStart (written (.operator .div false :: .measure l.measure :: ps))) =
      l.literal.divisor?.map fun (run, decimals, tail) =>
        (⟨dividend, gap, [' '], run, decimals⟩, tail ++ written ps) := by
  have ht : trimStart (written (.operator .div false :: .measure l.measure :: ps)) =
      '/' :: ([' '] ++ (l.literal.text ++ written ps)) := by
    rw [written_cons, written_cons, Piece.text, l.text_measure]
    exact trimStart_append_of_blank blank_space
  rw [ht, Literal.continueWith?_text l.plain hl h.closes.bounded]

theorem written_operator (o : Operator) (ps : List Piece) :
    written (.operator o false :: ps) = [' '] ++ o.sign :: ([' '] ++ written ps) := rfl

theorem StartsDivisor.opening_or {tight : Bool} (hp : Divides p) (h : StartsDivisor p tight ps) :
    (∃ qs, ps = .opening :: qs) ∨
      ∃ (l : PlainLiteral) (qs : List Piece),
        ps = .measure l.measure :: qs ∧ p l.measure ∧ ¬ l.literal.IsFraction := by
  unfold StartsDivisor at h
  split at h
  · exact .inl ⟨_, rfl⟩
  · next m qs =>
    obtain ⟨hm, hf⟩ := hp m h.1
    obtain ⟨l, _ | s⟩ := m
    · exact .inr ⟨l, qs, rfl, h.1, hf⟩
    · cases hm
  · exact h.elim

theorem Flow.of_measure {m : Measure} (h : Flow p false (.measure m :: ps)) : Flow p true ps := by
  cases h with
  | measure _ h => exact h

/-- A number whose divisor comes next among the pieces. -/
structure DivisorNext (p : Measure → Prop) (ps : List Piece) (run decimals tail : List Char)
    (l : PlainLiteral) (qs : List Piece) : Prop where
  eq : ps = .operator .div false :: .measure l.measure :: qs
  form : p l.measure
  not_fraction : ¬ l.literal.IsFraction
  flow : Flow p true qs
  parts : l.literal.divisor? = some (run, decimals, tail)

/-- After a value there is no division, or the next number gives a divisor to one. -/
theorem Flow.noDivision_or (hp : Divides p) (h : Flow p true ps) (hl : Loose ps) :
    NoDivision (written ps) ∨
      ∃ run decimals tail l qs, DivisorNext p ps run decimals tail l qs := by
  cases h with
  | nil => exact .inl (noDivision_of_head fun c hc => (Option.not_mem_none c hc).elim)
  | closing h => exact .inl (noDivision_cons (by decide) (by decide) _)
  | @operator o tight ps hd h =>
    obtain rfl : false = tight := by simpa [loosen] using hl.of_cons.1
    by_cases ho : o = .div
    · subst ho
      rcases (hd rfl).opening_or hp with ⟨qs, rfl⟩ | ⟨l, qs, rfl, hl, hf⟩
      · have ht : trimStart ([' '] ++ written (.opening :: qs)) = '(' :: written qs := rfl
        rw [written_operator]
        refine .inl (noDivision_gap blank_space (noDivision_slash ?_))
        rw [ht]
        exact Literal.noDigitFirst_cons (by decide)
      · cases hs : l.literal.divisor? with
        | none =>
          refine .inl fun dividend gap => ?_
          rw [continueWith?_operator hf h.of_measure, hs]
          rfl
        | some parts => exact .inr ⟨_, _, _, l, qs, rfl, hl, hf, h.of_measure, hs⟩
    · rw [written_operator]
      refine .inl (noDivision_gap blank_space (noDivision_cons o.isBlank_sign ?_ _))
      cases o <;> first | decide | exact (ho rfl).elim

namespace DivisorNext

variable {run decimals tail : List Char} {l : PlainLiteral} {qs : List Piece}

theorem takeWhile_isBlank (h : DivisorNext p ps run decimals tail l qs) :
    (written ps).takeWhile isBlank = [' '] := by
  rw [h.eq, written_operator]
  exact takeWhile_append_of_head blank_space fun c hc => by rw [← Option.some.inj hc]; decide

/-- The division that a number before the pieces begins. -/
theorem continueWith? (h : DivisorNext p ps run decimals tail l qs) (dividend gap : List Char) :
    Division.continueWith? dividend gap (trimStart (written ps)) =
      some (⟨dividend, gap, [' '], run, decimals⟩, tail ++ written qs) := by
  rw [h.eq, continueWith?_operator h.not_fraction h.flow, h.parts]
  rfl

theorem length_lt (h : DivisorNext p ps run decimals tail l qs) : qs.length < ps.length := by
  rw [h.eq]
  simp only [List.length_cons]
  omega

theorem loose (h : DivisorNext p ps run decimals tail l qs) (hl : Loose ps) : Loose qs := by
  rw [h.eq] at hl
  exact hl.of_cons.2.of_cons.2

end DivisorNext

/-- A divisor is no dividend, or it is a whole number and the next number divides it. -/
theorem Flow.scan?_divisor (hp : Divides p) (hd : StartsDivisor p false ps) (h : Flow p false ps)
    (hl : Loose ps) :
    Division.scan? (written ps) = none ∨
      ∃ (l : PlainLiteral) (run : List Char) (qs : List Piece),
        ps = .measure l.measure :: qs ∧ l.literal = .whole run ∧
          ∃ run' decimals tail l' rs, DivisorNext p qs run' decimals tail l' rs ∧
            Division.scan? (written ps) =
              some (⟨run, [' '], [' '], run', decimals⟩, tail ++ written rs) := by
  rcases hd.opening_or hp with ⟨qs, rfl⟩ | ⟨l, qs, rfl, hpl, hf⟩
  · exact .inl (Division.scan?_eq_none (Literal.noDigitFirst_cons (by decide)))
  · have hq : Flow p true qs := h.of_measure
    have hw : written (.measure l.measure :: qs) = l.literal.text ++ written qs := by
      rw [written_cons, Piece.text, l.text_measure]
    rw [hw]
    rcases Literal.divisionScan?_text l.plain hf hq.closes.bounded with hno | ⟨run, hrun, hscan⟩
    · exact .inl hno
    · rcases hq.noDivision_or hp hl.of_cons.2 with hno | ⟨run', decimals, tail, l', rs, hnext⟩
      · exact .inl (hscan.trans (hno _ _))
      · refine .inr ⟨l, run, qs, rfl, hrun, run', decimals, tail, l', rs, hnext, ?_⟩
        rw [hscan, hnext.takeWhile_isBlank, hnext.continueWith?]

end Division

/-! ## Joining -/

/-- Joining fractions only takes the spaces from some of the operators. -/
def Joins (p : Measure → Prop) (b : Bool) (ps : List Piece) : Prop :=
  ∃ qs, qs.map loosen = ps ∧ Flow p b qs ∧ joinFractions (written ps) = written qs

section Joins

variable {p : Measure → Prop} {b b' : Bool} {q : Piece} {ps : List Piece}

/-- A piece that is kept. -/
theorem Joins.cons
    (hj : joinFractions (q.text ++ written ps) = q.text ++ joinFractions (written ps))
    (hq : q.loosen = q) (hf : ∀ {qs}, qs.map loosen = ps → Flow p b' qs → Flow p b (q :: qs))
    (h : Joins p b' ps) : Joins p b (q :: ps) := by
  obtain ⟨qs, hqs, hflow, hw⟩ := h
  refine ⟨q :: qs, ?_, hf hqs hflow, ?_⟩
  · rw [List.map_cons, hq, hqs]
  · rw [written_cons, hj, hw, written_cons]

theorem StartsDivisor.of_loosen {tight : Bool} {qs : List Piece}
    (h : StartsDivisor p tight (qs.map loosen)) : StartsDivisor p tight qs := by
  cases qs with
  | nil => exact h
  | cons q qs => cases q <;> exact h

theorem joinFractions_suffixed (l : PlainLiteral) (s : Suffix) (k : List Char) :
    joinFractions ((⟨l, some s⟩ : Measure).text ++ k) =
      (⟨l, some s⟩ : Measure).text ++ joinFractions k := by
  rw [Measure.text, Option.map_some, Option.getD_some, List.append_assoc, List.append_assoc]
  exact joinFractions_unit l.plain s k

/-- The division sign before a divisor, the divisor and all that follows, joined. -/
theorem DivisorNext.joined {run decimals tail : List Char} {l : PlainLiteral} {qs : List Piece}
    (h : DivisorNext p ps run decimals tail l qs) (hj : Joins p true qs) {tight : Bool}
    (ht : tight = true → decimals = []) :
    ∃ rs, rs.map loosen = ps ∧ Flow p true rs ∧
      (Piece.operator .div tight).text ++
        (run ++ (decimals ++ joinFractions (tail ++ written qs))) = written rs := by
  obtain ⟨rs, hrs, hflow, hw⟩ := hj
  refine ⟨.operator .div tight :: .measure l.measure :: rs, ?_, ?_, ?_⟩
  · rw [h.eq, ← hrs]
    rfl
  · refine .operator _ _ (fun _ => ⟨h.form, fun htight => ?_⟩) (.measure _ hflow)
    obtain rfl := ht htight
    exact Literal.not_decimal_of_divisor? h.parts
  · have htail : joinFractions (tail ++ written qs) = tail ++ written rs := by
      rw [Literal.joinFractions_tail l.plain h.parts h.flow.closes.bounded, hw]
    have htext : (Piece.measure l.measure).text = run ++ (decimals ++ tail) := by
      rw [Piece.text, l.text_measure, Literal.text_of_divisor? h.parts]
    rw [written_cons, written_cons, htext, htail]
    simp only [List.append_assoc]

/-- A decimal before its divisor. -/
theorem joins_divided {l l' : PlainLiteral} {run decimals tail : List Char} {qs : List Piece}
    (hdec : l.literal.IsDecimal) (h : Flow p true ps)
    (hn : DivisorNext p ps run decimals tail l' qs) (hj : Joins p true qs) :
    Joins p false (.measure ⟨l, none⟩ :: ps) := by
  have hjoin := joinFractions_divided l.plain hdec h.closes.bounded hn.takeWhile_isBlank
    fun dividend => hn.continueWith? dividend [' ']
  obtain ⟨rs, hrs, hflow, hw⟩ := hn.joined hj fun hd : decide (decimals = []) = true =>
    of_decide_eq_true hd
  refine ⟨.measure ⟨l, none⟩ :: rs, ?_, .measure _ hflow, ?_⟩
  · rw [List.map_cons, hrs]
    rfl
  · rw [written_cons, written_cons, Piece.text, Measure.text_none, hjoin, ← hw, Piece.text]
    by_cases hd : decimals = []
    · simp [hd, Operator.sign]
    · simp [hd, Operator.sign]

/-- A number, with its unit or with the number that divides it. -/
theorem joins_measure (hp : Divides p) {m : Measure} (h : Flow p true ps) (hl : Loose ps)
    (ih : ∀ {b qs}, qs.length ≤ ps.length → Flow p b qs → Loose qs → Joins p b qs) :
    Joins p false (.measure m :: ps) := by
  have hkeep (hj : joinFractions (m.text ++ written ps) = m.text ++ joinFractions (written ps)) :
      Joins p false (.measure m :: ps) :=
    (ih (Nat.le_refl _) h hl).cons hj rfl fun _ hf => .measure m hf
  obtain ⟨l, _ | s⟩ := m
  · rw [Measure.text_none] at hkeep
    rcases h.noDivision_or hp hl with hno | ⟨run, decimals, tail, l', qs, hn⟩
    · exact hkeep (joinFractions_literal l.plain h.closes.bounded fun _ => hno)
    · by_cases hdec : l.literal.IsDecimal
      · exact joins_divided hdec h hn (ih (Nat.le_of_lt hn.length_lt) hn.flow (hn.loose hl))
      · exact hkeep (joinFractions_literal l.plain h.closes.bounded fun hd => (hdec hd).elim)
  · exact hkeep (joinFractions_suffixed l s _)

theorem joinFractions_compound (c : Compound) (k : List Char) :
    joinFractions (c.text ++ k) = c.text ++ joinFractions k := by
  have happ (k : List Char) : c.text ++ k = c.first.text ++ (c.gap ++ (c.second.text ++ k)) := by
    simp [Compound.text]
  rw [happ, happ, Compound.first, Compound.second, joinFractions_suffixed,
    joinFractions_blank c.blank, joinFractions_suffixed]

/-- A division sign with its spaces; a division right after it is left as it is written. -/
theorem joins_division (hp : Divides p) (hd : StartsDivisor p false ps) (h : Flow p false ps)
    (hl : Loose ps)
    (ih : ∀ {b qs}, qs.length ≤ ps.length → Flow p b qs → Loose qs → Joins p b qs) :
    Joins p true (.operator .div false :: ps) := by
  have htrim : trimStart ([' '] ++ written ps) = written ps := by
    rw [trimStart_append_of_blank blank_space, trimStart_eq_self h.isBlank_head]
  have htake : ([' '] ++ written ps).takeWhile isBlank = [' '] :=
    takeWhile_append_of_head blank_space h.isBlank_head
  have hfire : joinedFraction? ('/' :: ([' '] ++ written ps)) =
      (Division.scan? (written ps)).map fun found =>
        ('/' :: [' '] ++ found.1.text, found.2) := by
    rw [joinedFraction?, if_pos rfl, htrim, htake]
  have hfirst : joinFractions (written (.operator .div false :: ps)) =
      [' '] ++ joinFractions ('/' :: ([' '] ++ written ps)) := by
    rw [written_operator]
    exact joinFractions_blank blank_space _
  rcases h.scan?_divisor hp hd hl with hno |
    ⟨l, run, qs, rfl, hrun, run', dec, tail, l', rs, hn, hscan⟩
  · rw [hno] at hfire
    have hj : joinFractions ('/' :: ([' '] ++ written ps)) =
        '/' :: ([' '] ++ joinFractions (written ps)) := by
      rw [joinFractions, Rule.pass_of_not_fire hfire]
      exact congrArg _ (joinFractions_blank blank_space _)
    refine (ih (Nat.le_refl _) h hl).cons (hfirst.trans ?_) rfl fun hqs hf =>
      .operator .div false (fun _ => ?_) hf
    · rw [hj]
      rfl
    · rw [← hqs] at hd
      exact hd.of_loosen
  · rw [hscan] at hfire
    have hlen : rs.length ≤ (Piece.measure l.measure :: qs).length := by
      rw [List.length_cons]
      exact Nat.le_succ_of_le (Nat.le_of_lt hn.length_lt)
    obtain ⟨ts, hts, hflow, hw⟩ := hn.joined (ih hlen hn.flow (hn.loose hl.of_cons.2))
      fun h : false = true => Bool.noConfusion h
    have hj : joinFractions ('/' :: ([' '] ++ written (.measure l.measure :: qs))) =
        '/' :: [' '] ++ (run ++ [' '] ++ '/' :: ([' '] ++ run' ++ dec)) ++
          joinFractions (tail ++ written rs) := by
      rw [joinFractions, Rule.pass_of_fire hfire]
      rfl
    refine ⟨.operator .div false :: .measure l.measure :: ts, ?_, ?_, ?_⟩
    · rw [List.map_cons, List.map_cons, hts]
      rfl
    · exact .operator _ _ (fun _ => hd) (.measure _ hflow)
    · have hrt : l.literal.text = run := by rw [hrun, Literal.text]
      rw [hfirst, hj, written_cons, written_cons, ← hw]
      simp [Piece.text, PlainLiteral.text_measure, hrt, Operator.sign]

/-- **Joining fractions takes the spaces from some of the division signs, and nothing else.** -/
theorem Flow.joins (hp : Divides p) (h : Flow p b ps) (hl : Loose ps) : Joins p b ps := by
  induction hn : ps.length using Nat.strongRecOn generalizing b ps with
  | ind n ih =>
    subst hn
    cases h with
    | nil => exact ⟨[], rfl, .nil, Rule.pass_nil _⟩
    | @measure m ps h =>
      exact joins_measure hp h hl.of_cons.2 fun hlen hf hl =>
        ih _ (Nat.lt_succ_of_le hlen) hf hl rfl
    | @compound c ps h =>
      exact (ih _ (Nat.lt_succ_self _) h hl.of_cons.2 rfl).cons (joinFractions_compound c _) rfl
        fun _ hf => .compound c hf
    | @sign minus ps h =>
      refine (ih _ (Nat.lt_succ_self _) h hl.of_cons.2 rfl).cons (joinFractions_kept ?_ _) rfl
        fun _ hf => .sign minus hf
      cases minus <;> decide
    | @opening ps h =>
      exact (ih _ (Nat.lt_succ_self _) h hl.of_cons.2 rfl).cons
        (joinFractions_kept (by decide) _) rfl fun _ hf => .opening hf
    | @closing ps h =>
      exact (ih _ (Nat.lt_succ_self _) h hl.of_cons.2 rfl).cons
        (joinFractions_kept (by decide) _) rfl fun _ hf => .closing hf
    | @operator o tight ps hd h =>
      obtain rfl : false = tight := by simpa [loosen] using hl.of_cons.1
      by_cases ho : o = .div
      · subst ho
        exact joins_division hp (hd rfl) h hl.of_cons.2 fun hlen hf hl =>
          ih _ (Nat.lt_succ_of_le hlen) hf hl rfl
      · refine (ih _ (Nat.lt_succ_self _) h hl.of_cons.2 rfl).cons (joinFractions_kept ?_ _) rfl
          fun _ hf => .operator o false (fun hdiv => (ho hdiv).elim) hf
        cases o <;> first | decide | exact (ho rfl).elim

end Joins

end Footrule
