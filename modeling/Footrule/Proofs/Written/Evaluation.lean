import Footrule.Calculation
import Footrule.Proofs.Written.Tokens
import Mathlib.Data.List.Basic

/-!
# Evaluating written expressions

Preparing, cutting and evaluating the text of pieces comes to the evaluation of their tokens: in
basic mode without units (`Flow.result_basic`), and in advanced mode with units, where no mixed
fraction divides (`Flow.result_advanced`).
-/

namespace Footrule

open Formula Piece

/-! ## The ends of a text -/

theorem Suffix.isBlank_getLast (s : Suffix) : ∀ c ∈ s.text.getLast?, isBlank c = false := by
  intro c hc
  rw [text, List.getLast?_append_of_ne_nil _ s.name_ne_nil] at hc
  exact isBlank_eq_false_of_isAlpha (s.isAlpha_name c (List.mem_of_getLast? hc))

theorem Suffix.text_ne_nil (s : Suffix) : s.text ≠ [] :=
  List.append_ne_nil_of_right_ne_nil _ s.name_ne_nil

theorem Measure.isBlank_getLast (m : Measure) : ∀ c ∈ m.text.getLast?, isBlank c = false := by
  obtain ⟨l, _ | s⟩ := m
  · intro c hc
    rw [Measure.text_none] at hc
    exact isBlank_eq_false_of_isDigit (Literal.getLast?_text l.plain.digital c hc)
  · have ht : (⟨l, some s⟩ : Measure).text = l.literal.text ++ s.text := rfl
    rw [ht, List.getLast?_append_of_ne_nil _ s.text_ne_nil]
    exact s.isBlank_getLast

theorem Measure.text_ne_nil (m : Measure) : m.text ≠ [] := by
  obtain ⟨c, cs, hc, -⟩ := Literal.head_text m.number.plain.digital []
  rw [List.append_nil] at hc
  have hl : m.number.text ≠ [] := by
    rw [PlainLiteral.text, hc]
    exact List.cons_ne_nil _ _
  exact List.append_ne_nil_of_left_ne_nil hl _

/-- What is written ends with no blank. -/
theorem Flow.isBlank_getLast {p : Measure → Prop} {b : Bool} {ps : List Piece} (h : Flow p b ps) :
    ∀ c ∈ (written ps).getLast?, isBlank c = false := by
  have hcons {q : Piece} {ps : List Piece} (hq : ∀ c ∈ q.text.getLast?, isBlank c = false)
      (ih : ∀ c ∈ (written ps).getLast?, isBlank c = false) :
      ∀ c ∈ (written (q :: ps)).getLast?, isBlank c = false := by
    intro c hc
    by_cases hne : written ps = []
    · rw [written_cons, hne, List.append_nil] at hc
      exact hq c hc
    · rw [written_cons, List.getLast?_append_of_ne_nil _ hne] at hc
      exact ih c hc
  induction h with
  | nil => exact fun c hc => (Option.not_mem_none c hc).elim
  | measure m h ih => exact hcons m.isBlank_getLast ih
  | compound c h ih =>
    have hlast : ∀ d ∈ c.text.getLast?, isBlank d = false := by
      rw [Compound.text, ← List.append_assoc, List.getLast?_append_of_ne_nil _ c.second.text_ne_nil]
      exact c.second.isBlank_getLast
    exact hcons hlast ih
  | sign minus h ih =>
    refine hcons (fun c hc => ?_) ih
    cases minus <;> cases hc <;> decide
  | opening h ih => exact hcons (fun c hc => by cases hc; decide) ih
  | closing h ih => exact hcons (fun c hc => by cases hc; decide) ih
  | operator o tight hd h ih =>
    rw [written_cons, List.getLast?_append_of_ne_nil _ h.written_ne_nil]
    exact ih

theorem Flow.trim_written {p : Measure → Prop} {ps : List Piece} (h : Flow p false ps) :
    trim (written ps) = written ps :=
  trim_eq_self h.isBlank_head h.isBlank_getLast

/-! ## Typographic signs -/

/-- The characters that stand for arithmetic signs. -/
def typographicSigns : List Char := ['×', '÷', '−']

theorem plainSign_eq_self {c : Char} (h : c ∉ typographicSigns) : plainSign c = c := by
  simp only [typographicSigns, List.mem_cons, List.not_mem_nil, or_false, not_or] at h
  rw [plainSign, if_neg h.1, if_neg h.2.1, if_neg h.2.2]

theorem plainSigns_of_forall {cs : List Char} (h : ∀ c ∈ cs, c ∉ typographicSigns) :
    plainSigns cs = cs := by
  rw [plainSigns, List.map_congr_left fun c hc => plainSign_eq_self (h c hc), List.map_id']

theorem not_typographic_plainSigns (cs : List Char) : ∀ c ∈ plainSigns cs, c ∉ typographicSigns := by
  intro c hc
  obtain ⟨c, -, rfl⟩ := List.mem_map.1 hc
  by_cases h : c ∈ typographicSigns
  · exact (by decide : ∀ c ∈ typographicSigns, plainSign c ∉ typographicSigns) c h
  · rwa [plainSign_eq_self h]

theorem not_mem_of_forall {p : Char → Bool} {cs : List Char} (h : ∀ c ∈ cs, p c = true)
    (hp : ∀ c ∈ typographicSigns, p c = false) : ∀ c ∈ cs, c ∉ typographicSigns := by
  intro c hc hs
  have hfalse := hp c hs
  rw [h c hc] at hfalse
  cases hfalse

theorem PlainRun.not_typographic {run : List Char} (h : ∀ c ∈ run, c.isDigit = true) :
    ∀ c ∈ run, c ∉ typographicSigns := not_mem_of_forall h (by decide)

theorem not_typographic_of_blank {gap : List Char} (h : ∀ c ∈ gap, isBlank c = true) :
    ∀ c ∈ gap, c ∉ typographicSigns := not_mem_of_forall h (by decide)

theorem Literal.not_typographic {l : Literal} (hl : l.Plain) :
    ∀ c ∈ l.text, c ∉ typographicSigns := by
  intro c hc hs
  exact (by decide : ∀ c ∈ typographicSigns, ¬ IsNumeric c) c hs (hl.digital.isNumeric c hc)

theorem Measure.not_typographic (m : Measure) : ∀ c ∈ m.text, c ∉ typographicSigns := by
  obtain ⟨l, _ | s⟩ := m
  · rw [Measure.text_none]
    exact Literal.not_typographic l.plain
  · refine List.forall_mem_append.2 ⟨Literal.not_typographic l.plain, ?_⟩
    exact List.forall_mem_append.2 ⟨not_typographic_of_blank s.blank,
      not_mem_of_forall s.isAlpha_name (by decide)⟩

/-- What is written has no typographic signs. -/
theorem plainSigns_written (ps : List Piece) : plainSigns (written ps) = written ps := by
  have hpiece : ∀ q : Piece, ∀ c ∈ q.text, c ∉ typographicSigns := by
    intro q
    cases q with
    | measure m => exact m.not_typographic
    | compound c =>
      exact List.forall_mem_append.2 ⟨c.first.not_typographic,
        List.forall_mem_append.2 ⟨not_typographic_of_blank c.blank, c.second.not_typographic⟩⟩
    | sign minus => cases minus <;> decide
    | operator o tight => cases o <;> cases tight <;> decide
    | opening => decide
    | closing => decide
  refine plainSigns_of_forall fun c hc => ?_
  obtain ⟨q, -, hq⟩ := List.mem_flatMap.1 hc
  exact hpiece q c hq

/-! ## Preparing and cutting -/

theorem result_prepare (mode : Mode) (cs : List Char) :
    (prepare mode cs).result = .ok (finish mode (joinFractions (plainSigns (trim cs)))) := rfl

theorem Flow.result_prepare {p : Measure → Prop} {ps : List Piece} (h : Flow p false ps)
    (mode : Mode) :
    (prepare mode (written ps)).result = .ok (finish mode (joinFractions (written ps))) := by
  rw [Footrule.result_prepare, h.trim_written, plainSigns_written]

theorem tokens_of_map_loosen {ps qs : List Piece} (h : qs.map loosen = ps) :
    qs.flatMap tokens = ps.flatMap tokens := by
  rw [← h, List.flatMap_map]
  exact congrArg (qs.flatMap ·) (funext fun q => q.tokens_loosen.symm)

theorem Regrouped.append {dividing : Bool} {ts ts' : List Token} (us : List Token)
    (h : ∀ dividing, Regrouped dividing ts ts') : Regrouped dividing (us ++ ts) (us ++ ts') := by
  induction us generalizing dividing with
  | nil => exact h dividing
  | cons t us ih => exact .keep t ih

/-- With its mixed fractions as sums, an expression says the same. -/
theorem regrouped_sumParts (dividing : Bool) {ps : List Piece} (hu : ∀ q ∈ ps, q.Unitless) :
    Regrouped dividing ((ps.flatMap sumParts).flatMap tokens) (ps.flatMap tokens) := by
  induction ps generalizing dividing with
  | nil => exact .nil
  | cons q ps ih =>
    obtain ⟨hunit, htail⟩ := List.forall_mem_cons.1 hu
    have hkeep (hq : q.sumParts = [q]) :
        Regrouped dividing (((q :: ps).flatMap sumParts).flatMap tokens)
          ((q :: ps).flatMap tokens) := by
      rw [List.flatMap_cons, hq, List.singleton_append, List.flatMap_cons, List.flatMap_cons]
      exact .append _ fun dividing => ih dividing htail
    cases q with
    | measure m =>
      obtain ⟨⟨l, hl⟩, _ | s⟩ := m
      · cases l with
        | mixed run gap num den => exact .sum (readsAsSum_mixed hl.digital) (ih false htail)
        | _ => exact hkeep rfl
      · cases hunit
    | _ => exact hkeep rfl

/-! ## Evaluating -/

section Result

variable {p : Measure → Prop} {ps : List Piece}

/-- **In basic mode the text of pieces is evaluated as their tokens.** -/
theorem Flow.result_basic (hp : Divides p) (h : Flow p false ps) (hl : Loose ps)
    (hu : ∀ q ∈ ps, q.Unitless) (u : OutputUnit) :
    (evaluateExpression .basic u (written ps)).result = (evaluate (ps.flatMap tokens)).result := by
  obtain ⟨qs, hqs, hflow, hjoin⟩ := h.joins hp hl
  have hunit : ∀ q ∈ qs, q.Unitless := by
    intro q hq
    rw [← unitless_loosen]
    exact hu _ (hqs ▸ List.mem_map_of_mem hq)
  have hprepared : ∀ r ∈ qs.flatMap Piece.sumParts, r.IsPrepared .basic := by
    intro r hr
    obtain ⟨q, hq, hr⟩ := List.mem_flatMap.1 hr
    exact isPrepared_sumParts (hunit q hq) r hr
  have hformula : finish .basic (joinFractions (written ps)) =
      written (qs.flatMap Piece.sumParts) := by
    rw [hjoin]
    exact hflow.sumMixed hunit
  obtain ⟨ts, htokens, hregroup⟩ := (hflow.sumParts hp).result_tokenize hprepared
  rw [evaluateExpression, Traced.result_bind, h.result_prepare, hformula]
  simp only [Except.bind, Traced.result_bind, Traced.result_note, htokens]
  rw [evaluate_of_regrouped hregroup, evaluate_of_regrouped (regrouped_sumParts false hunit),
    tokens_of_map_loosen hqs]

theorem tokens_sumLengths (qs : List Piece) :
    ((qs.map Piece.closed).flatMap sumLengths).flatMap tokens = qs.flatMap tokens := by
  induction qs with
  | nil => rfl
  | cons q qs ih =>
    have hq : (q.closed.sumLengths).flatMap tokens = q.tokens := by
      cases q with
      | measure m => obtain ⟨l, _ | s⟩ := m <;> rfl
      | _ => rfl
    rw [List.map_cons, List.flatMap_cons, List.flatMap_append, ih, hq, List.flatMap_cons]

/-- **In advanced mode the text of pieces is evaluated as their tokens, and a length converted.** -/
theorem Flow.result_advanced (h : Flow Measure.Simple false ps) (hl : Loose ps) (u : OutputUnit) :
    (evaluateExpression .advanced u (written ps)).result =
      (evaluate (ps.flatMap tokens)).result.bind fun q => (q.convert u).result := by
  obtain ⟨qs, hqs, hflow, hjoin⟩ := h.joins divides_simple hl
  have hclosed : ∀ q ∈ qs.map Piece.closed, q.IsClosed := by
    intro q hq
    obtain ⟨q, -, rfl⟩ := List.mem_map.1 hq
    exact isClosed_closed q
  have hprepared : ∀ r ∈ (qs.map Piece.closed).flatMap Piece.sumLengths,
      r.IsPrepared .advanced := by
    intro r hr
    obtain ⟨q, hq, hr⟩ := List.mem_flatMap.1 hr
    obtain ⟨q, -, rfl⟩ := List.mem_map.1 hq
    exact isPrepared_sumLengths q r hr
  have hformula : finish .advanced (joinFractions (written ps)) =
      written ((qs.map Piece.closed).flatMap Piece.sumLengths) := by
    rw [hjoin, finish, hflow.joinUnits]
    exact hflow.closed.sumFeetInches hclosed
  obtain ⟨ts, htokens, hregroup⟩ := hflow.closed.sumLengths.result_tokenize hprepared
  rw [evaluateExpression, Traced.result_bind, h.result_prepare, hformula]
  simp only [Except.bind, Traced.result_bind, htokens]
  rw [evaluate_of_regrouped hregroup, tokens_sumLengths, tokens_of_map_loosen hqs]

end Result

end Footrule
