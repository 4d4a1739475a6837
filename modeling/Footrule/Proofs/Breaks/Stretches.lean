import Footrule.Proofs.Breaks.Scan
import Footrule.Proofs.Written.Lengths

/-!
# Stretches of an expression

An expression falls into stretches at its signs `+`, `-` and `*` and its parentheses. Each pass of
the preparation goes over the stretches one by one (`Severable`), and the lexemes of the formula are
those of the stretches, with the signs between them (`pieces_append`, `pieces_sign`). Blanks beside
one of these signs or at an end of the expression become strays there, which add no token and are
cut off from every stretch of strays (`outline_gap_sign_gap`). So they change neither the value of
the expression nor the text that is reported as unexpected (`result_of_outline`).
-/

namespace Footrule

open Formula

/-! ## Passes -/

/-- The change of a text goes over its stretches one by one, and keeps the breaks between them. -/
structure Severable (f : List Char → List Char) : Prop where
  nil : f [] = []
  cons {c : Char} (k : List Char) : StartsBreak c → f (c :: k) = c :: f k
  append (cs : List Char) {k : List Char} : Breaks k → f (cs ++ k) = f cs ++ f k

namespace Severable

variable {f g : List Char → List Char} {k : List Char}

theorem gap_append (hf : Severable f) {gap : List Char} (hg : ∀ c ∈ gap, isBlank c = true)
    (k : List Char) : f (gap ++ k) = gap ++ f k := by
  induction gap with
  | nil => rfl
  | cons c gap ih =>
    obtain ⟨hc, hg⟩ := List.forall_mem_cons.1 hg
    rw [List.cons_append, hf.cons _ (.inl hc), ih hg, List.cons_append]

theorem sign (hf : Severable f) {m : Mark} (hm : m ≠ .operator .div) (k : List Char) :
    f (m.sign :: k) = m.sign :: f k := hf.cons k (.inr ⟨m, hm, rfl⟩)

theorem breaks (hf : Severable f) (hk : Breaks k) : Breaks (f k) := by
  rcases hk.cases with hg | ⟨gap, m, post, hg, hm, rfl⟩
  · have hgap := hf.gap_append hg []
    rw [List.append_nil, hf.nil, List.append_nil] at hgap
    rwa [hgap]
  · rw [hf.gap_append hg, hf.sign hm, Breaks.gap_append hg]
    exact .sign hm _

theorem comp (hg : Severable g) (hf : Severable f) : Severable fun cs => g (f cs) where
  nil := by rw [hf.nil, hg.nil]
  cons k hc := by rw [hf.cons k hc, hg.cons _ hc]
  append cs k hk := by rw [hf.append cs hk, hg.append _ (hf.breaks hk)]

end Severable

/-- A pass before a break does not depend on what follows. -/
theorem Rule.pass_append_of_breaks {r : Rule} (hr : StopsAtBreaks r.fire?) (cs : List Char)
    {k : List Char} (hk : Breaks k) : r.pass (cs ++ k) = r.pass cs ++ r.pass k := by
  fun_induction Rule.pass r cs with
  | case1 => rfl
  | case2 c cs out rest h _ ih =>
    have hfire := hr (c :: cs) hk
    rw [h] at hfire
    rw [pass_of_fire hfire, ih, List.append_assoc]
  | case3 c cs h ih =>
    have hfire := hr (c :: cs) hk
    rw [h] at hfire
    exact (pass_of_not_fire hfire).trans (congrArg (c :: ·) ih)

theorem severable_plainSigns : Severable plainSigns where
  nil := rfl
  cons k hc := congrArg (· :: plainSigns k) hc.plainSign
  append cs k _ := plainSigns_append cs k

theorem severable_joinFractions : Severable joinFractions where
  nil := Rule.pass_nil _
  cons k hc := joinFractions_cons hc.neither.1 hc.ne_slash k
  append := Rule.pass_append_of_breaks fractionRule_stops

theorem Rule.FiresAtLiterals.severable {r : Rule} {safe : Literal → List Char → Prop}
    (h : r.FiresAtLiterals safe) (hr : StopsAtBreaks r.fire?) : Severable r.pass where
  nil := r.pass_nil
  cons {c} k hc := by
    have hneither : ∀ d ∈ [c], isDigit d = false ∧ d ≠ '.' := List.forall_mem_singleton.2 hc.neither
    exact Rule.pass_text h hneither k
  append := Rule.pass_append_of_breaks hr

theorem severable_finish : (mode : Mode) → Severable (finish mode)
  | .basic => firesAtLiterals_mixed.severable mixedRule_stops
  | .advanced => (firesAtLiterals_feetInches.severable feetInchesRule_stops).comp
      (firesAtLiterals_unit.severable unitRule_stops)

/-! ## Lexemes -/

theorem Lexeme.unitName_append (mode : Mode) (cs : List Char) {k : List Char} (hk : Breaks k) :
    unitName mode (cs ++ k) = ((unitName mode cs).1, (unitName mode cs).2 ++ k) := by
  cases mode with
  | basic => rfl
  | advanced =>
    have hletter : ∀ c ∈ k.head?, c.isAlpha = false := fun c hc => (hk.noLetterFirst c hc).1
    simp only [unitName, takeWhile_append_of_not_head hletter,
      dropWhile_append_of_not_head hletter]
    split <;> rfl

theorem lexemes_append (mode : Mode) (cs : List Char) {k : List Char} (hk : Breaks k) :
    lexemes mode (cs ++ k) = lexemes mode cs ++ lexemes mode k := by
  fun_induction lexemes mode cs with
  | case1 => rfl
  | case2 c cs l rest h _ ih =>
    have hscan := Literal.scan?_stops (c :: cs) hk
    rw [h] at hscan
    rw [lexemes_of_scan? hscan, Lexeme.unitName_append mode rest hk, ih, List.cons_append]
  | case3 c cs h ih =>
    have hscan := Literal.scan?_stops (c :: cs) hk
    rw [h] at hscan
    exact (lexemes_of_not_scan? hscan).trans (congrArg (Lexeme.single c :: ·) ih)

/-- The lexemes of the formula of a text that is not trimmed. -/
def pieces (mode : Mode) (cs : List Char) : List Lexeme :=
  lexemes mode (finish mode (joinFractions (plainSigns cs)))

section Pieces

variable (mode : Mode)

theorem severable_formula : Severable fun cs => finish mode (joinFractions (plainSigns cs)) :=
  (severable_finish mode).comp (severable_joinFractions.comp severable_plainSigns)

theorem pieces_nil : pieces mode [] = [] := by
  rw [pieces, (severable_formula mode).nil, lexemes_nil]

/-- **The pieces of an expression are those of its stretches.** -/
theorem pieces_append (cs : List Char) {k : List Char} (hk : Breaks k) :
    pieces mode (cs ++ k) = pieces mode cs ++ pieces mode k := by
  rw [pieces, (severable_formula mode).append cs hk,
    lexemes_append mode _ ((severable_formula mode).breaks hk), pieces, pieces]

theorem pieces_gap {gap : List Char} (hg : ∀ c ∈ gap, isBlank c = true) (k : List Char) :
    pieces mode (gap ++ k) = gap.map .stray ++ pieces mode k := by
  rw [pieces, (severable_formula mode).gap_append hg, lexemes_gap hg, pieces]

theorem pieces_blank {gap : List Char} (hg : ∀ c ∈ gap, isBlank c = true) :
    pieces mode gap = gap.map .stray := by
  have hpieces := pieces_gap mode hg []
  rwa [pieces_nil, List.append_nil, List.append_nil] at hpieces

theorem pieces_sign {m : Mark} (hm : m ≠ .operator .div) (k : List Char) :
    pieces mode (m.sign :: k) = .mark m :: pieces mode k := by
  rw [pieces, (severable_formula mode).sign hm, lexemes_sign, pieces]

end Pieces

/-! ## Strays -/

/-- The tokens of some lexemes, and the stretches of strays between them without blanks around. -/
def outline (ls : List Lexeme) : List Token × List (List Char) :=
  (tokensOf false ls, (gaps ls).map trim)

section Outline

variable {gap gap' : List Char}

theorem tokensOf_strays_append (gap : List Char) (ls : List Lexeme) (afterDiv : Bool) :
    tokensOf afterDiv (gap.map .stray ++ ls) = tokensOf afterDiv ls := by
  induction gap with
  | nil => rfl
  | cons c gap ih => exact ih

theorem tokensOf_append_strays (ls : List Lexeme) (gap : List Char) (afterDiv : Bool) :
    tokensOf afterDiv (ls ++ gap.map .stray) = tokensOf afterDiv ls := by
  induction ls generalizing afterDiv with
  | nil =>
    have hstrays := tokensOf_strays_append gap [] afterDiv
    rwa [List.append_nil] at hstrays
  | cons x ls ih =>
    cases x with
    | number l name => exact congrArg (numberTokens afterDiv l name ++ ·) (ih false)
    | mark m => exact congrArg (.mark m :: ·) (ih _)
    | stray c => exact ih afterDiv

theorem tokensOf_mark (ls : List Lexeme) (m : Mark) (ls' : List Lexeme) (afterDiv : Bool) :
    tokensOf afterDiv (ls ++ .mark m :: ls') =
      tokensOf afterDiv ls ++ .mark m :: tokensOf (m = .operator .div) ls' := by
  induction ls generalizing afterDiv with
  | nil => rfl
  | cons x ls ih =>
    cases x with
    | number l name => simp only [List.cons_append, tokensOf, ih, List.append_assoc]
    | mark m' => simp only [List.cons_append, tokensOf, ih]
    | stray c => exact ih afterDiv

/-- A mark divides the strays before it from those after it. -/
theorem gaps_mark (ls : List Lexeme) (m : Mark) (ls' : List Lexeme) :
    gaps (ls ++ .mark m :: ls') = gaps ls ++ gaps ls' := by
  induction ls with
  | nil => rfl
  | cons x ls ih =>
    cases x with
    | stray c =>
      obtain ⟨first, others, h⟩ := List.exists_cons_of_ne_nil (gaps_ne_nil ls)
      rw [List.cons_append, gaps, ih, gaps, h]
      rfl
    | _ => exact congrArg ([] :: ·) ih

/-- Strays at the beginning are added to the first stretch. -/
theorem exists_gaps_strays_append (gap : List Char) (ls : List Lexeme) :
    ∃ first others, gaps ls = first :: others ∧
      gaps (gap.map .stray ++ ls) = (gap ++ first) :: others := by
  obtain ⟨first, others, h⟩ := List.exists_cons_of_ne_nil (gaps_ne_nil ls)
  refine ⟨first, others, h, ?_⟩
  induction gap with
  | nil => exact h
  | cons c gap ih =>
    rw [List.map_cons, List.cons_append, gaps, ih]
    rfl

/-- Strays at the end are added to the last stretch. -/
theorem exists_gaps_append_strays (ls : List Lexeme) (gap : List Char) :
    ∃ others last, gaps ls = others ++ [last] ∧
      gaps (ls ++ gap.map .stray) = others ++ [last ++ gap] := by
  induction ls with
  | nil =>
    obtain ⟨first, others, hnil, hgap⟩ := exists_gaps_strays_append gap []
    cases hnil
    rw [List.append_nil, List.append_nil] at hgap
    exact ⟨[], [], rfl, hgap⟩
  | cons x ls ih =>
    obtain ⟨others, last, hls, happ⟩ := ih
    cases x with
    | stray c =>
      rw [List.cons_append, gaps, gaps, hls, happ]
      cases others with
      | nil => exact ⟨[], c :: last, rfl, rfl⟩
      | cons first others => exact ⟨(c :: first) :: others, last, rfl, rfl⟩
    | _ => exact ⟨[] :: others, last, congrArg ([] :: ·) hls, congrArg ([] :: ·) happ⟩

theorem outline_strays_append (hg : ∀ c ∈ gap, isBlank c = true) (ls : List Lexeme) :
    outline (gap.map .stray ++ ls) = outline ls := by
  obtain ⟨first, others, hls, happ⟩ := exists_gaps_strays_append gap ls
  rw [outline, tokensOf_strays_append, happ, List.map_cons, trim_gap_append hg, ← List.map_cons,
    ← hls, outline]

theorem outline_append_strays (ls : List Lexeme) (hg : ∀ c ∈ gap, isBlank c = true) :
    outline (ls ++ gap.map .stray) = outline ls := by
  obtain ⟨others, last, hls, happ⟩ := exists_gaps_append_strays ls gap
  rw [outline, tokensOf_append_strays, happ, List.map_append, List.map_singleton,
    trim_append_gap hg, ← List.map_singleton, ← List.map_append, ← hls, outline]

/-- About a sign, the outline is composed of the outlines before and after it. -/
theorem outline_sign {m : Mark} (hm : m ≠ .operator .div) (ls ls' : List Lexeme) :
    outline (ls ++ .mark m :: ls') =
      ((outline ls).1 ++ .mark m :: (outline ls').1, (outline ls).2 ++ (outline ls').2) := by
  rw [outline, tokensOf_mark, gaps_mark, List.map_append, decide_eq_false hm, outline, outline]

/-- **Blanks beside one of the signs do not show in the outline.** -/
theorem outline_gap_sign_gap (mode : Mode) (pre : List Char) (hg : ∀ c ∈ gap, isBlank c = true)
    {m : Mark} (hm : m ≠ .operator .div) (hg' : ∀ c ∈ gap', isBlank c = true) (post : List Char) :
    outline (pieces mode (pre ++ (gap ++ m.sign :: (gap' ++ post)))) =
      outline (pieces mode (pre ++ m.sign :: post)) := by
  have hspaced : Breaks (gap ++ m.sign :: (gap' ++ post)) := (Breaks.gap_append hg).2 (.sign hm _)
  rw [pieces_append mode pre hspaced, pieces_gap mode hg, pieces_sign mode hm, pieces_gap mode hg',
    ← List.append_assoc, outline_sign hm, outline_append_strays _ hg, outline_strays_append hg',
    pieces_append mode pre (.sign hm post), pieces_sign mode hm, outline_sign hm]

/-- Blanks at the ends of an expression do not show either. -/
theorem outline_trim (mode : Mode) (cs : List Char) :
    outline (pieces mode (trim cs)) = outline (pieces mode cs) := by
  obtain ⟨gap, gap', hg, hg', hcs⟩ := exists_eq_gap_trim_gap cs
  have hbreak : Breaks gap' := by
    have happ := (Breaks.gap_append (k := []) hg').2 .nil
    rwa [List.append_nil] at happ
  conv => rhs; rw [hcs]
  rw [pieces_gap mode hg, outline_strays_append hg, pieces_append mode _ hbreak,
    pieces_blank mode hg', outline_append_strays _ hg']

end Outline

/-! ## Values and errors -/

/-- What is read in some lexemes, or what is reported as unexpected, depends on the outline only. -/
theorem result_tokenize (mode : Mode) (formula : List Char) :
    (tokenize mode formula).result =
      match (outline (lexemes mode formula)).2.find? (· ≠ []) with
      | some stretch => .error (.unexpected (String.ofList stretch))
      | none => .ok (outline (lexemes mode formula)).1 := by
  have houtline : (outline (lexemes mode formula)).2.find? (· ≠ []) =
      firstUnexpected? (lexemes mode formula) := rfl
  rw [houtline]
  cases h : firstUnexpected? (lexemes mode formula) with
  | none => simp [tokenize, h, outline, Except.map]
  | some stretch => simp [tokenize, h, Except.bind]

/-- **Expressions with one outline have the same value, or fail with the same error.** -/
theorem result_of_outline {mode : Mode} {cs cs' : List Char}
    (h : outline (pieces mode cs) = outline (pieces mode cs')) (u : OutputUnit) :
    (evaluateExpression mode u cs).result = (evaluateExpression mode u cs').result := by
  rw [← outline_trim, ← outline_trim mode cs'] at h
  have htokens := result_tokenize mode (finish mode (joinFractions (plainSigns (trim cs))))
  rw [← pieces, h, pieces, ← result_tokenize] at htokens
  cases mode with
  | basic =>
    simp only [evaluateExpression, Traced.result_bind, Traced.result_note, result_prepare,
      Except.bind, htokens]
  | advanced =>
    simp only [evaluateExpression, Traced.result_bind, result_prepare, Except.bind, htokens]

end Footrule
