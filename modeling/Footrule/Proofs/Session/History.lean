import Footrule.Proofs.Shown.FixedPoint
import Footrule.Session
import Mathlib.Data.List.Induction
import Mathlib.Data.List.Chain

/-!
# The history of a session

The history is determined by the evaluations since it was last cleared (`Session.evaluations`): it
has a row for each that came to a value, newest first, without those that show the same as the row
before, and of these the newest hundred (`Session.Remembers`). Every action keeps this
(`Session.Remembers.act`). So the rows are free of errors and of repeats, and each shows what its
expression comes to under the settings of its evaluation (`history_run`).
-/

namespace Footrule

/-! ## Expressions without the blanks around them -/

/-- The blanks around an expression do not count for what it shows. -/
theorem toForms_calculate_trim (s : Settings) (text : String) :
    (calculate s (String.ofList (trim text.toList))).toForms = (calculate s text).toForms := by
  have hshown : showExpression s (trim text.toList) = showExpression s text.toList := by
    simp only [showExpression, evaluateExpression, Formula.prepare, trim_trim]
  by_cases hb : trim text.toList = []
  · have hnil : trim [] = [] := rfl
    simp [calculate, hb, hnil]
  · simp only [calculate, String.toList_ofList, trim_trim, if_neg hb, hshown]
    split <;> rfl

/-! ## Rows without repeats -/

namespace HistoryRow

/-- What counts when rows are compared. -/
def key (row : HistoryRow) : String × String := (row.expression, row.outcome.mixed)

/-- A row shows the same as the row before it, if there is one. -/
def Repeats (previous : Option HistoryRow) (row : HistoryRow) : Prop :=
  previous.map key = some row.key

instance (previous : Option HistoryRow) (row : HistoryRow) : Decidable (Repeats previous row) :=
  inferInstanceAs (Decidable (previous.map key = some row.key))

/-- The rows without those that show the same as the row before. -/
def withoutRepeats (previous : Option HistoryRow) : List HistoryRow → List HistoryRow
  | [] => []
  | row :: rows =>
    if Repeats previous row then withoutRepeats (some row) rows
    else row :: withoutRepeats (some row) rows

theorem withoutRepeats_concat (previous : Option HistoryRow) (rows : List HistoryRow)
    (row : HistoryRow) :
    withoutRepeats previous (rows ++ [row]) = withoutRepeats previous rows ++
      if Repeats (rows.getLast?.or previous) row then [] else [row] := by
  induction rows generalizing previous with
  | nil =>
    simp only [List.nil_append, withoutRepeats, List.getLast?_nil, Option.none_or]
    rfl
  | cons first rows ih =>
    have hlast : (first :: rows).getLast?.or previous = rows.getLast?.or (some first) := by
      cases rows with
      | nil => rfl
      | cons r rs => simp [List.getLast?_cons]
    rw [List.cons_append, withoutRepeats, withoutRepeats, ih, hlast]
    split <;> simp

/-- The last row and the last of those that are kept show the same. -/
theorem key_getLast?_withoutRepeats (rows : List HistoryRow) :
    (withoutRepeats none rows).getLast?.map key = rows.getLast?.map key := by
  induction rows using List.reverseRecOn with
  | nil => rfl
  | append_singleton rows row ih =>
    rw [withoutRepeats_concat, Option.or_none]
    split
    · next h => rw [List.append_nil, ih, h, List.getLast?_concat, Option.map_some]
    · rw [List.getLast?_concat, List.getLast?_concat]

theorem isChain_withoutRepeats (rows : List HistoryRow) :
    (withoutRepeats none rows).IsChain fun row next => row.key ≠ next.key := by
  induction rows using List.reverseRecOn with
  | nil => exact .nil
  | append_singleton rows row ih =>
    rw [withoutRepeats_concat, Option.or_none]
    split
    · rwa [List.append_nil]
    · next h =>
      refine List.isChain_append.2
        ⟨ih, List.isChain_singleton row, fun last hlast next hnext hk => ?_⟩
      obtain rfl := Option.some.inj hnext
      refine h ?_
      rw [Repeats, ← key_getLast?_withoutRepeats, Option.mem_def.1 hlast, Option.map_some, hk]

end HistoryRow

open HistoryRow

/-! ## Evaluations -/

/-- An evaluation: the entry, and the settings in force. -/
structure Evaluation where
  settings : Settings
  entry : String

namespace Evaluation

/-- The outcome of an evaluation as a row of the history. -/
def row (e : Evaluation) : HistoryRow :=
  ⟨String.ofList (trim e.entry.toList), calculate e.settings e.entry⟩

/-- The entry is not blank, and it comes to a value. -/
def Succeeds (e : Evaluation) : Prop :=
  trim e.entry.toList ≠ [] ∧ (calculate e.settings e.entry).isError = false

instance (e : Evaluation) : Decidable e.Succeeds :=
  inferInstanceAs (Decidable (trim e.entry.toList ≠ [] ∧ _ = false))

end Evaluation

namespace Session

/-- The evaluations since the history was last cleared, given those before an action. -/
def evaluationsAfter (s : Session) (past : List Evaluation) : Action → List Evaluation
  | .evaluate => past ++ [⟨s.settings, s.entry⟩]
  | .clearHistory => []
  | _ => past

/-- The evaluations since the history was last cleared, given those before some actions. -/
def evaluations (s : Session) (past : List Evaluation) : List Action → List Evaluation
  | [] => past
  | a :: as => (s.act a).evaluations (s.evaluationsAfter past a) as

/-- The rows of the evaluations that came to a value, without repeats. -/
def rowsOf (es : List Evaluation) : List HistoryRow :=
  withoutRepeats none ((es.filter fun e => e.Succeeds).map Evaluation.row)

/-- The history is made of the given evaluations. -/
def Remembers (s : Session) (es : List Evaluation) : Prop :=
  s.history = (rowsOf es).reverse.take 100

theorem rowsOf_concat (es : List Evaluation) (e : Evaluation) :
    rowsOf (es ++ [e]) = rowsOf es ++
      if e.Succeeds ∧ (rowsOf es).getLast?.map key ≠ some e.row.key then [e.row] else [] := by
  by_cases he : e.Succeeds
  · have hrows : rowsOf (es ++ [e]) = rowsOf es ++
        if Repeats ((es.filter fun e => e.Succeeds).map Evaluation.row).getLast? e.row then []
        else [e.row] := by
      have hone : List.filter (fun e => decide e.Succeeds) [e] = [e] := by simpa using he
      rw [rowsOf, List.filter_append, hone, List.map_append, List.map_singleton,
        withoutRepeats_concat, Option.or_none, rowsOf]
    have hlast : Repeats ((es.filter fun e => e.Succeeds).map Evaluation.row).getLast? e.row ↔
        (rowsOf es).getLast?.map key = some e.row.key := by
      rw [Repeats, rowsOf, key_getLast?_withoutRepeats]
    rw [hrows]
    by_cases hk : (rowsOf es).getLast?.map key = some e.row.key
    · rw [if_pos (hlast.2 hk), if_neg fun h => h.2 hk]
    · rw [if_neg fun h => hk (hlast.1 h), if_pos ⟨he, hk⟩]
  · have hnone : List.filter (fun e => decide e.Succeeds) [e] = [] := by simpa using he
    rw [if_neg fun h => he h.1, List.append_nil, rowsOf, List.filter_append, hnone,
      List.append_nil, rowsOf]

theorem remember_eq (history : List HistoryRow) (row : HistoryRow) :
    remember history row =
      if history.head?.map key = some row.key then history else (row :: history).take 100 := by
  have hrepeated : (history.head?.any fun newest =>
      newest.expression = row.expression && newest.outcome.mixed = row.outcome.mixed) = true ↔
        history.head?.map key = some row.key := by
    cases history.head? with
    | none => simp
    | some newest => simp [key]
  rw [remember]
  simp only [historyLimit]
  by_cases h : history.head?.map key = some row.key
  · rw [if_pos (hrepeated.2 h), if_pos h]
  · rw [if_neg fun hr => h (hrepeated.1 hr), if_neg h]

/-- An evaluation is remembered. -/
theorem Remembers.evaluate {s : Session} {es : List Evaluation} (h : s.Remembers es) :
    s.historyAfterEvaluation = (rowsOf (es ++ [⟨s.settings, s.entry⟩])).reverse.take 100 := by
  have hrow : s.row = (⟨s.settings, s.entry⟩ : Evaluation).row := rfl
  have hsucceeds : (s.calculated.isError || s.isBlankEntry) = true ↔
      ¬ (⟨s.settings, s.entry⟩ : Evaluation).Succeeds := by
    simp only [Evaluation.Succeeds, calculated, isBlankEntry, Bool.or_eq_true, decide_eq_true_eq]
    grind
  have hhead : s.history.head? = (rowsOf es).getLast? := by
    rw [h, List.head?_take, if_neg (by decide), List.head?_reverse]
  rw [historyAfterEvaluation, rowsOf_concat]
  by_cases he : (⟨s.settings, s.entry⟩ : Evaluation).Succeeds
  · rw [if_neg fun hb => hsucceeds.1 hb he, remember_eq, hhead, ← hrow]
    by_cases hk : (rowsOf es).getLast?.map key = some s.row.key
    · rw [if_pos hk, if_neg fun hn => hn.2 hk, List.append_nil, h]
    · rw [if_neg hk, if_pos ⟨he, hk⟩, List.reverse_concat, h, List.take_succ_cons,
        List.take_succ_cons, List.take_take]
      rfl
  · rw [if_pos (hsucceeds.2 he), if_neg fun hn => he hn.1, List.append_nil, h]

theorem history_recalculate (s : Session) : s.recalculate.history = s.history := by
  rw [recalculate]
  split <;> rfl

theorem history_setSettings (s : Session) (settings : Settings) :
    (s.setSettings settings).history = s.history := by
  rw [setSettings]
  split
  · rfl
  · exact history_recalculate _

theorem history_setMode (s : Session) (mode : Mode) : (s.setMode mode).history = s.history := by
  rw [setMode]
  split <;> rfl

theorem history_restore (s : Session) (index : Nat) : (s.restore index).history = s.history := by
  rw [restore]
  split <;> rfl

/-- **Every action keeps that the history is made of the evaluations.** -/
theorem Remembers.act {s : Session} {es : List Evaluation} (h : s.Remembers es) (a : Action) :
    (s.act a).Remembers (s.evaluationsAfter es a) := by
  cases a with
  | evaluate => exact Remembers.evaluate (s := { s with wantsFocus := false }) h
  | clearHistory => rfl
  | recalculate => exact (history_recalculate _).trans h
  | setMode mode => exact (history_setMode _ mode).trans h
  | setOutputUnit u => exact (history_setSettings _ _).trans h
  | setPrecision on denominator => exact (history_setSettings _ _).trans h
  | restore index => exact (history_restore _ index).trans h
  | setEntry text => exact h
  | type text => exact h
  | insert key => exact h
  | clear => exact h
  | deleteLast => exact h
  | setView view => exact h
  | takeFocus => exact h

theorem Remembers.run {s : Session} {es : List Evaluation} (h : s.Remembers es) (as : List Action) :
    (s.run as).Remembers (s.evaluations es as) := by
  induction as generalizing s es with
  | nil => exact h
  | cons a as ih => exact ih (h.act a)

theorem mem_withoutRepeats {previous : Option HistoryRow} {rows : List HistoryRow}
    {row : HistoryRow} (h : row ∈ withoutRepeats previous rows) : row ∈ rows := by
  induction rows generalizing previous with
  | nil => exact h
  | cons first rows ih =>
    rw [withoutRepeats] at h
    split at h
    · exact List.mem_cons_of_mem _ (ih h)
    · exact (List.mem_cons.1 h).elim (fun he => he ▸ List.mem_cons_self)
        fun h => List.mem_cons_of_mem _ (ih h)

/--
**The history is exactly the recent successful evaluations.** After any actions it has the rows of
the evaluations since it was last cleared that came to a value, without repeats, the newest hundred
of them first to last. So it has at most a hundred rows, no two rows side by side show the same, and
every row has an expression that is not blank, is no error, and shows what its expression comes to
under the settings in force at its evaluation.
-/
theorem history_run (as : List Action) :
    let es := (initial.evaluations [] as).filter fun e => e.Succeeds
    let history := (initial.run as).history
    history = (withoutRepeats none (es.map Evaluation.row)).reverse.take 100 ∧
    history.length ≤ 100 ∧
    history.IsChain (fun row next => row.key ≠ next.key) ∧
    ∀ row ∈ history, trim row.expression.toList ≠ [] ∧ row.outcome.isError = false ∧
      ∃ e ∈ es, row = e.row ∧
        row.outcome.toForms = (calculate e.settings row.expression).toForms := by
  have hinitial : initial.Remembers [] := rfl
  have hhistory := hinitial.run as
  refine ⟨hhistory, ?_, ?_, fun row hrow => ?_⟩
  · rw [hhistory]
    exact List.length_take_le _ _
  · rw [hhistory]
    have hchain := isChain_withoutRepeats
      (((initial.evaluations [] as).filter fun e => e.Succeeds).map Evaluation.row)
    refine List.IsChain.take (List.isChain_reverse.2 ?_) _
    exact hchain.imp fun row next hne => hne.symm
  · rw [hhistory] at hrow
    have hmem := mem_withoutRepeats (List.mem_reverse.1 (List.mem_of_mem_take hrow))
    obtain ⟨e, he, rfl⟩ := List.mem_map.1 hmem
    obtain ⟨hblank, hvalue⟩ := of_decide_eq_true (List.mem_filter.1 he).2
    refine ⟨?_, hvalue, e, he, rfl, (toForms_calculate_trim e.settings e.entry).symm⟩
    rwa [Evaluation.row, String.toList_ofList, trim_trim]

/-- An entry that is evaluated twice, one that fails, and one with blanks around it. -/
def halfTwice : List Action :=
  [.setEntry "1/2", .evaluate, .evaluate, .setEntry "1/2 +", .evaluate, .setEntry " 3/4 ",
    .evaluate]

/--
Of three evaluations that come to a value one shows the same as the one before it, so there are two
rows, newest first, and each shows what its expression comes to.
-/
theorem history_run_halfTwice :
    let es := (initial.evaluations [] halfTwice).filter fun e => e.Succeeds
    let history := (initial.run halfTwice).history
    es.length = 3 ∧ history.map key = [("3/4", "3/4"), ("1/2", "1/2")] ∧
      history.IsChain (fun row next => row.key ≠ next.key) ∧
      ∀ row ∈ history, ∃ e ∈ es,
        row.outcome.toForms = (calculate e.settings row.expression).toForms := by
  obtain ⟨hrows, -, hchain, hshown⟩ := history_run halfTwice
  refine ⟨by decide +kernel, ?_, hchain, fun row hrow => ?_⟩
  · rw [hrows]
    decide +kernel
  · obtain ⟨-, -, e, he, -, hforms⟩ := hshown row hrow
    exact ⟨e, he, hforms⟩

end Session

end Footrule
