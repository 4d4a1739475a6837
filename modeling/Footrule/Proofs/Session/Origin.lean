import Footrule.Proofs.Session.Coherence
import Footrule.Proofs.Session.History

/-!
# Where the outcome shown comes from

The first step of an outcome names the mode in which it was computed (`Outcome.ComputedIn`). An
action takes the outcome away, computes it in the mode it leads to, keeps it together with the mode,
or restores that of a row of the history (`Session.renews_act_or_restores`). A row keeps the outcome of its
evaluation and nothing of the settings, so a row that is restored after a change of mode shows an
outcome of the other mode; there is no other way to come to one (`Session.computedIn_run_iff`).
-/

namespace Footrule

/-! ## The mode of an outcome -/

namespace Outcome

/-- The step with which a calculation in a mode begins. -/
def startNote (mode : Mode) : String := "--- Start Calculation: Mode=" ++ mode.label ++ " ---"

/-- The first step of an outcome names the mode. -/
def ComputedIn (o : Outcome) (mode : Mode) : Prop := o.trace.head? = some (startNote mode)

instance (o : Outcome) (mode : Mode) : Decidable (o.ComputedIn mode) :=
  inferInstanceAs (Decidable (o.trace.head? = some (startNote mode)))

theorem startNote_injective {mode mode' : Mode} (h : startNote mode = startNote mode') :
    mode = mode' := by
  revert h
  cases mode <;> cases mode' <;> decide

theorem ComputedIn.unique {o : Outcome} {mode mode' : Mode} (h : o.ComputedIn mode)
    (h' : o.ComputedIn mode') : mode = mode' :=
  startNote_injective (Option.some.inj (h.symm.trans h'))

end Outcome

open Outcome

theorem computedIn_calculate (s : Settings) (text : String) :
    (calculate s text).ComputedIn s.mode := by
  simp only [calculate]
  split
  · rfl
  · split <;> rfl

namespace Session

/-! ## One action -/

/-- The outcome is gone, or computed in the new session, or kept together with the mode. -/
def Renews (s s' : Session) : Prop :=
  s'.outcome = none ∨ s'.outcome = some s'.calculated ∨
    (s'.outcome = s.outcome ∧ s'.settings.mode = s.settings.mode)

theorem renews_of_kept {s s' : Session} (ho : s'.outcome = s.outcome)
    (hmode : s'.settings.mode = s.settings.mode) : s.Renews s' := .inr (.inr ⟨ho, hmode⟩)

theorem renews_recalculate (s : Session) : s.Renews s.recalculate := by
  rcases s.recalculate_cases with h | ⟨h, -⟩
  · rw [h]
    exact .inr (.inl rfl)
  · rw [h]
    exact renews_of_kept rfl rfl

theorem renews_setSettings (s : Session) {settings : Settings}
    (hmode : settings.mode = s.settings.mode) : s.Renews (s.setSettings settings) := by
  rcases s.setSettings_cases settings with h | h | ⟨h, -⟩
  · rw [h]
    exact renews_of_kept rfl rfl
  · rw [h]
    exact .inr (.inl rfl)
  · rw [h]
    exact renews_of_kept rfl hmode

theorem renews_setMode (s : Session) (mode : Mode) : s.Renews (s.setMode mode) := by
  rw [setMode]
  split
  · exact renews_of_kept rfl rfl
  · exact .inl rfl

/-- Nothing but a row that is restored brings in an outcome of another session. -/
theorem renews_act_or_restores (s : Session) (a : Action) :
    s.Renews (s.act a) ∨ ∃ index row, a = .restore index ∧ s.history[index]? = some row ∧
      (s.act a).outcome = some row.outcome ∧ (s.act a).settings = s.settings := by
  cases a with
  | clear => exact .inl (.inl rfl)
  | evaluate => exact .inl (.inr (.inl rfl))
  | recalculate => exact .inl (renews_recalculate { s with wantsFocus := false })
  | setMode mode => exact .inl (renews_setMode { s with wantsFocus := false } mode)
  | setOutputUnit u =>
    exact .inl (renews_setSettings { s with wantsFocus := false } rfl)
  | setPrecision on denominator =>
    exact .inl (renews_setSettings { s with wantsFocus := false } rfl)
  | restore index =>
    simp only [act, effect, restore]
    split
    · next row h => exact .inr ⟨index, row, rfl, h, rfl, rfl⟩
    · exact .inl (renews_of_kept rfl rfl)
  | setEntry | type | insert | deleteLast | setView | clearHistory | takeFocus =>
    exact .inl (renews_of_kept rfl rfl)

/-! ## Rows of the history -/

/-- A row of the history is that of an evaluation. -/
theorem Remembers.exists_eq_row {s : Session} {es : List Evaluation} (h : s.Remembers es)
    {row : HistoryRow} (hrow : row ∈ s.history) : ∃ e ∈ es, row = e.row := by
  rw [h] at hrow
  have hmem := mem_withoutRepeats (List.mem_reverse.1 (List.mem_of_mem_take hrow))
  obtain ⟨e, he, rfl⟩ := List.mem_map.1 hmem
  exact ⟨e, (List.mem_filter.1 he).1, rfl⟩

/--
The outcome shown after some actions was restored from a row of the history whose evaluation was in
the given mode, and it has been shown ever since.
-/
def RestoredFrom (as : List Action) (o : Outcome) (mode : Mode) : Prop :=
  ∃ before index after e, as = before ++ .restore index :: after ∧
    e ∈ initial.evaluations [] before ∧ e.settings.mode = mode ∧
    (initial.run before).history[index]? = some e.row ∧
    ∀ rest, rest <+: after → (initial.run (before ++ .restore index :: rest)).outcome = some o

theorem run_concat (s : Session) (as : List Action) (a : Action) :
    s.run (as ++ [a]) = (s.run as).act a := by
  rw [run_append]
  rfl

theorem RestoredFrom.concat {as : List Action} {o : Outcome} {mode : Mode}
    (h : RestoredFrom as o mode) {a : Action} (ho : (initial.run (as ++ [a])).outcome = some o) :
    RestoredFrom (as ++ [a]) o mode := by
  obtain ⟨before, index, after, e, rfl, he, hmode, hrow, hkept⟩ := h
  rw [List.append_assoc, List.cons_append] at ho ⊢
  refine ⟨before, index, after ++ [a], e, rfl, he, hmode, hrow, fun rest hrest => ?_⟩
  rcases List.prefix_concat_iff.1 hrest with rfl | hrest
  · exact ho
  · exact hkept rest hrest

theorem RestoredFrom.computedIn {as : List Action} {o : Outcome} {mode : Mode}
    (h : RestoredFrom as o mode) : o.ComputedIn mode := by
  obtain ⟨before, index, after, e, -, -, rfl, hrow, hkept⟩ := h
  have ho := hkept [] List.nil_prefix
  rw [run_concat] at ho
  simp only [act, effect, restore, hrow] at ho
  rw [← Option.some.inj ho]
  exact computedIn_calculate e.settings e.entry

theorem computedIn_or_restoredFrom (as : List Action) {o : Outcome}
    (h : (initial.run as).outcome = some o) :
    o.ComputedIn (initial.run as).settings.mode ∨ ∃ mode, RestoredFrom as o mode := by
  induction as using List.reverseRecOn with
  | nil => cases h
  | append_singleton as a ih =>
    rw [run_concat] at h ⊢
    rcases renews_act_or_restores (initial.run as) a with
      (hnone | hcomputed | ⟨hkept, hmode⟩) | ⟨index, row, rfl, hrow, hrestored, -⟩
    · rw [hnone] at h
      cases h
    · rw [hcomputed] at h
      rw [← Option.some.inj h]
      exact .inl (computedIn_calculate _ _)
    · rw [hmode]
      refine (ih (hkept ▸ h)).imp_right fun ⟨mode, hfrom⟩ => ⟨mode, hfrom.concat ?_⟩
      rwa [run_concat]
    · have hinitial : initial.Remembers [] := rfl
      obtain ⟨e, he, rfl⟩ := (hinitial.run as).exists_eq_row (List.mem_of_getElem? hrow)
      refine .inr ⟨e.settings.mode, as, index, [], e, rfl, he, rfl, hrow, fun rest hrest => ?_⟩
      rw [List.prefix_nil.1 hrest, run_concat]
      exact h

/--
**The outcome shown belongs to the current mode, unless it was restored from a row of the other
mode.** After any actions, an outcome that is shown was computed in the mode of the settings, except
exactly if it was restored from a row of the history that was recorded in another mode and has been
shown ever since; it was then computed in the mode in which the row was recorded.
-/
theorem computedIn_run_iff (as : List Action) {o : Outcome}
    (h : (initial.run as).outcome = some o) :
    (o.ComputedIn (initial.run as).settings.mode ↔
      ¬ ∃ mode, mode ≠ (initial.run as).settings.mode ∧ RestoredFrom as o mode) ∧
    ∀ mode, RestoredFrom as o mode → o.ComputedIn mode := by
  refine ⟨⟨fun hcur ⟨mode, hne, hfrom⟩ => hne (hfrom.computedIn.unique hcur), fun hnone => ?_⟩,
    fun mode hfrom => hfrom.computedIn⟩
  rcases computedIn_or_restoredFrom as h with hcur | ⟨mode, hfrom⟩
  · exact hcur
  · by_cases hmode : mode = (initial.run as).settings.mode
    · exact hmode ▸ hfrom.computedIn
    · exact absurd ⟨mode, hmode, hfrom⟩ hnone

/-- A length is evaluated in advanced mode, and its row is restored in basic mode. -/
def restoreInBasic : List Action :=
  [.setMode .advanced, .setEntry "1ft 6in", .evaluate, .setMode .basic, .restore 0]

theorem outcome_restoreInBasic : (initial.run restoreInBasic).outcome =
    some (calculate ⟨.advanced, .feetInches, true, 32⟩ "1ft 6in") := by
  decide +kernel

theorem computedIn_run_iff_restoreInBasic :
    ∃ o mode, (initial.run restoreInBasic).outcome = some o ∧
      mode ≠ (initial.run restoreInBasic).settings.mode ∧ RestoredFrom restoreInBasic o mode := by
  have hiff := (computedIn_run_iff restoreInBasic outcome_restoreInBasic).1
  have hother : ¬ (calculate ⟨.advanced, .feetInches, true, 32⟩ "1ft 6in").ComputedIn
      (initial.run restoreInBasic).settings.mode := by
    decide +kernel
  obtain ⟨mode, hmode, hfrom⟩ := Classical.not_not.1 fun hnone => hother (hiff.2 hnone)
  exact ⟨_, mode, outcome_restoreInBasic, hmode, hfrom⟩

/-- Not every outcome that is shown was computed in the mode of the settings. -/
theorem exists_outcome_of_other_mode :
    ∃ o, (initial.run restoreInBasic).outcome = some o ∧
      ¬ o.ComputedIn (initial.run restoreInBasic).settings.mode :=
  ⟨_, outcome_restoreInBasic, by decide +kernel⟩

end Session

end Footrule
