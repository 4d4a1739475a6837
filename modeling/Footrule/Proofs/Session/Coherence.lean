import Footrule.Proofs.Shown.Unitless
import Footrule.Screen

/-!
# The outcome shown and the settings

A session is coherent when the outcome it shows, if any, is that of the entry under the settings
(`Session.Coherent`). A change of the settings renews the outcome (`Session.setSettings_cases`) but
in two cases, and in these the outcome does not depend on what is changed: a blank entry has the
same outcome under all settings of a mode (`calculate_blank`), and in basic mode the output unit
does not count (`calculate_basic`). So a session stays coherent as long as its entry is not edited
and the precision is changed in advanced mode only (`Session.coherent_run`).
-/

namespace Footrule

/-! ## What an outcome does not depend on -/

/-- A blank entry has the same outcome under all settings of a mode. -/
theorem calculate_blank {s s' : Settings} {text : String} (hmode : s.mode = s'.mode)
    (hb : trim text.toList = []) : calculate s text = calculate s' text := by
  simp only [calculate, if_pos hb, Outcome.header, hmode]

/-- In basic mode the output unit does not count. -/
theorem calculate_basic {s : Settings} (hmode : s.mode = .basic) (u : OutputUnit) (text : String) :
    calculate { s with outputUnit := u } text = calculate s text := by
  obtain ⟨mode, v, on, denominator⟩ := s
  obtain rfl : mode = .basic := hmode
  have hshown : showExpression ⟨.basic, u, on, denominator⟩ text.toList =
      showExpression ⟨.basic, v, on, denominator⟩ text.toList := by
    refine Traced.bind_congr_of_ok fun p _ => ?_
    refine Traced.bind_congr_of_ok (x := evaluateExpression .basic u text.toList) fun q hq => ?_
    have hforms : Forms.ofQuantity p u q = Forms.ofQuantity p v q := by
      simp only [Forms.ofQuantity, isLength_of_basic hq]
      rfl
    simp only [hforms]
  simp only [calculate, hshown]
  rfl

namespace Session

/-! ## What a change of the settings does -/

theorem recalculate_cases (s : Session) :
    s.recalculate = { s with outcome := some s.calculated } ∨
      s.recalculate = s ∧ (s.settings.mode = .basic ∨ trim s.entry.toList = []) := by
  rw [recalculate]
  split
  · exact .inl rfl
  · next h =>
    refine .inr ⟨rfl, ?_⟩
    simp only [isBlankEntry, Bool.and_eq_true, decide_eq_true_eq, Bool.not_eq_true',
      decide_eq_false_iff_not] at h
    cases hmode : s.settings.mode with
    | basic => exact .inl rfl
    | advanced => exact .inr (Decidable.not_not.1 fun hb => h ⟨hmode, hb⟩)

/-- New settings renew the outcome, except in basic mode and for a blank entry. -/
theorem setSettings_cases (s : Session) (settings : Settings) :
    s.setSettings settings = s ∨
      s.setSettings settings =
        { s with settings, outcome := some (calculate settings s.entry) } ∨
      s.setSettings settings = { s with settings } ∧
        (settings.mode = .basic ∨ trim s.entry.toList = []) := by
  rw [setSettings]
  split
  · exact .inl rfl
  · exact .inr (recalculate_cases { s with settings })

/-! ## Coherence -/

/-- The outcome shown, if there is one, is that of the entry under the settings. -/
def Coherent (s : Session) : Prop := ∀ o ∈ s.outcome, o = calculate s.settings s.entry

theorem coherent_of_eq_none {s : Session} (h : s.outcome = none) : s.Coherent := by
  intro o ho
  rw [h] at ho
  cases ho

theorem coherent_of_eq_some {s : Session} (h : s.outcome = some s.calculated) : s.Coherent := by
  intro o ho
  rw [h] at ho
  exact (Option.some.inj ho).symm

theorem Coherent.recalculate {s : Session} (h : s.Coherent) : s.recalculate.Coherent := by
  rcases s.recalculate_cases with hs | ⟨hs, -⟩
  · rw [hs]
    exact coherent_of_eq_some rfl
  · rwa [hs]

theorem Coherent.setMode {s : Session} (h : s.Coherent) (mode : Mode) :
    (s.setMode mode).Coherent := by
  rw [Session.setMode]
  split
  · exact h
  · exact coherent_of_eq_none rfl

/-- New settings of the same mode keep a session coherent, if in basic mode they do not count. -/
theorem Coherent.setSettings {s : Session} (h : s.Coherent) {settings : Settings}
    (hmode : settings.mode = s.settings.mode)
    (hbasic : settings.mode = .basic →
      calculate settings s.entry = calculate s.settings s.entry) :
    (s.setSettings settings).Coherent := by
  rcases s.setSettings_cases settings with hs | hs | ⟨hs, hkept⟩
  · rwa [hs]
  · rw [hs]
    exact coherent_of_eq_some rfl
  · rw [hs]
    have hsame : calculate settings s.entry = calculate s.settings s.entry :=
      hkept.elim hbasic fun hb => calculate_blank hmode hb
    exact fun o ho => (h o ho).trans hsame.symm

/-! ## Runs -/

/-- The actions that do not edit the entry. The precision may be changed in advanced mode only. -/
def Allows (s : Session) : Action → Prop
  | .evaluate | .recalculate | .clear | .clearHistory | .takeFocus => True
  | .setMode _ | .setOutputUnit _ | .setView _ => True
  | .setPrecision _ _ => s.settings.mode = .advanced
  | .setEntry _ | .type _ | .insert _ | .deleteLast | .restore _ => False

/-- Every action is allowed when it is done. -/
def AllowsAll (s : Session) : List Action → Prop
  | [] => True
  | a :: as => s.Allows a ∧ (s.act a).AllowsAll as

/-- **An allowed action keeps a session coherent.** -/
theorem Coherent.act {s : Session} (h : s.Coherent) {a : Action} (ha : s.Allows a) :
    (s.act a).Coherent := by
  have hs : Coherent { s with wantsFocus := false } := h
  cases a with
  | evaluate => exact coherent_of_eq_some rfl
  | recalculate => exact hs.recalculate
  | clear => exact coherent_of_eq_none rfl
  | setMode mode => exact hs.setMode mode
  | setOutputUnit u =>
    exact hs.setSettings rfl fun (hbasic : s.settings.mode = .basic) =>
      calculate_basic hbasic u s.entry
  | setPrecision on denominator =>
    have hadvanced : s.settings.mode = .advanced := ha
    exact hs.setSettings rfl fun hbasic => by cases hadvanced.symm.trans hbasic
  | clearHistory | takeFocus | setView view => exact h
  | setEntry | type | insert | deleteLast | restore => exact ha.elim

theorem Coherent.run {s : Session} (h : s.Coherent) {as : List Action} (has : s.AllowsAll as) :
    (s.run as).Coherent := by
  induction as generalizing s with
  | nil => exact h
  | cons a as ih => exact ih (h.act has.1) has.2

/-! ## The screen -/

theorem only_eq_ok_iff {a? : Option Action} {as : List Action} :
    Gesture.only a? = .ok as ↔ ∃ a, a? = some a ∧ as = [a] := by
  cases a? <;> simp [Gesture.only, eq_comm]

/-- No button changes the precision in basic mode. -/
theorem setPrecision_not_mem_pressable {s : Session} (h : s.settings.mode = .basic) (label : String)
    (on : Bool) (denominator : Nat) : (label, .setPrecision on denominator) ∉ s.pressable := by
  simp [pressable, buttons, h]

/-- The precision is changed on the screen in advanced mode only. -/
theorem mode_of_setPrecision_mem {s : Session} {g : Gesture} {as : List Action}
    (h : g.actions s = .ok as) {on : Bool} {denominator : Nat}
    (hmem : .setPrecision on denominator ∈ as) : s.settings.mode = .advanced := by
  cases hmode : s.settings.mode with
  | advanced => rfl
  | basic =>
    exfalso
    cases g with
    | press label =>
      obtain ⟨a, ha, rfl⟩ := only_eq_ok_iff.1 h
      obtain rfl := List.mem_singleton.1 hmem
      obtain ⟨before, after, hlist, -⟩ := List.lookup_eq_some_iff.1 ha
      refine setPrecision_not_mem_pressable hmode label on denominator ?_
      rw [hlist]
      exact List.mem_append_right _ List.mem_cons_self
    | chooseUnit description => simp [Gesture.actions, hmode] at h
    | chooseDenominator label => simp [Gesture.actions, hmode] at h
    | escape =>
      obtain rfl := Except.ok.inj h
      simp at hmem
    | enter focus control =>
      obtain rfl := Except.ok.inj h
      obtain hmem := List.mem_singleton.1 hmem
      split at hmem <;> cases hmem
    | pickRow index =>
      obtain ⟨a, ha, rfl⟩ := only_eq_ok_iff.1 h
      obtain rfl := List.mem_singleton.1 hmem
      obtain ⟨row, -, hrow⟩ := Option.map_eq_some_iff.1 ha
      cases hrow
    | clearHistory =>
      obtain ⟨a, ha, rfl⟩ := only_eq_ok_iff.1 h
      obtain rfl := List.mem_singleton.1 hmem
      split at ha <;> cases ha

/--
**The outcome shown never goes stale through the settings.** From a coherent session, actions that
do not edit the entry lead to a coherent session, whatever their order, if the precision is changed
in advanced mode only; and nothing on the screen of the session they lead to changes the precision
in another mode.
-/
theorem coherent_run {s : Session} (hs : s.Coherent) {as : List Action} (has : s.AllowsAll as) :
    (s.run as).Coherent ∧
    ∀ (g : Gesture) (bs : List Action), g.actions (s.run as) = .ok bs →
      ∀ on denominator, .setPrecision on denominator ∈ bs →
        (s.run as).settings.mode = .advanced :=
  ⟨hs.run has, fun _ _ h _ _ hmem => mode_of_setPrecision_mem h hmem⟩

/-- One third, evaluated in basic mode. -/
def third : Session :=
  { initial with entry := "1/3", outcome := some (calculate .initial "1/3") }

/-- The unit is changed in both modes, and the precision in advanced mode. -/
theorem coherent_run_third :
    third.Coherent ∧
    (third.run [.setOutputUnit (.single .meter), .setView .decimal, .setMode .advanced, .evaluate,
      .setOutputUnit (.single .inch), .setPrecision false 32]).Coherent := by
  have hthird : third.Coherent := coherent_of_eq_some rfl
  refine ⟨hthird, (coherent_run hthird ?_).1⟩
  exact ⟨trivial, trivial, trivial, trivial, trivial, rfl, trivial⟩

end Session

end Footrule
