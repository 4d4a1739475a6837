import Footrule.Session

/-!
# The screen

What the user can do on the screen, and what it shows. Which controls there are depends on the
session: units and the precision are offered in advanced mode only. A gesture on a control is a
sequence of actions (`Gesture.actions`); a gesture on a control that is not there is refused.
-/

namespace Footrule

/-- Why a gesture has no effect. -/
inductive Refusal
  /-- The control is not on the screen. -/
  | noSuchControl
  /-- The control is on the screen, but cannot be used. -/
  | disabled
  deriving DecidableEq, Repr

/-- How the entry field stands to the focus when a key is pressed. -/
inductive FieldFocus
  /-- The field has been asked to take the focus and takes it now. -/
  | asked
  /-- The field has the focus. -/
  | held
  /-- The focus is elsewhere. -/
  | away
  deriving DecidableEq, Repr

/-- What the user can do on the screen. -/
inductive Gesture
  /-- A key or a button is pressed. -/
  | press (label : String)
  | chooseUnit (description : String)
  | chooseDenominator (label : String)
  /-- The escape key, which clears the entry. -/
  | escape
  /-- The enter key, alone or with the control key. -/
  | enter (focus : FieldFocus) (control : Bool)
  /-- The row of the history with the given number, counted from the newest. -/
  | pickRow (index : Nat)
  | clearHistory
  deriving DecidableEq, Repr

namespace Session

/-- The buttons on the screen beside the keys of the keypad, with their actions. -/
def buttons (s : Session) : List (String × Action) :=
  [("C", .clear), ("DEL", .deleteLast), ("=", .evaluate), ("Basic", .setMode .basic),
    ("Advanced", .setMode .advanced)] ++
  View.all.map (fun view => (view.label, .setView view)) ++
  match s.settings.mode with
  | .basic => []
  | .advanced => [("Precision", .setPrecision (!s.settings.precisionOn) s.settings.denominator)]

/-- Everything on the screen that can be pressed, with its action. -/
def pressable (s : Session) : List (String × Action) :=
  (Keypad.keys s.settings.mode).map (fun key => (key, .insert key)) ++ s.buttons

/-- The denominators that are offered, with their labels. -/
def denominatorChoices : List (String × Nat) :=
  Settings.denominators.map fun d => ("1/" ++ toString d, d)

end Session

namespace Gesture

/-- The one action of a control, if the control is there. -/
def only : Option Action → Except Refusal (List Action)
  | some a => .ok [a]
  | none => .error .noSuchControl

/--
The actions of a gesture. Enter evaluates while the field takes the focus, and while it has it only
with the control key, since a plain enter makes the field give up the focus first.
-/
def actions (s : Session) : Gesture → Except Refusal (List Action)
  | press label => only (s.pressable.lookup label)
  | chooseUnit description =>
    match s.settings.mode with
    | .basic => .error .noSuchControl
    | .advanced => only ((OutputUnit.all.find? (·.description = description)).map .setOutputUnit)
  | chooseDenominator label =>
    match s.settings.mode with
    | .basic => .error .noSuchControl
    | .advanced =>
      if s.settings.precisionOn then
        only ((Session.denominatorChoices.lookup label).map (.setPrecision true))
      else .error .disabled
  | escape => .ok [.clear, .takeFocus]
  | enter focus control =>
    .ok [if focus = .asked ∨ (focus = .held ∧ control) then .evaluate else .takeFocus]
  | pickRow index => only ((s.history[index]?).map fun _ => .restore index)
  | clearHistory => only (if s.history = [] then none else some .clearHistory)

end Gesture

namespace Session

/-- The session after a gesture. -/
def perform (s : Session) (g : Gesture) : Except Refusal Session := (g.actions s).map s.run

/-- The lines that show the outcome: an error alone, a value in the view and then in all forms. -/
def shownLines (s : Session) : List String :=
  match s.outcome with
  | none => [Outcome.nothing]
  | some o =>
    if o.isError then [o.decimal]
    else [s.view.form o.toForms, o.mixed ++ "  |  " ++ o.improper ++ "  |  " ++ o.decimal]

/-- The title of the history. -/
def historyTitle (s : Session) : String := "History (" ++ toString s.history.length ++ ")"

/-- The rows of the history, and what clears it. -/
def historyLines (s : Session) : List String :=
  if s.history = [] then [Outcome.nothing]
  else s.history.map (fun row => row.expression ++ " = " ++ row.outcome.mixed) ++ ["Clear history"]

/-- The trace of the outcome. -/
def traceText (s : Session) : String :=
  match s.outcome with
  | none => Outcome.nothing
  | some o => "\n".intercalate o.trace

end Session

end Footrule
