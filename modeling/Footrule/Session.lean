import Footrule.Calculation
import Footrule.Keypad

/-!
# Sessions

A session holds the entry that is being written, the outcome shown for it, the settings, and the
history of the successful evaluations, newest first. It changes by actions (`Session.act`). A change
of the settings renews the outcome in advanced mode without a new row in the history; a change of
mode takes the outcome away.
-/

namespace Footrule

/-- The form in which an outcome is shown large. -/
inductive View
  | mixed
  | improper
  | decimal
  deriving DecidableEq, Repr

namespace View

/-- All views, in the order in which they are offered. -/
def all : List View := [mixed, improper, decimal]

/-- The name of a view. -/
def label : View → String
  | mixed => "Mixed"
  | improper => "Improper"
  | decimal => "Decimal"

/-- The view with the given name. -/
def ofLabel? (name : String) : Option View := all.find? (·.label = name)

/-- The form that is shown large. -/
def form : View → Forms → String
  | mixed, f => f.mixed
  | improper, f => f.improper
  | decimal, f => f.decimal

end View

/-- A row of the history: an expression, without blanks around it, and its outcome. -/
structure HistoryRow where
  expression : String
  outcome : Outcome
  deriving DecidableEq, Repr

/-- The state of the calculator between two actions. -/
structure Session where
  entry : String
  outcome : Option Outcome
  view : View
  settings : Settings
  history : List HistoryRow
  /-- Whether the entry field has been asked to take the focus. -/
  wantsFocus : Bool
  deriving DecidableEq, Repr

/-- What can be done in a session. -/
inductive Action
  /-- The entry is replaced. -/
  | setEntry (text : String)
  /-- A text is typed at the end of the entry. -/
  | type (text : String)
  /-- A key writes into the entry. -/
  | insert (key : String)
  /-- The entry and the outcome are cleared. -/
  | clear
  /-- The last character of the entry is deleted. -/
  | deleteLast
  /-- The entry is evaluated, and remembered if it has a value. -/
  | evaluate
  /-- The outcome is renewed. -/
  | recalculate
  | setMode (mode : Mode)
  | setOutputUnit (u : OutputUnit)
  | setPrecision (on : Bool) (denominator : Nat)
  | setView (view : View)
  /-- The row of the history with the given number, counted from the newest, is shown again. -/
  | restore (index : Nat)
  | clearHistory
  /-- Nothing is done but that the entry field takes the focus it was asked to take. -/
  | takeFocus
  deriving DecidableEq, Repr

namespace Session

/-- The session to begin with. -/
def initial : Session := ⟨"", none, .mixed, .initial, [], true⟩

/-- The number of rows that the history keeps. -/
def historyLimit : Nat := 100

/-- Whether the entry is blank. -/
def isBlankEntry (s : Session) : Bool := trim s.entry.toList = []

/-- The outcome of the entry under the settings. -/
def calculated (s : Session) : Outcome := calculate s.settings s.entry

/-- The history with a new row; a row that shows the same as the newest one is not added. -/
def remember (history : List HistoryRow) (row : HistoryRow) : List HistoryRow :=
  let repeated := history.head?.any fun newest =>
    newest.expression = row.expression && newest.outcome.mixed = row.outcome.mixed
  if repeated then history else (row :: history).take historyLimit

/-- The outcome of the entry, as a row of the history. -/
def row (s : Session) : HistoryRow := ⟨String.ofList (trim s.entry.toList), s.calculated⟩

/-- The history after the entry is evaluated: errors and blank entries are not remembered. -/
def historyAfterEvaluation (s : Session) : List HistoryRow :=
  if s.calculated.isError || s.isBlankEntry then s.history else remember s.history s.row

/-- The entry is evaluated. -/
def evaluate (s : Session) : Session :=
  { s with
    history := s.historyAfterEvaluation
    outcome := some s.calculated
    wantsFocus := true }

/-- The outcome is renewed in advanced mode, unless the entry is blank. -/
def recalculate (s : Session) : Session :=
  if s.settings.mode = .advanced && !s.isBlankEntry then { s with outcome := some s.calculated }
  else s

/-- The settings are changed, if they are new, and the outcome is renewed. -/
def setSettings (s : Session) (settings : Settings) : Session :=
  if settings = s.settings then s else recalculate { s with settings }

/-- The mode is changed; a new mode takes the outcome away. -/
def setMode (s : Session) (mode : Mode) : Session :=
  if mode = s.settings.mode then s
  else { s with settings := { s.settings with mode }, outcome := none }

/-- A row of the history is shown again, if there is one of that number. -/
def restore (s : Session) (index : Nat) : Session :=
  match s.history[index]? with
  | some row => { s with entry := row.expression, outcome := some row.outcome, wantsFocus := true }
  | none => s

/-- The effect of an action, beside that the focus asked for before is taken. -/
def effect (s : Session) : Action → Session
  | .setEntry text => { s with entry := text }
  | .type text => { s with entry := s.entry ++ text }
  | .insert key => { s with entry := Keypad.insert s.entry key, wantsFocus := true }
  | .clear => { s with entry := "", outcome := none, wantsFocus := true }
  | .deleteLast => { s with entry := Keypad.deleteLast s.entry, wantsFocus := true }
  | .evaluate => s.evaluate
  | .recalculate => s.recalculate
  | .setMode mode => s.setMode mode
  | .setOutputUnit u => s.setSettings { s.settings with outputUnit := u }
  | .setPrecision on denominator =>
    s.setSettings { s.settings with precisionOn := on, denominator }
  | .setView view => { s with view }
  | .restore index => s.restore index
  | .clearHistory => { s with history := [] }
  | .takeFocus => s

/-- The session after an action. -/
def act (s : Session) (a : Action) : Session := effect { s with wantsFocus := false } a

/-- The session after some actions. -/
def run (s : Session) (as : List Action) : Session := as.foldl act s

@[simp] theorem run_nil (s : Session) : s.run [] = s := rfl

@[simp] theorem run_cons (s : Session) (a : Action) (as : List Action) :
    s.run (a :: as) = (s.act a).run as := rfl

theorem run_append (s : Session) (as bs : List Action) : s.run (as ++ bs) = (s.run as).run bs :=
  List.foldl_append

end Session

end Footrule
