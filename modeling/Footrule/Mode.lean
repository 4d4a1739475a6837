import Footrule.CalcError
import Footrule.Text.Blank

/-!
# Modes

In basic mode an expression is plain arithmetic; in advanced mode its numbers may carry units.
-/

namespace Footrule

/-- The two modes of calculation. -/
inductive Mode
  | basic
  | advanced
  deriving DecidableEq, Repr

namespace Mode

/-- The name of a mode. -/
def label : Mode → String
  | basic => "basic"
  | advanced => "advanced"

/-- The mode with the given name; blanks around it do not count. -/
def ofLabel (name : String) : Except CalcError Mode :=
  let bare := String.ofList (trim name.toList)
  if bare = basic.label then .ok basic
  else if bare = advanced.label then .ok advanced
  else .error (.unknownMode bare)

end Mode

end Footrule
