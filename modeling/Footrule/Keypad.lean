import Footrule.Mode
import Footrule.Text.Blank

/-!
# The keypad

The keys that write into the entry. Most keys append their label. The keys `+`, `-` and `*` set
their sign off by spaces; `/` does not, so that `3/8` stays a fraction.
-/

namespace Footrule.Keypad

/-- The keys that are always there. -/
def commonKeys : List String :=
  ["7", "8", "9", "/", "(", "4", "5", "6", "*", ")", "1", "2", "3", "-", " ", "0", ".", "+"]

/-- The keys for units. -/
def unitKeys : List String := ["ft", "in", "m", "cm", "mm"]

/-- The keys of a mode. -/
def keys : Mode → List String
  | .basic => commonKeys
  | .advanced => commonKeys ++ unitKeys

/-- The keys whose sign is set off by spaces. -/
def spacedKeys : List String := ["+", "-", "*"]

/-- A text without the spaces at its end. -/
def dropSpaces (cs : List Char) : List Char := dropTrailing (· = ' ') cs

/-- The entry after a key. -/
def insert (entry key : String) : String :=
  if key ∈ spacedKeys then
    let before := dropSpaces entry.toList
    String.ofList (if before = [] then [] else before ++ [' ']) ++ key ++ " "
  else entry ++ key

/-- The entry without its last character and the spaces before it. -/
def deleteLast (entry : String) : String := String.ofList (dropSpaces entry.toList.dropLast)

end Footrule.Keypad
