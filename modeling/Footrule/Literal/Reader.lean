import Footrule.Display.Fraction
import Footrule.Literal
import Footrule.Traced

/-!
# Reading numbers

The value of a number as it is written. A text is read as a mixed fraction, as a fraction or as a
decimal; the empty text and a lone point are zero. Only the digits `0` to `9` have a value, and the
blanks around a number do not count. What is read is noted.
-/

namespace Footrule

/-- The value of a run of digits `0` to `9`, blanks around it aside. -/
def readNatural (cs : List Char) : Except CalcError Nat :=
  let digits := trim cs
  if digits ≠ [] ∧ digits.all Char.isDigit then .ok (Nat.ofDigitChars 10 digits 0)
  else .error .invalidNumber

/-- The fraction of two numbers, if it has a value. -/
def readRatio (num den : Nat) : Except CalcError Rat :=
  if den = 0 then .error .divisionByZero else .ok (num / den)

/-- What stands before the first occurrence of a sign, and what stands after it. -/
def splitAtSign? (sign : Char) (cs : List Char) : Option (List Char × List Char) :=
  match cs.dropWhile (· ≠ sign) with
  | [] => none
  | _ :: after => some (cs.takeWhile (· ≠ sign), after)

/-- The value of a whole number or a decimal: of its digits, in units of the last decimal place. -/
def readDecimal (cs : List Char) : Except CalcError Rat :=
  let (whole, decimals) := (splitAtSign? '.' cs).getD (cs, [])
  let digits := whole ++ decimals
  if digits ≠ [] ∧ digits.all Char.isDigit then
    .ok ((Nat.ofDigitChars 10 digits 0 : Rat) / (Nat.pow 10 decimals.length : Nat))
  else .error .invalidNumber

/-- The value of a mixed fraction, by its three runs of digits. -/
def readMixed (whole num den : List Char) : Traced Rat := do
  let w ← readNatural whole
  let n ← readNatural num
  let d ← readNatural den
  .note ("Found Mixed Fraction: " ++ toString w ++ " " ++ toString n ++ "/" ++ toString d)
  let part ← readRatio n d
  let value := w + part
  .note ("Value: " ++ Display.plain value)
  return value

/-- The value of a fraction, by the texts on the two sides of its slash. -/
def readFraction (num den : List Char) : Traced Rat := do
  .note ("Found Fraction: " ++ String.ofList (num ++ '/' :: den))
  let n ← readNatural num
  let d ← readNatural den
  readRatio n d

/-- The value of a text without a slash. -/
def readPlain (cs : List Char) : Traced Rat :=
  if cs = [] ∨ cs = ['.'] then return 0
  else do
    let value ← readDecimal cs
    .note ("Found Decimal/Int: " ++ Display.plain value)
    return value

/-- The value of a text without blanks around it. -/
def readTrimmed (cs : List Char) : Traced Rat :=
  if 1 < cs.count '.' then .fail .invalidNumber
  else match Literal.scan? cs with
    | some (.mixed whole _ num den, []) => readMixed whole num den
    | _ =>
      match splitAtSign? '/' cs with
      | some (num, den) => readFraction num den
      | none => readPlain cs

/-- The value of a number as it is written. -/
def readNumber (text : List Char) : Traced Rat := do
  let cs := trim text
  .note ("Parsing Number: '" ++ String.ofList cs ++ "'")
  readTrimmed cs

end Footrule
