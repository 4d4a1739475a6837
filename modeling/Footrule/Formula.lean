import Footrule.Formula.Division
import Footrule.LengthUnit
import Footrule.Literal
import Footrule.Mode
import Footrule.Text.Replacement
import Footrule.Text.Word
import Footrule.Traced

/-!
# Formulas

An expression is prepared before it is cut into tokens. Typographic signs become arithmetic ones,
and divisions of numbers become fractions. In advanced mode units are then joined to their numbers
and a length in feet and inches is put in parentheses as a sum; in basic mode a mixed fraction is
put in parentheses as a sum. Each of these is one pass of a replacement rule (`Rule.pass`).
-/

namespace Footrule.Formula

/-- The arithmetic sign for a typographic one; other characters stand for themselves. -/
def plainSign (c : Char) : Char :=
  if c = '×' then '*' else if c = '÷' then '/' else if c = '−' then '-' else c

/-- A text with arithmetic signs for the typographic ones. -/
def plainSigns (cs : List Char) : List Char := cs.map plainSign

/-- A sum in parentheses. -/
def sumOf (left right : List Char) : List Char := '(' :: left ++ '+' :: right ++ [')']

/-! ## Fractions -/

/--
The output at the start of a text where fractions are joined. After a slash a division stays as it
is written: its first number is already a divisor, so that the divisions have to be done in turn.
-/
def joinedFraction? : List Char → Option (List Char × List Char)
  | [] => none
  | c :: cs =>
    if c = '/' then
      (Division.scan? (trimStart cs)).map fun (d, rest) =>
        (c :: cs.takeWhile isBlank ++ d.text, rest)
    else (Division.scan? (c :: cs)).map fun (d, rest) => (d.joined, rest)

theorem length_trimStart_le (cs : List Char) : (trimStart cs).length ≤ cs.length :=
  (List.dropWhile_sublist _).length_le

/-- Divisions of numbers are written as fractions. -/
def fractionRule : Rule where
  fire? := joinedFraction?
  shrinks {cs out rest} h := by
    cases cs with
    | nil => cases h
    | cons c cs =>
      simp only [joinedFraction?] at h
      split at h <;> obtain ⟨⟨d, r⟩, hd, he⟩ := Option.map_eq_some_iff.1 h <;>
        obtain ⟨-, rfl⟩ := Prod.mk.inj he
      · have := Division.length_lt_of_scan? hd
        have := length_trimStart_le cs
        simp only [List.length_cons]
        omega
      · exact Division.length_lt_of_scan? hd

/-- A text with fractions for the divisions of numbers. -/
def joinFractions (cs : List Char) : List Char := fractionRule.pass cs

/-! ## Units -/

/-- A literal, blanks and letters, written without the blanks. -/
def joinedUnit? (cs : List Char) : Option (List Char × List Char) :=
  match Literal.scan? cs with
  | none => none
  | some (l, rest) =>
    let letters := (trimStart rest).takeWhile Char.isAlpha
    if rest.takeWhile isBlank = [] ∨ letters = [] then none
    else some (l.text ++ letters, (trimStart rest).dropWhile Char.isAlpha)

/-- The blanks between a number and its unit are dropped. -/
def unitRule : Rule where
  fire? := joinedUnit?
  shrinks {cs out rest} h := by
    unfold joinedUnit? at h
    split at h
    · cases h
    · next l r hs =>
      simp only [Option.ite_none_left_eq_some] at h
      obtain ⟨-, rfl⟩ := Prod.mk.inj (Option.some.inj h.2)
      have := Literal.length_lt_of_scan? hs
      have := length_trimStart_le r
      have := (List.dropWhile_sublist Char.isAlpha (l := trimStart r)).length_le
      omega

/-- A text with the units joined to their numbers. -/
def joinUnits (cs : List Char) : List Char := unitRule.pass cs

/-! ## Feet and inches -/

/-- A literal and directly after it a name of the unit: their text, and what follows it. -/
def measureAt? (u : LengthUnit) (cs : List Char) : Option (List Char × List Char) :=
  (Literal.scan? cs).bind fun (l, rest) =>
    (firstWordAt? u.aliases rest).map fun (name, rest) => (l.text ++ name, rest)

/-- A length in feet and then one in inches, written as a sum in parentheses. -/
def feetInchesSum? (cs : List Char) : Option (List Char × List Char) :=
  (measureAt? .foot cs).bind fun (feet, rest) =>
    (measureAt? .inch (trimStart rest)).map fun (inches, rest) => (sumOf feet inches, rest)

theorem length_lt_of_measureAt? {u : LengthUnit} {cs out rest : List Char}
    (h : measureAt? u cs = some (out, rest)) : rest.length < cs.length := by
  obtain ⟨⟨l, r⟩, hl, hw⟩ := Option.bind_eq_some_iff.1 h
  obtain ⟨⟨name, r'⟩, hn, he⟩ := Option.map_eq_some_iff.1 hw
  obtain ⟨-, rfl⟩ := Prod.mk.inj he
  have hl := Literal.length_lt_of_scan? hl
  rw [append_of_firstWordAt? hn, List.length_append] at hl
  omega

/-- Feet followed by inches are a sum. -/
def feetInchesRule : Rule where
  fire? := feetInchesSum?
  shrinks {cs out rest} h := by
    obtain ⟨⟨feet, r⟩, hf, hr⟩ := Option.bind_eq_some_iff.1 h
    obtain ⟨⟨inches, r'⟩, hi, he⟩ := Option.map_eq_some_iff.1 hr
    obtain ⟨-, rfl⟩ := Prod.mk.inj he
    have := length_lt_of_measureAt? hf
    have := length_lt_of_measureAt? hi
    have := length_trimStart_le r
    omega

/-- A text with sums for the lengths in feet and inches. -/
def sumFeetInches (cs : List Char) : List Char := feetInchesRule.pass cs

/-! ## Mixed fractions -/

/-- A mixed fraction, written as a sum in parentheses. -/
def mixedSum? (cs : List Char) : Option (List Char × List Char) :=
  match Literal.scan? cs with
  | some (.mixed whole _ num den, rest) => some (sumOf whole (num ++ '/' :: den), rest)
  | _ => none

/-- A mixed fraction is a sum. -/
def mixedRule : Rule where
  fire? := mixedSum?
  shrinks {cs out rest} h := by
    unfold mixedSum? at h
    split at h
    · next hs =>
      obtain ⟨-, rfl⟩ := Prod.mk.inj (Option.some.inj h)
      exact Literal.length_lt_of_scan? hs
    · cases h

/-- A text with sums for the mixed fractions. -/
def sumMixed (cs : List Char) : List Char := mixedRule.pass cs

/-! ## The whole preparation -/

/-- The last passes of the preparation, by mode. -/
def finish : Mode → List Char → List Char
  | .basic, cs => sumMixed cs
  | .advanced, cs => sumFeetInches (joinUnits cs)

/-- The formula of an expression. -/
def prepare (mode : Mode) (expression : List Char) : Traced (List Char) := do
  .note "Preprocessing: Normalizing fractions..."
  let joined := joinFractions (plainSigns (trim expression))
  .note ("After Fraction Fix: " ++ String.ofList joined)
  let formula := finish mode joined
  .note ("Final Preprocessed: " ++ String.ofList formula)
  return formula

end Footrule.Formula
