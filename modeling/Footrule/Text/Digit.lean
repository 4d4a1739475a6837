import Footrule.Text.Blank

/-!
# Decimal digits

A digit is a character of the Unicode category `Nd`: the ten digits of each of the decimal systems,
which are consecutive from their zero. Where a text is cut into literals every such digit counts;
only `0` to `9` have a value for the calculator, so a literal in other digits is found and then
refused. Lemmas: no digit is blank, the ASCII digits are digits.
-/

namespace Footrule

/-- The zeros of the decimal systems, by code point. -/
def zeroCodePoints : List Nat :=
  [0x0030, 0x0660, 0x06F0, 0x07C0, 0x0966, 0x09E6, 0x0A66, 0x0AE6, 0x0B66, 0x0BE6, 0x0C66, 0x0CE6,
   0x0D66, 0x0DE6, 0x0E50, 0x0ED0, 0x0F20, 0x1040, 0x1090, 0x17E0, 0x1810, 0x1946, 0x19D0, 0x1A80,
   0x1A90, 0x1B50, 0x1BB0, 0x1C40, 0x1C50, 0xA620, 0xA8D0, 0xA900, 0xA9D0, 0xA9F0, 0xAA50, 0xABF0,
   0xFF10, 0x104A0, 0x10D30, 0x10D40, 0x11066, 0x110F0, 0x11136, 0x111D0, 0x112F0, 0x11450,
   0x114D0, 0x11650, 0x116C0, 0x116D0, 0x116DA, 0x11730, 0x118E0, 0x11950, 0x11BF0, 0x11C50,
   0x11D50, 0x11DA0, 0x11F50, 0x16130, 0x16A60, 0x16AC0, 0x16B50, 0x16D70, 0x1CCF0, 0x1D7CE,
   0x1D7D8, 0x1D7E2, 0x1D7EC, 0x1D7F6, 0x1E140, 0x1E2F0, 0x1E4F0, 0x1E5F1, 0x1E950, 0x1FBF0]

/-- The Unicode category `Nd`. -/
def digitRanges : List CharRange := zeroCodePoints.map fun z => ⟨z, z + 9⟩

/-- Whether a character is a digit of some decimal system. -/
def isDigit (c : Char) : Bool := inRanges digitRanges c

/-- A non-empty run of digits at the start of a text, as long as possible, and what follows it. -/
def digitRun? (cs : List Char) : Option (List Char × List Char) :=
  match cs.takeWhile isDigit with
  | [] => none
  | d :: ds => some (d :: ds, cs.dropWhile isDigit)

/-- A sign and then a run of digits: the run, and what follows it. -/
def signedRun? (sign : Char) : List Char → Option (List Char × List Char)
  | [] => none
  | c :: cs => if c = sign then digitRun? cs else none

theorem isBlank_eq_false_of_isDigit {c : Char} (h : isDigit c = true) : isBlank c = false :=
  not_inRanges_of_disjoint (by decide) h

theorem isDigit_of_ascii {c : Char} (h : c.isDigit = true) : isDigit c = true := by
  refine List.any_eq_true.2 ⟨⟨0x30, 0x39⟩, by decide, ?_⟩
  simp only [Char.isDigit, Bool.and_eq_true, decide_eq_true_eq, ge_iff_le,
    UInt32.le_iff_toNat_le] at h
  exact CharRange.contains_iff.2 h

/-- A run is split off the text: it is made of digits and goes on as far as there are any. -/
theorem digitRun?_eq_some_iff {cs ds rest : List Char} :
    digitRun? cs = some (ds, rest) ↔
      ds ≠ [] ∧ ds = cs.takeWhile isDigit ∧ rest = cs.dropWhile isDigit := by
  unfold digitRun?
  split
  · next h => simp +contextual [h]
  · next d ds' h => grind

theorem append_of_digitRun? {cs ds rest : List Char} (h : digitRun? cs = some (ds, rest)) :
    cs = ds ++ rest := by
  obtain ⟨-, rfl, rfl⟩ := digitRun?_eq_some_iff.1 h
  exact List.takeWhile_append_dropWhile.symm

theorem ne_nil_of_digitRun? {cs ds rest : List Char} (h : digitRun? cs = some (ds, rest)) :
    ds ≠ [] :=
  (digitRun?_eq_some_iff.1 h).1

theorem append_of_signedRun? {sign : Char} {cs ds rest : List Char}
    (h : signedRun? sign cs = some (ds, rest)) : cs = sign :: ds ++ rest := by
  cases cs with
  | nil => simp [signedRun?] at h
  | cons c cs =>
    simp only [signedRun?, Option.ite_none_right_eq_some] at h
    rw [h.1, append_of_digitRun? h.2, List.cons_append]

end Footrule
