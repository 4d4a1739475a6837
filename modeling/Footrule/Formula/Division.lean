import Footrule.Text.Digit

/-!
# Divisions in writing

A division is two runs of digits about a slash, with any blanks beside the slash; the divisor may go
on as a decimal. Without the blanks it is written as a fraction.
-/

namespace Footrule

/-- A division as it is written; `decimals` is empty, or a point and the digits after it. -/
structure Division where
  dividend : List Char
  gapBefore : List Char
  gapAfter : List Char
  divisor : List Char
  decimals : List Char
  deriving DecidableEq, Repr

namespace Division

/-- How the division is written. -/
def text (d : Division) : List Char :=
  d.dividend ++ d.gapBefore ++ '/' :: (d.gapAfter ++ d.divisor ++ d.decimals)

/-- The division as a fraction; a decimal divisor keeps it as it is written. -/
def joined (d : Division) : List Char :=
  if d.decimals = [] then d.dividend ++ '/' :: d.divisor else d.text

/-- A point and digits at the start of a text if they are there, and what follows. -/
def decimalsOf (cs : List Char) : List Char × List Char :=
  match signedRun? '.' cs with
  | some (digits, rest) => ('.' :: digits, rest)
  | none => ([], cs)

/-- The division of a number by what stands at the start of a text, which begins with a slash. -/
def continueWith? (dividend gap : List Char) : List Char → Option (Division × List Char)
  | [] => none
  | c :: cs =>
    if c = '/' then
      (digitRun? (trimStart cs)).map fun (divisor, rest) =>
        let (decimals, rest) := decimalsOf rest
        (⟨dividend, gap, cs.takeWhile isBlank, divisor, decimals⟩, rest)
    else none

/-- A division at the start of a text, and what follows it. -/
def scan? (cs : List Char) : Option (Division × List Char) :=
  (digitRun? cs).bind fun (dividend, rest) =>
    continueWith? dividend (rest.takeWhile isBlank) (trimStart rest)

theorem append_decimalsOf (cs : List Char) : (decimalsOf cs).1 ++ (decimalsOf cs).2 = cs := by
  unfold decimalsOf
  split
  · next h => rw [append_of_signedRun? h]
  · rfl

theorem append_of_continueWith? {dividend gap cs rest : List Char} {d : Division}
    (h : continueWith? dividend gap cs = some (d, rest)) :
    dividend ++ gap ++ cs = d.text ++ rest ∧ d.dividend = dividend := by
  cases cs with
  | nil => cases h
  | cons c cs =>
    simp only [continueWith?, Option.ite_none_right_eq_some, Option.map_eq_some_iff, Prod.mk.injEq,
      Prod.exists] at h
    obtain ⟨rfl, divisor, r, hd, rfl, rfl⟩ := h
    refine ⟨?_, rfl⟩
    have hcs : cs = cs.takeWhile isBlank ++ (divisor ++ r) := by
      rw [← append_of_digitRun? hd, trimStart, List.takeWhile_append_dropWhile]
    conv => lhs; rw [hcs, ← append_decimalsOf r]
    simp [text]

/-- The division found and what follows it make up the text. -/
theorem append_of_scan? {cs rest : List Char} {d : Division} (h : scan? cs = some (d, rest)) :
    cs = d.text ++ rest ∧ d.dividend ≠ [] := by
  obtain ⟨⟨dividend, r⟩, hd, hc⟩ := Option.bind_eq_some_iff.1 h
  obtain ⟨ht, hn⟩ := append_of_continueWith? hc
  refine ⟨?_, hn ▸ ne_nil_of_digitRun? hd⟩
  rw [← ht, append_of_digitRun? hd, List.append_assoc, trimStart, List.takeWhile_append_dropWhile]

theorem length_lt_of_scan? {cs rest : List Char} {d : Division} (h : scan? cs = some (d, rest)) :
    rest.length < cs.length := by
  obtain ⟨rfl, hd⟩ := append_of_scan? h
  have := List.length_pos_iff.2 hd
  simp only [text, List.length_append, List.length_cons]
  omega

end Division

end Footrule
