import Footrule.Text.Digit

/-!
# Number literals

A literal is a whole number `12`, a decimal `1.5` or `.5`, a fraction `3/8`, or a mixed fraction
`1 3/4`. `Literal.scan?` finds the longest literal at the start of a text: a run of digits is read
on as a fraction, as a decimal or as a mixed fraction where the text allows it, and stands for
itself where it does not. A literal found is a part of the text (`append_of_scan?`).
-/

namespace Footrule

/-- A literal, by its runs of digits. -/
inductive Literal
  /-- `12` -/
  | whole (digits : List Char)
  /-- `1.5`, or `.5` with nothing before the point -/
  | decimal (whole decimals : List Char)
  /-- `3/8` -/
  | fraction (num den : List Char)
  /-- `1 3/4`, with the blanks that divide the two parts -/
  | mixed (whole gap num den : List Char)
  deriving DecidableEq, Repr

/-- A fraction at the start of a text, and what follows it: two runs of digits about a slash. -/
def fractionRun? (cs : List Char) : Option ((List Char × List Char) × List Char) :=
  (digitRun? cs).bind fun (num, cs) => (signedRun? '/' cs).map fun (den, rest) => ((num, den), rest)

/-- Blanks and then a fraction. -/
def spacedFraction? (cs : List Char) : Option ((List Char × List Char × List Char) × List Char) :=
  match cs.takeWhile isBlank with
  | [] => none
  | b :: bs =>
    (fractionRun? (cs.dropWhile isBlank)).map fun ((num, den), rest) => ((b :: bs, num, den), rest)

namespace Literal

/-- How a literal is written. -/
def text : Literal → List Char
  | whole run => run
  | decimal run decimals => run ++ '.' :: decimals
  | fraction num den => num ++ '/' :: den
  | mixed run gap num den => run ++ gap ++ num ++ '/' :: den

/-- The longest literal that starts with the given run of digits, and what follows it. -/
def continueRun (run rest : List Char) : Literal × List Char :=
  match signedRun? '/' rest, signedRun? '.' rest, spacedFraction? rest with
  | some (den, rest), _, _ => (fraction run den, rest)
  | none, some (decimals, rest), _ => (decimal run decimals, rest)
  | none, none, some ((gap, num, den), rest) => (mixed run gap num den, rest)
  | none, none, none => (whole run, rest)

/-- The longest literal at the start of a text, and what follows it. -/
def scan? (cs : List Char) : Option (Literal × List Char) :=
  match digitRun? cs with
  | some (run, rest) => some (continueRun run rest)
  | none => (signedRun? '.' cs).map fun (decimals, rest) => (decimal [] decimals, rest)

end Literal

theorem append_of_fractionRun? {cs num den rest : List Char}
    (h : fractionRun? cs = some ((num, den), rest)) : cs = num ++ '/' :: den ++ rest := by
  simp only [fractionRun?, Option.bind_eq_some_iff, Option.map_eq_some_iff, Prod.mk.injEq,
    Prod.exists] at h
  obtain ⟨n, r, hn, d, r', hd, ⟨rfl, rfl⟩, rfl⟩ := h
  rw [append_of_digitRun? hn, append_of_signedRun? hd]
  simp

theorem append_of_spacedFraction? {cs gap num den rest : List Char}
    (h : spacedFraction? cs = some ((gap, num, den), rest)) :
    cs = gap ++ num ++ '/' :: den ++ rest := by
  unfold spacedFraction? at h
  split at h
  · cases h
  · next b bs hb =>
    simp only [Option.map_eq_some_iff, Prod.mk.injEq, Prod.exists] at h
    obtain ⟨n, d, r, hf, ⟨rfl, rfl, rfl⟩, rfl⟩ := h
    rw [← List.takeWhile_append_dropWhile (p := isBlank) (l := cs), hb, append_of_fractionRun? hf]
    simp

namespace Literal

theorem append_of_continueRun {run rest rest' : List Char} {l : Literal}
    (h : continueRun run rest = (l, rest')) : run ++ rest = l.text ++ rest' := by
  unfold continueRun at h
  split at h <;> obtain ⟨rfl, rfl⟩ := Prod.mk.inj h
  · next hs => rw [append_of_signedRun? hs]; simp [text]
  · next hs => rw [append_of_signedRun? hs]; simp [text]
  · next hs => rw [append_of_spacedFraction? hs]; simp [text]
  · rfl

theorem text_ne_nil_of_continueRun {run rest rest' : List Char} {l : Literal} (hr : run ≠ [])
    (h : continueRun run rest = (l, rest')) : l.text ≠ [] := by
  unfold continueRun at h
  split at h <;> obtain ⟨rfl, rfl⟩ := Prod.mk.inj h <;> simp [text, hr]

/-- The literal found and what follows it make up the text. -/
theorem append_of_scan? {cs rest : List Char} {l : Literal} (h : scan? cs = some (l, rest)) :
    cs = l.text ++ rest := by
  unfold scan? at h
  split at h
  · next hd => rw [append_of_digitRun? hd, append_of_continueRun (Option.some.inj h)]
  · simp only [Option.map_eq_some_iff, Prod.mk.injEq, Prod.exists] at h
    obtain ⟨ds, r, hs, rfl, rfl⟩ := h
    rw [append_of_signedRun? hs]
    rfl

/-- A literal found is not empty. -/
theorem text_ne_nil_of_scan? {cs rest : List Char} {l : Literal} (h : scan? cs = some (l, rest)) :
    l.text ≠ [] := by
  unfold scan? at h
  split at h
  · next hd => exact text_ne_nil_of_continueRun (ne_nil_of_digitRun? hd) (Option.some.inj h)
  · simp only [Option.map_eq_some_iff, Prod.mk.injEq, Prod.exists] at h
    obtain ⟨ds, r, -, rfl, -⟩ := h
    simp [text]

theorem length_lt_of_scan? {cs rest : List Char} {l : Literal} (h : scan? cs = some (l, rest)) :
    rest.length < cs.length := by
  rw [append_of_scan? h, List.length_append]
  have := List.length_pos_iff.2 (text_ne_nil_of_scan? h)
  omega

end Literal

end Footrule
