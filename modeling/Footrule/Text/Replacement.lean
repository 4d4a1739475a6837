/-!
# Replacing parts of a text from left to right

A rule looks at the start of a text and may fire there: it then says what to write and where to go
on. One pass of the rule goes over a text from its left end: where the rule fires its output is
written, and where it does not, one character is kept. What the rule writes is not looked at again.
-/

namespace Footrule

/-- A replacement rule; where it fires it consumes at least one character. -/
structure Rule where
  /-- What is written at the start of a text, and the rest to go on with. -/
  fire? : List Char → Option (List Char × List Char)
  /-- The rest is shorter than the text. -/
  shrinks : ∀ {cs out rest : List Char}, fire? cs = some (out, rest) → rest.length < cs.length

namespace Rule

/-- One pass of the rule over a text. -/
def pass (r : Rule) : List Char → List Char
  | [] => []
  | c :: cs =>
    match h : r.fire? (c :: cs) with
    | some (out, rest) =>
      have : rest.length < (c :: cs).length := r.shrinks h
      out ++ r.pass rest
    | none => c :: r.pass cs
termination_by cs => cs.length
decreasing_by
  · exact this
  · exact Nat.lt_succ_self _

@[simp] theorem pass_nil (r : Rule) : r.pass [] = [] := by rw [pass]

/-- Where the rule fires, its output is written. -/
theorem pass_of_fire {r : Rule} {cs out rest : List Char} (h : r.fire? cs = some (out, rest)) :
    r.pass cs = out ++ r.pass rest := by
  cases cs with
  | nil => exact absurd (r.shrinks h) (by simp)
  | cons c cs =>
    rw [pass]
    split
    · next h' => rw [h] at h'; obtain ⟨rfl, rfl⟩ := Prod.mk.inj (Option.some.inj h'); rfl
    · next h' => rw [h] at h'; cases h'

/-- Where it does not, the character is kept. -/
theorem pass_of_not_fire {r : Rule} {c : Char} {cs : List Char} (h : r.fire? (c :: cs) = none) :
    r.pass (c :: cs) = c :: r.pass cs := by
  rw [pass]
  split
  · next h' => rw [h] at h'; cases h'
  · rfl

/-- A stretch at no place of which the rule fires is kept. -/
theorem pass_append {r : Rule} {cs k : List Char}
    (h : ∀ {s : List Char}, s ≠ [] → s <:+ cs → r.fire? (s ++ k) = none) :
    r.pass (cs ++ k) = cs ++ r.pass k := by
  induction cs with
  | nil => rfl
  | cons c cs ih =>
    have hc : r.fire? (c :: (cs ++ k)) = none := h (List.cons_ne_nil c cs) (List.suffix_refl _)
    have hcs : r.pass (cs ++ k) = cs ++ r.pass k :=
      ih fun hne hs => h hne (hs.trans (List.suffix_cons c cs))
    rw [List.cons_append, pass_of_not_fire hc, hcs, List.cons_append]

/-- A text at no place of which the rule fires is left as it is. -/
theorem pass_eq_self {r : Rule} {cs : List Char}
    (h : ∀ {t : List Char}, t <:+ cs → r.fire? t = none) : r.pass cs = cs := by
  have happ : r.pass (cs ++ []) = cs ++ r.pass [] :=
    pass_append fun {s} _ hs => by rw [List.append_nil, h hs]
  rwa [pass_nil, List.append_nil] at happ

end Rule

end Footrule
