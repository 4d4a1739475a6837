import Footrule.Text.CharRange

/-!
# Blank characters

A blank is a character with the Unicode property `White_Space`. Texts are trimmed at both ends;
trimming leaves nothing exactly of a text of blanks (`trim_eq_nil_iff`).
-/

namespace Footrule

/-- The Unicode property `White_Space`. -/
def blankRanges : List CharRange :=
  [⟨0x0009, 0x000D⟩, ⟨0x0020, 0x0020⟩, ⟨0x0085, 0x0085⟩, ⟨0x00A0, 0x00A0⟩, ⟨0x1680, 0x1680⟩,
   ⟨0x2000, 0x200A⟩, ⟨0x2028, 0x2029⟩, ⟨0x202F, 0x202F⟩, ⟨0x205F, 0x205F⟩, ⟨0x3000, 0x3000⟩]

/-- Whether a character is white space. -/
def isBlank (c : Char) : Bool := inRanges blankRanges c

/-- A text without the blanks it starts with. -/
def trimStart (cs : List Char) : List Char := cs.dropWhile isBlank

/-- A text without the longest run of characters of a kind at its end. -/
def dropTrailing (p : Char → Bool) (cs : List Char) : List Char := (cs.reverse.dropWhile p).reverse

/-- A text without the blanks at its two ends. -/
def trim (cs : List Char) : List Char := dropTrailing isBlank (trimStart cs)

@[simp] theorem isBlank_space : isBlank ' ' = true := by decide

/-- What trailing characters leave is the start of the text. -/
theorem dropTrailing_append_takeWhile (p : Char → Bool) (cs : List Char) :
    dropTrailing p cs ++ (cs.reverse.takeWhile p).reverse = cs := by
  rw [dropTrailing, ← List.reverse_append, List.takeWhile_append_dropWhile, List.reverse_reverse]

theorem dropWhile_eq_nil_iff_forall {p : Char → Bool} {cs : List Char} :
    cs.dropWhile p = [] ↔ ∀ c ∈ cs, p c = true := by
  induction cs with
  | nil => simp
  | cons c cs ih => by_cases h : p c = true <;> simp [h, ih]

theorem dropTrailing_eq_nil_iff {p : Char → Bool} {cs : List Char} :
    dropTrailing p cs = [] ↔ ∀ c ∈ cs, p c = true := by
  simp only [dropTrailing, List.reverse_eq_nil_iff, dropWhile_eq_nil_iff_forall, List.mem_reverse]

/-- Nothing is left exactly of a text of blanks. -/
theorem trim_eq_nil_iff {cs : List Char} : trim cs = [] ↔ ∀ c ∈ cs, isBlank c = true := by
  rw [trim, dropTrailing_eq_nil_iff, trimStart]
  refine ⟨fun h => ?_, fun h c hc => h c ((List.dropWhile_sublist _).mem hc)⟩
  have hd : cs.dropWhile isBlank = [] := by
    cases hcs : cs.dropWhile isBlank with
    | nil => rfl
    | cons a as =>
      have ha := h a (by simp [hcs])
      have := List.head_dropWhile_not isBlank (l := cs) (by simp [hcs])
      simp [hcs, ha] at this
  exact dropWhile_eq_nil_iff_forall.1 hd

end Footrule
