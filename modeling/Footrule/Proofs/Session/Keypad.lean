import Footrule.Proofs.Breaks.Stretches
import Footrule.Proofs.Shown.Uniform
import Footrule.Session

/-!
# Entries from the keypad

The keys `+`, `-` and `*` write their sign with spaces about it and take the spaces before it away.
The entry then differs from what the keys say, but only by spaces beside these signs, and it may be
exchanged for it whatever is written next (`Interchangeable.insert`). So after any keys the entry is
shown as the labels of the keys in a row would be (`calculate_pressed`).
-/

namespace Footrule

/--
The texts may be exchanged for each other: neither or both are blank, and with whatever is written
after them they have the same outline.
-/
structure Interchangeable (cs cs' : List Char) : Prop where
  blank : trim cs = [] ↔ trim cs' = []
  outline (mode : Mode) (k : List Char) :
    outline (pieces mode (cs ++ k)) = outline (pieces mode (cs' ++ k))

namespace Interchangeable

variable {cs cs' cs'' : List Char}

theorem refl (cs : List Char) : Interchangeable cs cs := ⟨Iff.rfl, fun _ _ => rfl⟩

theorem trans (h : Interchangeable cs cs') (h' : Interchangeable cs' cs'') :
    Interchangeable cs cs'' :=
  ⟨h.blank.trans h'.blank, fun mode k => (h.outline mode k).trans (h'.outline mode k)⟩

/-- More may be written after both. -/
theorem append (h : Interchangeable cs cs') (k : List Char) :
    Interchangeable (cs ++ k) (cs' ++ k) where
  blank := by
    have hblank := h.blank
    simp only [trim_eq_nil_iff, List.forall_mem_append] at hblank ⊢
    rw [hblank]
  outline mode t := by rw [List.append_assoc, h.outline, List.append_assoc]

theorem trim_sign_ne_nil (pre : List Char) (m : Mark) (post : List Char) :
    trim (pre ++ m.sign :: post) ≠ [] := by
  simp [trim_append_sign]

/-- A sign may be set off by other blanks. -/
theorem respace (pre : List Char) {gap gap' after after' : List Char} {m : Mark}
    (hm : m ≠ .operator .div) (hg : ∀ c ∈ gap, isBlank c = true)
    (hg' : ∀ c ∈ gap', isBlank c = true) (ha : ∀ c ∈ after, isBlank c = true)
    (ha' : ∀ c ∈ after', isBlank c = true) :
    Interchangeable (pre ++ (gap ++ m.sign :: after)) (pre ++ (gap' ++ m.sign :: after')) where
  blank := by
    rw [← List.append_assoc, ← List.append_assoc]
    exact iff_of_false (trim_sign_ne_nil _ m _) (trim_sign_ne_nil _ m _)
  outline mode k := by
    simp only [List.append_assoc, List.cons_append]
    rw [outline_gap_sign_gap mode pre hg hm ha, outline_gap_sign_gap mode pre hg' hm ha']

end Interchangeable

/-! ## Keys -/

namespace Keypad

/-- A key whose sign is set off has the sign of a mark that is no division. -/
theorem exists_mark {key : String} (h : key ∈ spacedKeys) :
    ∃ m : Mark, m ≠ .operator .div ∧ key.toList = [m.sign] := by
  simp only [spacedKeys, List.mem_cons, List.not_mem_nil, or_false] at h
  rcases h with rfl | rfl | rfl
  · exact ⟨.operator .add, by decide, rfl⟩
  · exact ⟨.operator .sub, by decide, rfl⟩
  · exact ⟨.operator .mul, by decide, rfl⟩

/-- Such a key changes only the blanks about its sign. -/
theorem exists_respaced (entry : String) {key : String} (h : key ∈ spacedKeys) :
    ∃ (before gap gap' : List Char) (m : Mark), m ≠ .operator .div ∧
      (∀ c ∈ gap, isBlank c = true) ∧ (∀ c ∈ gap', isBlank c = true) ∧
      (entry ++ key).toList = before ++ (gap ++ [m.sign]) ∧
      (insert entry key).toList = before ++ (gap' ++ m.sign :: [' ']) := by
  obtain ⟨m, hm, hsign⟩ := exists_mark h
  have hentry := dropTrailing_append_takeWhile (· = ' ') entry.toList
  have hspaces : ∀ c ∈ (entry.toList.reverse.takeWhile (· = ' ')).reverse, isBlank c = true := by
    intro c hc
    have hspace := List.all_eq_true.1 List.all_takeWhile c (List.mem_reverse.1 hc)
    rw [of_decide_eq_true hspace]
    exact isBlank_space
  refine ⟨dropSpaces entry.toList, _, if dropSpaces entry.toList = [] then [] else [' '], m, hm,
    hspaces, ?_, ?_, ?_⟩
  · split <;> simp
  · rw [String.toList_append, hsign, dropSpaces, ← List.append_assoc, hentry]
  · rw [insert, if_pos h, String.toList_append, String.toList_append, hsign]
    split <;> simp_all

end Keypad

/-- **A key may as well write its label only.** -/
theorem Interchangeable.insert {entry text : String}
    (h : Interchangeable entry.toList text.toList) (key : String) :
    Interchangeable (Keypad.insert entry key).toList (text ++ key).toList := by
  have htyped := h.append key.toList
  rw [← String.toList_append, ← String.toList_append] at htyped
  by_cases hkey : key ∈ Keypad.spacedKeys
  · obtain ⟨before, gap, gap', m, hm, hg, hg', hplain, hspaced⟩ :=
      Keypad.exists_respaced entry hkey
    rw [hplain] at htyped
    rw [hspaced]
    exact (respace before hm hg' hg blank_space blank_nil).trans htyped
  · rwa [Keypad.insert, if_neg hkey]

theorem interchangeable_keys (keys : List String) {entry text : String}
    (h : Interchangeable entry.toList text.toList) :
    Interchangeable (keys.foldl Keypad.insert entry).toList (keys.foldl (· ++ ·) text).toList := by
  induction keys generalizing entry text with
  | nil => exact h
  | cons key keys ih => exact ih (h.insert key)

/-! ## Calculations -/

/-- Texts that may be exchanged are shown alike under all settings. -/
theorem Interchangeable.calculate {text text' : String}
    (h : Interchangeable text.toList text'.toList) (s : Settings) :
    (calculate s text).toForms = (calculate s text').toForms ∧
      (calculate s text).isError = (calculate s text').isError := by
  by_cases hb : trim text.toList = []
  · simp only [Footrule.calculate, if_pos hb, if_pos (h.blank.1 hb), and_self]
  have hb' := mt h.blank.2 hb
  have houtline := h.outline s.mode []
  rw [List.append_nil, List.append_nil] at houtline
  have hresult := result_of_outline houtline s.outputUnit
  cases hp : s.precision with
  | error e =>
    rw [calculate_of_precision_error hb hp, calculate_of_precision_error hb' hp]
    exact ⟨rfl, rfl⟩
  | ok p =>
    cases hq : (evaluateExpression s.mode s.outputUnit text.toList).result with
    | error e =>
      rw [calculate_of_error hb hp hq, calculate_of_error hb' hp (hresult ▸ hq)]
      exact ⟨rfl, rfl⟩
    | ok q =>
      rw [calculate_of_ok hb hp hq, calculate_of_ok hb' hp (hresult ▸ hq)]
      exact ⟨rfl, rfl⟩

namespace Session

theorem entry_run_insert (s : Session) (keys : List String) :
    (s.run (keys.map .insert)).entry = keys.foldl Keypad.insert s.entry := by
  induction keys generalizing s with
  | nil => rfl
  | cons key keys ih => exact ih _

/--
**What is entered by keys means the same as their labels in a row.** Whatever keys are pressed from
an empty entry on, under all settings the entry is shown in the same forms as the labels written one
after the other, or as the same error.
-/
theorem calculate_pressed (session : Session) (keys : List String) (s : Settings) :
    let pressed := (({ session with entry := "" } : Session).run (keys.map .insert)).entry
    (calculate s pressed).toForms = (calculate s (String.join keys)).toForms ∧
      (calculate s pressed).isError = (calculate s (String.join keys)).isError := by
  intro pressed
  have hkeys := interchangeable_keys keys (.refl "".toList)
  rw [← entry_run_insert { session with entry := "" }] at hkeys
  exact hkeys.calculate s

/-- Keys that make no expression are refused as their labels in a row are. -/
example : (calculate .initial (["1", " ", "-", "m", " ", "-"].foldl Keypad.insert "")).toForms =
    (calculate .initial "1 -m -").toForms := by decide +kernel

end Session

end Footrule
