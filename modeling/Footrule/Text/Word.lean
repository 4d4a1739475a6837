/-!
# Words in a text

A word at the start of a text is recognised in letters of either case. Besides its capital, the
letter `s` has the long `ſ` as a second form.
-/

namespace Footrule

/-- Whether a character is a form of the given lower-case letter. -/
def isFormOf (letter c : Char) : Bool := c.toLower = letter || (letter = 's' && c = 'ſ')

/-- A given word at the start of a text: how it is written there, and what follows it. -/
def wordAt? : List Char → List Char → Option (List Char × List Char)
  | [], cs => some ([], cs)
  | _ :: _, [] => none
  | letter :: word, c :: cs =>
    if isFormOf letter c then (wordAt? word cs).map fun (w, rest) => (c :: w, rest) else none

/-- The first of some words that stands at the start of a text. -/
def firstWordAt? (words : List String) (cs : List Char) : Option (List Char × List Char) :=
  words.findSome? fun word => wordAt? word.toList cs

theorem append_of_wordAt? {word cs w rest : List Char} (h : wordAt? word cs = some (w, rest)) :
    cs = w ++ rest := by
  fun_induction wordAt? word cs generalizing w with
  | case1 => cases h; rfl
  | case2 => cases h
  | case3 letter word c cs _ ih =>
    obtain ⟨⟨w', r⟩, hw, he⟩ := Option.map_eq_some_iff.1 h
    obtain ⟨rfl, rfl⟩ := Prod.mk.inj he
    rw [ih hw, List.cons_append]
  | case4 => cases h

theorem append_of_firstWordAt? {words : List String} {cs w rest : List Char}
    (h : firstWordAt? words cs = some (w, rest)) : cs = w ++ rest := by
  obtain ⟨word, -, hw⟩ := List.exists_of_findSome?_eq_some h
  exact append_of_wordAt? hw

end Footrule
