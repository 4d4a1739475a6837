import Footrule.Literal
import Footrule.Mode
import Footrule.Token
import Footrule.Traced

/-!
# Cutting a formula into tokens

A formula is cut into lexemes from left to right: the longest literal, in advanced mode with all
letters directly after it as the name of its unit, or a mark, or else a stray character. The lexemes
are the whole text (`flatMap_text_lexemes`). A formula is accepted when its stray characters are
blank; the tokens are then the lexemes without the strays, except that a fraction directly after a
division sign is two numbers and a division.
-/

namespace Footrule

/-- A piece of a formula. -/
inductive Lexeme
  | number (literal : Literal) (name : Option (List Char))
  | mark (m : Mark)
  | stray (c : Char)
  deriving DecidableEq, Repr

namespace Lexeme

/-- How a lexeme is written. -/
def text : Lexeme → List Char
  | number literal name => literal.text ++ name.getD []
  | mark m => [m.sign]
  | stray c => [c]

/-- The name of a unit at the start of a text, and what follows it; basic mode knows no units. -/
def unitName : Mode → List Char → Option (List Char) × List Char
  | .basic, cs => (none, cs)
  | .advanced, cs =>
    match cs.takeWhile Char.isAlpha with
    | [] => (none, cs)
    | c :: name => (some (c :: name), cs.dropWhile Char.isAlpha)

/-- A mark or a stray character. -/
def single (c : Char) : Lexeme :=
  match Mark.ofSign? c with
  | some m => mark m
  | none => stray c

theorem append_unitName (mode : Mode) (cs : List Char) :
    (unitName mode cs).1.getD [] ++ (unitName mode cs).2 = cs := by
  cases mode with
  | basic => rfl
  | advanced =>
    simp only [unitName]
    split
    · rfl
    · next h => rw [Option.getD_some, ← h, List.takeWhile_append_dropWhile]

theorem length_unitName_le (mode : Mode) (cs : List Char) :
    (unitName mode cs).2.length ≤ cs.length := by
  conv => rhs; rw [← append_unitName mode cs, List.length_append]
  omega

@[simp] theorem text_single (c : Char) : (single c).text = [c] := by
  unfold single
  split
  · next h => rw [text, Mark.sign_of_ofSign? h]
  · rfl

end Lexeme

/-- The lexemes of a text. -/
def lexemes (mode : Mode) : List Char → List Lexeme
  | [] => []
  | c :: cs =>
    match h : Literal.scan? (c :: cs) with
    | some (l, rest) =>
      have : (Lexeme.unitName mode rest).2.length < (c :: cs).length :=
        Nat.lt_of_le_of_lt (Lexeme.length_unitName_le mode rest) (Literal.length_lt_of_scan? h)
      .number l (Lexeme.unitName mode rest).1 :: lexemes mode (Lexeme.unitName mode rest).2
    | none => .single c :: lexemes mode cs
termination_by cs => cs.length
decreasing_by
  · exact this
  · exact Nat.lt_succ_self _

@[simp] theorem lexemes_nil (mode : Mode) : lexemes mode [] = [] := by rw [lexemes]

theorem lexemes_of_scan? {mode : Mode} {cs rest : List Char} {l : Literal}
    (h : Literal.scan? cs = some (l, rest)) :
    lexemes mode cs =
      .number l (Lexeme.unitName mode rest).1 :: lexemes mode (Lexeme.unitName mode rest).2 := by
  cases cs with
  | nil => exact absurd (Literal.length_lt_of_scan? h) (by simp)
  | cons c cs =>
    rw [lexemes]
    split
    · next h' => rw [h] at h'; obtain ⟨rfl, rfl⟩ := Prod.mk.inj (Option.some.inj h'); rfl
    · next h' => rw [h] at h'; cases h'

theorem lexemes_of_not_scan? {mode : Mode} {c : Char} {cs : List Char}
    (h : Literal.scan? (c :: cs) = none) : lexemes mode (c :: cs) = .single c :: lexemes mode cs := by
  rw [lexemes]
  split
  · next h' => rw [h] at h'; cases h'
  · rfl

/-- No character is lost or added when a text is cut. -/
theorem flatMap_text_lexemes (mode : Mode) (cs : List Char) :
    (lexemes mode cs).flatMap Lexeme.text = cs := by
  fun_induction lexemes mode cs with
  | case1 => rfl
  | case2 c cs l rest h _ ih =>
    rw [List.flatMap_cons, ih, Lexeme.text, List.append_assoc, Lexeme.append_unitName,
      Literal.append_of_scan? h]
  | case3 c cs _ ih => rw [List.flatMap_cons, ih, Lexeme.text_single, List.singleton_append]

/-- The stretches of stray characters before, between and after the other lexemes. -/
def gaps : List Lexeme → List (List Char)
  | [] => [[]]
  | .stray c :: ls => (gaps ls).modifyHead (c :: ·)
  | .number _ _ :: ls => [] :: gaps ls
  | .mark _ :: ls => [] :: gaps ls

/-- The first stretch of stray characters that is not blank, without the blanks around it. -/
def firstUnexpected? (ls : List Lexeme) : Option (List Char) :=
  ((gaps ls).map trim).find? (· ≠ [])

/-- The tokens of a number, which depend on whether a division sign stands directly before it. -/
def numberTokens : Bool → Literal → Option (List Char) → List Token
  | true, .fraction num den, none =>
    [.number num none, .mark (.operator .div), .number den none]
  | _, l, name => [.number l.text name]

/-- The tokens of the lexemes after a token, given whether that is a division sign. -/
def tokensOf : Bool → List Lexeme → List Token
  | _, [] => []
  | afterDiv, .number l name :: ls => numberTokens afterDiv l name ++ tokensOf false ls
  | _, .mark m :: ls => .mark m :: tokensOf (m = .operator .div) ls
  | afterDiv, .stray _ :: ls => tokensOf afterDiv ls

/-- The tokens of a formula. They are noted before the formula is refused for a stray text. -/
def tokenize (mode : Mode) (formula : List Char) : Traced (List Token) := do
  let ls := lexemes mode formula
  let ts := tokensOf false ls
  .note ("Tokens: [" ++ Token.listing ts ++ "]")
  match firstUnexpected? ls with
  | some stretch => .fail (.unexpected (String.ofList stretch))
  | none => return ts

end Footrule
