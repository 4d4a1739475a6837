import Footrule.Proofs.Written.Tokens

/-!
# Accepted formulas

A formula is accepted when all its stray characters are blank, and then its tokens are those of its
lexemes (`result_tokenize_eq_ok_iff`). The accepted tokens of a text are built up from its left end,
one lexeme after the other (`reading`): blanks count for nothing, a sign is a mark, and a run of
digits is read on as far as it goes. Where two numbers stand side by side, with blanks between them
at most, no value comes of the formula (`collides_tokensOf`, `Collides.fails`).
-/

namespace Footrule

/-! ## Accepted lexemes -/

/-- The tokens of lexemes whose strays are all blank; the flag says whether they divide. -/
def accepted? : Bool → List Lexeme → Option (List Token)
  | _, [] => some []
  | afterDiv, .number l name :: ls => (accepted? false ls).map (numberTokens afterDiv l name ++ ·)
  | _, .mark m :: ls => (accepted? (m = .operator .div) ls).map (.mark m :: ·)
  | afterDiv, .stray c :: ls => if isBlank c then accepted? afterDiv ls else none

theorem accepted?_eq_some_iff {afterDiv : Bool} {ls : List Lexeme} {ts : List Token} :
    accepted? afterDiv ls = some ts ↔
      (∀ c, .stray c ∈ ls → isBlank c = true) ∧ tokensOf afterDiv ls = ts := by
  induction ls generalizing afterDiv ts with
  | nil => simp [accepted?, tokensOf]
  | cons l ls ih =>
    cases l with
    | number l name =>
      simp only [accepted?, tokensOf, Option.map_eq_some_iff, ih, List.mem_cons]
      grind
    | mark m =>
      simp only [accepted?, tokensOf, Option.map_eq_some_iff, ih, List.mem_cons]
      grind
    | stray c =>
      simp only [accepted?, tokensOf, Option.ite_none_right_eq_some, ih, List.mem_cons]
      grind

theorem gaps_ne_nil (ls : List Lexeme) : gaps ls ≠ [] := by
  induction ls with
  | nil => exact List.cons_ne_nil _ _
  | cons l ls ih =>
    cases l with
    | stray c =>
      obtain ⟨first, others, h⟩ := List.exists_cons_of_ne_nil ih
      rw [gaps, h]
      exact List.cons_ne_nil _ _
    | _ => exact List.cons_ne_nil _ _

/-- Every stray character lies in a gap. -/
theorem exists_mem_gaps {ls : List Lexeme} {c : Char} (h : Lexeme.stray c ∈ ls) :
    ∃ gap ∈ gaps ls, c ∈ gap := by
  induction ls with
  | nil => cases h
  | cons l ls ih =>
    have hlater (hl : Lexeme.stray c ∈ ls) : ∃ gap ∈ [] :: gaps ls, c ∈ gap := by
      obtain ⟨gap, hg, hc⟩ := ih hl
      exact ⟨gap, List.mem_cons_of_mem _ hg, hc⟩
    cases l with
    | number l name => exact hlater ((List.mem_cons.1 h).resolve_left nofun)
    | mark m => exact hlater ((List.mem_cons.1 h).resolve_left nofun)
    | stray d =>
      obtain ⟨first, others, hg⟩ := List.exists_cons_of_ne_nil (gaps_ne_nil ls)
      rw [gaps, hg, List.modifyHead_cons]
      rcases List.mem_cons.1 h with h | h
      · cases h
        exact ⟨_, List.mem_cons_self, List.mem_cons_self⟩
      · obtain ⟨gap, hgap, hc⟩ := ih h
        rw [hg] at hgap
        rcases List.mem_cons.1 hgap with rfl | hgap
        · exact ⟨_, List.mem_cons_self, List.mem_cons_of_mem _ hc⟩
        · exact ⟨gap, List.mem_cons_of_mem _ hgap, hc⟩

theorem firstUnexpected?_eq_none_iff {ls : List Lexeme} :
    firstUnexpected? ls = none ↔ ∀ c, Lexeme.stray c ∈ ls → isBlank c = true := by
  refine ⟨fun h c hc => ?_, firstUnexpected?_eq_none⟩
  obtain ⟨gap, hg, hc⟩ := exists_mem_gaps hc
  have hgap := List.find?_eq_none.1 h (trim gap) (List.mem_map_of_mem hg)
  exact trim_eq_nil_iff.1 (by simpa using hgap) c hc

/-- The accepted tokens of a formula in basic mode; the flag says whether it divides. -/
def reading (afterDiv : Bool) (cs : List Char) : Option (List Token) :=
  accepted? afterDiv (lexemes .basic cs)

/-- **A formula is cut into tokens exactly where its lexemes are accepted.** -/
theorem result_tokenize_eq_ok_iff {mode : Mode} {formula : List Char} {ts : List Token} :
    (tokenize mode formula).result = .ok ts ↔ accepted? false (lexemes mode formula) = some ts := by
  rw [accepted?_eq_some_iff, ← firstUnexpected?_eq_none_iff]
  cases h : firstUnexpected? (lexemes mode formula) with
  | none => simp [tokenize, h, Except.map]
  | some stretch => simp [tokenize, h, Except.bind]

/-! ## Numbers side by side -/

/-- The number that comes next, after strays at most. -/
def nextNumber? : List Lexeme → Option Literal
  | .number l _ :: _ => some l
  | .stray _ :: ls => nextNumber? ls
  | _ => none

/-- Two numbers of the given kinds stand side by side. -/
def sideBySide (p : Literal → Literal → Bool) : List Lexeme → Bool
  | [] => false
  | .number l _ :: ls => (nextNumber? ls).any (p l) || sideBySide p ls
  | .mark _ :: ls => sideBySide p ls
  | .stray _ :: ls => sideBySide p ls

theorem nextNumber?_gap (gap : List Char) (ls : List Lexeme) :
    nextNumber? (gap.map .stray ++ ls) = nextNumber? ls := by
  induction gap with
  | nil => rfl
  | cons c gap ih => exact ih

theorem sideBySide_gap (p : Literal → Literal → Bool) (gap : List Char) (ls : List Lexeme) :
    sideBySide p (gap.map .stray ++ ls) = sideBySide p ls := by
  induction gap with
  | nil => rfl
  | cons c gap ih => exact ih

theorem sideBySide_cons {p : Literal → Literal → Bool} {ls : List Lexeme}
    (h : sideBySide p ls = true) (x : Lexeme) : sideBySide p (x :: ls) = true := by
  cases x with
  | number l name => exact Bool.or_eq_true_iff.2 (.inr h)
  | mark m => exact h
  | stray c => exact h

/-- The token is the last one of a value. -/
def Token.endsValue : Token → Bool
  | .number _ _ => true
  | .mark .closing => true
  | _ => false

/-- A number stands directly after a value. -/
def Collides (ts : List Token) : Prop :=
  ∃ before t text name after, Token.endsValue t = true ∧
    ts = before ++ t :: .number text name :: after

theorem Collides.append {ts : List Token} (h : Collides ts) (us : List Token) :
    Collides (us ++ ts) := by
  obtain ⟨before, t, text, name, after, ht, rfl⟩ := h
  exact ⟨us ++ before, t, text, name, after, ht, (List.append_assoc us before _).symm⟩

theorem collides_number {t : Token} (ht : t.endsValue = true) (us : List Token) (text : List Char)
    (name : Option (List Char)) (after : List Token) :
    Collides (us ++ t :: .number text name :: after) :=
  ⟨us, t, text, name, after, ht, rfl⟩

theorem Machine.afterValue_of_step {m m' : Machine} {t : Token} (ht : t.endsValue = true)
    (h : (m.step t).result = .ok m') : m'.afterValue = true := by
  cases t with
  | number text name =>
    rw [step, number] at h
    split at h
    · cases h
    · obtain ⟨v, -, h⟩ := Traced.result_bind_eq_ok_iff.1 h
      cases h
      rfl
  | mark mark =>
    cases mark with
    | closing =>
      rw [step, closing] at h
      split at h
      · obtain ⟨⟨pending, values⟩, -, h⟩ := Traced.result_bind_eq_ok_iff.1 h
        cases pending with
        | nil => cases h
        | cons p pending =>
          cases p with
          | opening =>
            cases h
            rfl
          | operation o => cases h
      · cases h
    | _ => cases ht

theorem Machine.exists_outcome_of_collides {ts : List Token} (h : Collides ts) (m : Machine) :
    ∃ e, m.outcome ts = .error e := by
  obtain ⟨before, t, text, name, after, ht, rfl⟩ := h
  induction before generalizing m with
  | nil =>
    rw [List.nil_append, outcome_cons]
    cases hm : (m.step t).result with
    | error e => exact ⟨e, rfl⟩
    | ok m' => exact ⟨_, outcome_number_of_value (afterValue_of_step ht hm) text name after⟩
  | cons t' before ih =>
    rw [List.cons_append, outcome_cons]
    cases (m.step t').result with
    | error e => exact ⟨e, rfl⟩
    | ok m' => exact ih m'

/-- **No value comes of tokens where a number stands directly after a value.** -/
theorem Collides.fails {ts : List Token} (h : Collides ts) : (evaluate ts).Fails := by
  rw [Traced.Fails, result_evaluate]
  exact Machine.exists_outcome_of_collides h Machine.initial

theorem exists_tokensOf_of_nextNumber? {ls : List Lexeme} {l : Literal}
    (h : nextNumber? ls = some l) :
    ∃ name ts, tokensOf false ls = .number l.text name :: ts := by
  induction ls with
  | nil => cases h
  | cons x ls ih =>
    cases x with
    | number l' name =>
      obtain rfl := Option.some.inj h
      exact ⟨name, tokensOf false ls, rfl⟩
    | mark m => cases h
    | stray c => exact ih h

theorem exists_numberTokens_eq_concat (afterDiv : Bool) (l : Literal)
    (name : Option (List Char)) :
    ∃ ts text name', numberTokens afterDiv l name = ts ++ [.number text name'] := by
  unfold numberTokens
  split
  · exact ⟨[_, _], _, _, rfl⟩
  · exact ⟨[], _, _, rfl⟩

/-- Numbers side by side are tokens side by side. -/
theorem collides_tokensOf {p : Literal → Literal → Bool} {ls : List Lexeme}
    (h : sideBySide p ls = true) (afterDiv : Bool) : Collides (tokensOf afterDiv ls) := by
  induction ls generalizing afterDiv with
  | nil => cases h
  | cons x ls ih =>
    cases x with
    | number l name =>
      rw [tokensOf]
      rcases Bool.or_eq_true_iff.1 h with h | h
      · obtain ⟨l', hl', -⟩ := (Option.any_eq_true _ _).1 h
        obtain ⟨name', ts', hts'⟩ := exists_tokensOf_of_nextNumber? hl'
        obtain ⟨ts, text, name, hts⟩ := exists_numberTokens_eq_concat afterDiv l name
        rw [hts, hts', List.append_assoc]
        exact collides_number rfl ts l'.text name' ts'
      · exact (ih h false).append _
    | mark m => exact (ih h _).append [.mark m]
    | stray c => exact ih h afterDiv

end Footrule
