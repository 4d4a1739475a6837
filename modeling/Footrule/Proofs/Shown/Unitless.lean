import Footrule.Proofs.Written.Value

/-!
# Basic mode has no lengths

A token of basic mode carries no name of a unit, so that a formula of basic mode is a tree over
plain numbers, and its value is a number (`isLength_of_basic`).
-/

namespace Footrule

/-- The token carries no name of a unit. -/
def Token.Unitless : Token → Prop
  | number _ name => name = none
  | mark _ => True

theorem lexemes_basic {l : Literal} {name : Option (List Char)} {cs : List Char}
    (h : .number l name ∈ lexemes .basic cs) : name = none := by
  fun_induction lexemes .basic cs with
  | case1 => exact absurd h List.not_mem_nil
  | case2 c cs l' rest hscan _ ih =>
    rcases List.mem_cons.1 h with h | h
    · cases h
      rfl
    · exact ih h
  | case3 c cs hscan ih =>
    rcases List.mem_cons.1 h with h | h
    · have hsingle : ∀ l name, Lexeme.single c ≠ .number l name := by
        intro l name
        unfold Lexeme.single
        split <;> exact Lexeme.noConfusion
      exact absurd h.symm (hsingle l name)
    · exact ih h

theorem unitless_tokensOf {ls : List Lexeme}
    (h : ∀ l name, .number l name ∈ ls → name = none) (afterDiv : Bool) :
    ∀ t ∈ tokensOf afterDiv ls, t.Unitless := by
  induction ls generalizing afterDiv with
  | nil => exact List.forall_mem_nil _
  | cons x ls ih =>
    have hrest : ∀ l name, .number l name ∈ ls → name = none :=
      fun l name hm => h l name (List.mem_cons_of_mem _ hm)
    cases x with
    | number l name =>
      obtain rfl : name = none := h l name List.mem_cons_self
      refine List.forall_mem_append.2 ⟨?_, ih hrest false⟩
      unfold numberTokens
      split
      · simp [Token.Unitless]
      · simp [Token.Unitless]
    | mark m => exact List.forall_mem_cons.2 ⟨trivial, ih hrest _⟩
    | stray c => exact ih hrest afterDiv

/-- The tokens of a formula of basic mode carry no names of units. -/
theorem unitless_of_tokenize {formula : List Char} {ts : List Token}
    (h : (tokenize .basic formula).result = .ok ts) : ∀ t ∈ ts, t.Unitless := by
  obtain ⟨-, -, h⟩ := Traced.result_bind_eq_ok_iff.1 h
  split at h
  · cases h
  · cases h
    exact unitless_tokensOf (fun l name => lexemes_basic) false

/-- An operation on numbers gives a number. -/
theorem isLength_operate {o : Operator} {a b q : Quantity} (ha : a.isLength = false)
    (hb : b.isLength = false) (h : (Quantity.operate o a b).result = .ok q) :
    q.isLength = false := by
  have hlengths : o.lengths false false = .ok false := by cases o <;> rfl
  rw [result_operate, ha, hb, hlengths] at h
  cases hv : o.exactValue? a.magnitude b.magnitude with
  | none =>
    rw [hv] at h
    cases h
  | some v =>
    rw [hv] at h
    cases h
    rfl

mutual

theorem Expression.isLength_eval : ∀ {e : Expression Numeral} {q : Quantity},
    (∀ t ∈ e.tokens, t.Unitless) → e.eval.result = .ok q → q.isLength = false
  | .term t, _, ht, h => t.isLength_eval ht h
  | .binary l o _ r, _, ht, h => by
    obtain ⟨hl, hr⟩ := List.forall_mem_append.1 ht
    obtain ⟨a, ha, h⟩ := Traced.result_bind_eq_ok_iff.1 h
    obtain ⟨b, hb, h⟩ := Traced.result_bind_eq_ok_iff.1 h
    exact isLength_operate (l.isLength_eval hl ha)
      (r.isLength_eval (List.forall_mem_cons.1 hr).2 hb) h

theorem Term.isLength_eval : ∀ {m : Term Numeral} {q : Quantity},
    (∀ t ∈ m.tokens, t.Unitless) → m.eval.result = .ok q → q.isLength = false
  | .factor u, _, ht, h => u.isLength_eval ht h
  | .binary l o _ r, _, ht, h => by
    obtain ⟨hl, hr⟩ := List.forall_mem_append.1 ht
    obtain ⟨a, ha, h⟩ := Traced.result_bind_eq_ok_iff.1 h
    obtain ⟨b, hb, h⟩ := Traced.result_bind_eq_ok_iff.1 h
    exact isLength_operate (l.isLength_eval hl ha)
      (r.isLength_eval (List.forall_mem_cons.1 hr).2 hb) h

theorem Factor.isLength_eval : ∀ {u : Factor Numeral} {q : Quantity},
    (∀ t ∈ u.tokens, t.Unitless) → u.eval.result = .ok q → q.isLength = false
  | .number n, _, ht, h => by
    have hname : n.name = none := ht _ List.mem_cons_self
    rw [Factor.eval, Numeral.read, Quantity.read, hname] at h
    obtain ⟨v, -, h⟩ := Traced.result_bind_eq_ok_iff.1 h
    cases h
    rfl
  | .negative u, _, ht, h => by
    rw [Factor.eval, Traced.result_map] at h
    cases hu : u.eval.result with
    | error e =>
      rw [hu] at h
      cases h
    | ok a =>
      rw [hu] at h
      cases h
      have hrest : a.isLength = false := u.isLength_eval (List.forall_mem_cons.1 ht).2 hu
      exact hrest
  | .positive u, _, ht, h => u.isLength_eval (List.forall_mem_cons.1 ht).2 h
  | .group e, _, ht, h =>
    e.isLength_eval (List.forall_mem_cons.1 (List.forall_mem_append.1 ht).1).2 h

end

/-- **The value of an expression in basic mode is no length.** -/
theorem isLength_of_basic {u : OutputUnit} {cs : List Char} {q : Quantity}
    (h : (evaluateExpression .basic u cs).result = .ok q) : q.isLength = false := by
  obtain ⟨formula, -, h⟩ := Traced.result_bind_eq_ok_iff.1 h
  obtain ⟨-, -, h⟩ := Traced.result_bind_eq_ok_iff.1 h
  obtain ⟨ts, hts, h⟩ := Traced.result_bind_eq_ok_iff.1 h
  have hunit := unitless_of_tokenize hts
  cases hp : parse? ts with
  | none =>
    obtain ⟨e, he⟩ := evaluate_fails_of_parse? hp
    rw [he] at h
    cases h
  | some e =>
    obtain rfl := tokens_of_parse? hp
    rw [result_evaluate_tokens] at h
    exact e.isLength_eval hunit h

end Footrule
