import Footrule.Traced

/-!
# What traced computations come to

A computation that goes on from another one succeeds exactly when both do (`result_bind_eq_ok_iff`)
and fails with the error of the first that fails. Some things are followed through such sequences:
that a computation fails at all (`Traced.Fails`), what its value or its error is like
(`Traced.Meets`), that it fails only for what its numbers are (`Traced.Arithmetic`), and that it
comes to the same as another one but for a change of the value (`Traced.Carries`).
-/

namespace Footrule

/-- An error in the numbers of a formula, not in how it is built. -/
def CalcError.IsArithmetic (e : CalcError) : Prop := e.kind = .zeroDivision ∨ e.kind = .value

namespace Traced

variable {α β : Type}

theorem result_bind_eq_ok_iff {x : Traced α} {f : α → Traced β} {b : β} :
    (x >>= f).result = .ok b ↔ ∃ a, x.result = .ok a ∧ (f a).result = .ok b := by
  rw [result_bind]
  cases x.result <;> simp [Except.bind]

/-- Two ways to go on are alike if they are so for the value there is. -/
theorem bind_congr_of_ok {x : Traced α} {f g : α → Traced β}
    (h : ∀ a, x.result = .ok a → f a = g a) : x >>= f = x >>= g := by
  cases hx : x.result with
  | error e => rw [bind_of_error hx, bind_of_error hx]
  | ok a => rw [bind_of_ok hx, bind_of_ok hx, h a hx]

/-- A computation that goes on with a trace already begun. -/
def after (trace : List String) (x : Traced α) : Traced α := ⟨trace ++ x.steps, x.result⟩

/-! ## Failing -/

/-- A computation fails. -/
def Fails (x : Traced α) : Prop := ∃ e, x.result = .error e

/-- A computation fails if it does with the value there is. -/
theorem fails_bind_of_ok {x : Traced α} {f : α → Traced β}
    (h : ∀ a, x.result = .ok a → (f a).Fails) : (x >>= f).Fails := by
  cases hx : x.result with
  | error e => exact ⟨e, by rw [bind_of_error hx]⟩
  | ok a =>
    obtain ⟨e, he⟩ := h a hx
    exact ⟨e, by rw [bind_of_ok hx, he]⟩

theorem fails_bind {x : Traced α} {f : α → Traced β} (h : ∀ a, (f a).Fails) : (x >>= f).Fails :=
  fails_bind_of_ok fun a _ => h a

theorem Fails.bind {x : Traced α} (h : x.Fails) (f : α → Traced β) : (x >>= f).Fails := by
  obtain ⟨e, he⟩ := h
  exact ⟨e, by rw [bind_of_error he]⟩

/-! ## Values and errors with a property -/

/-- The value of a computation has one property, or its error has another. -/
def Meets (x : Traced α) (onValue : α → Prop) (onError : CalcError → Prop) : Prop :=
  (∀ a, x.result = .ok a → onValue a) ∧ ∀ e, x.result = .error e → onError e

section Meets

variable {onValue : α → Prop} {onValue' : β → Prop} {onError onError' : CalcError → Prop}

theorem meets_pure {a : α} (h : onValue a) : (pure a : Traced α).Meets onValue onError := by
  constructor
  · rintro b ⟨⟩
    exact h
  · nofun

theorem meets_fail {e : CalcError} (h : onError e) : (fail e : Traced α).Meets onValue onError := by
  constructor
  · nofun
  · rintro e' ⟨⟩
    exact h

theorem meets_note (s : String) : (note s).Meets (fun _ => True) onError :=
  ⟨fun _ _ => trivial, nofun⟩

theorem Meets.bind {x : Traced α} {f : α → Traced β} (hx : x.Meets onValue onError)
    (hf : ∀ a, onValue a → (f a).Meets onValue' onError) : (x >>= f).Meets onValue' onError := by
  cases hr : x.result with
  | error e =>
    rw [bind_of_error hr]
    exact ⟨nofun, fun e' he' => Except.error.inj he' ▸ hx.2 e hr⟩
  | ok a =>
    rw [bind_of_ok hr]
    exact hf a (hx.1 a hr)

theorem Meets.imp_error {x : Traced α} (hx : x.Meets onValue onError)
    (h : ∀ e, onError e → onError' e) : x.Meets onValue onError' :=
  ⟨hx.1, fun e he => h e (hx.2 e he)⟩

end Meets

/-! ## Failing only for arithmetic reasons -/

/-- A computation fails only for arithmetic reasons. -/
def Arithmetic (x : Traced α) : Prop := ∀ e, x.result = .error e → e.IsArithmetic

theorem Arithmetic.meets {x : Traced α} (h : x.Arithmetic) :
    x.Meets (fun _ => True) CalcError.IsArithmetic := ⟨fun _ _ => trivial, h⟩

theorem arithmetic_pure (a : α) : (pure a : Traced α).Arithmetic := nofun

theorem arithmetic_note (s : String) : (note s).Arithmetic := (meets_note s).2

theorem arithmetic_bind {x : Traced α} {f : α → Traced β} (hx : x.Arithmetic)
    (hf : ∀ a, (f a).Arithmetic) : (x >>= f).Arithmetic :=
  (hx.meets.bind fun a _ => (hf a).meets).2

theorem arithmetic_map {x : Traced α} (f : α → β) (hx : x.Arithmetic) : (f <$> x).Arithmetic := by
  rw [← bind_pure_comp]
  exact arithmetic_bind hx fun a => arithmetic_pure _

/-! ## Two computations side by side -/

/--
The second computation comes to what the first comes to, with the value changed by `g`, unless the
first one notes a step that is ruled out.
-/
def Carries (ruledOut : String → Prop) (g : α → β) (x : Traced α) (y : Traced β) : Prop :=
  (∀ step ∈ x.steps, ¬ ruledOut step) → y.result = x.result.map g

section Carries

variable {γ δ : Type} {ruledOut : String → Prop} {g : α → β}

theorem carries_pure (a : α) : Carries ruledOut g (pure a) (pure (g a)) := fun _ => rfl

theorem carries_fail (e : CalcError) : Carries ruledOut g (fail e) (fail e) := fun _ => rfl

theorem carries_of_ok {x : Traced α} {y : Traced β} {a : α} (hx : x.result = .ok a)
    (hy : y.result = .ok (g a)) : Carries ruledOut g x y := by
  intro _
  rw [hx, hy]
  rfl

theorem Carries.bind {x : Traced α} {y : Traced β} (h : Carries ruledOut g x y)
    {f : α → Traced γ} {f' : β → Traced δ} {g' : γ → δ}
    (hf : ∀ a, Carries ruledOut g' (f a) (f' (g a))) :
    Carries ruledOut g' (x >>= f) (y >>= f') := by
  intro hsteps
  rw [steps_bind] at hsteps
  have hy := h fun step hstep => hsteps step (List.mem_append_left _ hstep)
  rw [result_bind, result_bind, hy]
  cases hx : x.result with
  | error e => rfl
  | ok a =>
    rw [hx] at hsteps
    exact hf a fun step hstep => hsteps step (List.mem_append_right _ hstep)

end Carries

end Traced

end Footrule
