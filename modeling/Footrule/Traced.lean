import Footrule.CalcError

/-!
# Traced computations

A traced computation notes the steps it takes and then succeeds or fails. The steps noted before a
failure are kept. Computations are sequenced as usual (`Monad Traced`), the steps of the first
before those of the second (`steps_bind`), and the laws of sequencing hold (`LawfulMonad Traced`).
-/

namespace Footrule

/-- The steps noted by a computation, first to last, and what it came to. -/
@[ext] structure Traced (α : Type) where
  steps : List String
  result : Except CalcError α

namespace Traced

variable {α β : Type}

/-- Note one step. -/
def note (step : String) : Traced Unit := ⟨[step], .ok ()⟩

/-- Fail without a note. -/
def fail (e : CalcError) : Traced α := ⟨[], .error e⟩

/-- A computation that notes nothing. -/
def ofExcept (r : Except CalcError α) : Traced α := ⟨[], r⟩

/-- Go on with the value of a computation, if it has one. -/
protected def bind (x : Traced α) (f : α → Traced β) : Traced β :=
  match x.result with
  | .ok a => ⟨x.steps ++ (f a).steps, (f a).result⟩
  | .error e => ⟨x.steps, .error e⟩

instance : Monad Traced where
  pure a := ⟨[], .ok a⟩
  bind := Traced.bind

instance : MonadLift (Except CalcError) Traced := ⟨ofExcept⟩

@[simp] theorem steps_pure (a : α) : (pure a : Traced α).steps = [] := rfl

@[simp] theorem result_pure (a : α) : (pure a : Traced α).result = .ok a := rfl

@[simp] theorem steps_note (s : String) : (note s).steps = [s] := rfl

@[simp] theorem result_note (s : String) : (note s).result = .ok () := rfl

@[simp] theorem steps_fail (e : CalcError) : (fail e : Traced α).steps = [] := rfl

@[simp] theorem result_fail (e : CalcError) : (fail e : Traced α).result = .error e := rfl

@[simp] theorem steps_ofExcept (r : Except CalcError α) : (ofExcept r).steps = [] := rfl

@[simp] theorem result_ofExcept (r : Except CalcError α) : (ofExcept r).result = r := rfl

@[simp] theorem liftM_eq (r : Except CalcError α) : (liftM r : Traced α) = ofExcept r := rfl

/-- After a value come the steps that are taken with it. -/
theorem steps_bind (x : Traced α) (f : α → Traced β) :
    (x >>= f).steps = x.steps ++ match x.result with
      | .ok a => (f a).steps
      | .error _ => [] := by
  change (x.bind f).steps = _
  unfold Traced.bind
  split <;> simp_all

@[simp] theorem result_bind (x : Traced α) (f : α → Traced β) :
    (x >>= f).result = x.result.bind fun a => (f a).result := by
  change (x.bind f).result = _
  unfold Traced.bind Except.bind
  split <;> simp_all

@[simp] theorem result_map (f : α → β) (x : Traced α) : (f <$> x).result = x.result.map f := by
  refine (result_bind x _).trans ?_
  cases x.result <;> rfl

theorem bind_of_ok {x : Traced α} {f : α → Traced β} {a : α} (h : x.result = .ok a) :
    x >>= f = ⟨x.steps ++ (f a).steps, (f a).result⟩ := by
  change x.bind f = _
  simp only [Traced.bind, h]

theorem bind_of_error {x : Traced α} {f : α → Traced β} {e : CalcError} (h : x.result = .error e) :
    x >>= f = ⟨x.steps, .error e⟩ := by
  change x.bind f = _
  simp only [Traced.bind, h]

private theorem bind_assoc_of (x : Traced α) (f : α → Traced β) {γ : Type} (g : β → Traced γ) :
    x >>= f >>= g = x >>= fun a => f a >>= g := by
  cases h : x.result with
  | error e => rw [bind_of_error h, bind_of_error h, bind_of_error rfl]
  | ok a =>
    rw [bind_of_ok h, bind_of_ok h]
    cases h' : (f a).result with
    | error e => rw [bind_of_error (e := e) rfl, bind_of_error h']
    | ok b => rw [bind_of_ok (a := b) rfl, bind_of_ok h', List.append_assoc]

instance : LawfulMonad Traced :=
  .mk' Traced
    (fun x => by
      cases h : x.result with
      | ok a => exact (bind_of_ok h).trans (by ext1 <;> simp [h])
      | error e => exact (bind_of_error h).trans (by ext1 <;> simp [h]))
    (fun _ _ => rfl)
    (fun x f g => bind_assoc_of x f g)

end Traced

end Footrule
