import Footrule.Proofs.Grammar.Machine
import Footrule.Proofs.Shown.Literals
import Mathlib.Control.Monad.Basic
import Mathlib.Data.List.Forall2

/-!
# Dimensional homogeneity

Two formulas may differ in the units of their lengths, and in how large all lengths are: each length
of the second is `k` times the length in its place in the first (`Token.Scaled`). The machine keeps
the same values on its stack for both, but for the lengths, which it keeps multiplied by `k`
(`Token.Scaled.carries_step`). So both evaluations fail together, and a value that is a length is
multiplied by `k` (`evaluate_scaled`). The exception is a division of a number by a length, which
is a length and not multiplied but divided by `k`; it is seen from the trace (`DividesByLength`).
-/

namespace Footrule

open Traced

namespace Quantity

/-! ## Scaled quantities -/

/-- A length `k` times as long; a number stays as it is. -/
def scale (k : Rat) (q : Quantity) : Quantity where
  magnitude := if q.isLength then k * q.magnitude else q.magnitude
  isLength := q.isLength

theorem scale_one (q : Quantity) : q.scale 1 = q := by
  simp [scale]

theorem neg_scale (k : Rat) (q : Quantity) : (q.scale k).neg = q.neg.scale k := by
  obtain ⟨v, _ | _⟩ := q
  · rfl
  · exact congrArg (Quantity.mk · true) (Rat.mul_neg k v).symm

theorem map_scale_one (r : Except CalcError Quantity) : r.map (scale 1) = r := by
  cases r with
  | error e => rfl
  | ok q => exact congrArg Except.ok (scale_one q)

/-- A length that is `k` times another one comes of it by scaling. -/
theorem ok_eq_map_scale {k v w : Rat} (h : v = k * w) :
    (.ok ⟨v, true⟩ : Except CalcError Quantity) = (Except.ok ⟨w, true⟩).map (scale k) := by
  rw [h]
  rfl

/-- **Operations are homogeneous**, except for divisions of a number by a length. -/
theorem combine_scale {k : Rat} {o : Operator} {l r : Quantity}
    (h : ¬ (k ≠ 1 ∧ o = .div ∧ l.isLength = false ∧ r.isLength = true)) :
    combine o (l.scale k) (r.scale k) = (combine o l r).map (scale k) := by
  by_cases hk : k = 1
  · rw [hk, scale_one, scale_one, map_scale_one]
  obtain ⟨a, b⟩ := l
  obtain ⟨c, d⟩ := r
  cases o with
  | add =>
    have hadd : k * a + k * c = k * (a + c) := (Rat.mul_add k a c).symm
    cases b <;> cases d
    · rfl
    · rfl
    · rfl
    · exact ok_eq_map_scale hadd
  | sub =>
    have hsub : k * a - k * c = k * (a - c) := by grind
    cases b <;> cases d
    · rfl
    · rfl
    · rfl
    · exact ok_eq_map_scale hsub
  | mul =>
    have hleft : k * a * c = k * (a * c) := Rat.mul_assoc k a c
    have hright : a * (k * c) = k * (a * c) := by grind
    cases b <;> cases d
    · rfl
    · exact ok_eq_map_scale hright
    · exact ok_eq_map_scale hleft
    · rfl
  | div =>
    have hleft : k * a / c = k * (a / c) := by rw [Rat.div_def, Rat.div_def, Rat.mul_assoc]
    cases d with
    | true =>
      -- a length divided by a length is refused
      obtain rfl : b = true := by simpa [hk] using h
      rfl
    | false =>
      have hdivisor : scale k ⟨c, false⟩ = ⟨c, false⟩ := rfl
      rw [hdivisor, combine_div_by_number, combine_div_by_number]
      split
      · rfl
      · cases b
        · rfl
        · exact ok_eq_map_scale hleft

/-! ## Operations in the trace -/

/-- What is noted of an operation. -/
def operationNote (o : Operator) (l r : Quantity) : String :=
  "Operation: " ++ l.noted ++ " " ++ o.sign.toString ++ " " ++ r.noted

theorem operate_eq (o : Operator) (l r : Quantity) :
    operate o l r = note (operationNote o l r) >>= fun _ => ofExcept (combine o l r) := rfl

theorem space_not_mem_plain (v : Rat) : ' ' ∉ (Display.plain v).toList := by
  have hdigits (n : Nat) : ' ' ∉ Nat.toDigits 10 n :=
    fun hmem => absurd ((plainRun_toDigits n).2 ' ' hmem) (by decide)
  have hinteger (z : Int) : ' ' ∉ (Display.integer z).toList := by
    rw [Display.integer, String.toList_append, toList_minusSign, toList_toString]
    cases decide (z < 0) <;> simp [minusSign, hdigits]
  rw [Display.plain]
  split
  · exact hinteger _
  · simp [hinteger, hdigits]

/-- A note of a quantity tells where it ends and whether the quantity is a length. -/
theorem noted_append_inj {q q' : Quantity} {cs cs' : List Char}
    (h : q.noted.toList ++ cs = q'.noted.toList ++ cs') :
    q.isLength = q'.isLength ∧ cs = cs' := by
  have hnoted (q : Quantity) (cs : List Char) : q.noted.toList ++ cs =
      (Display.plain q.magnitude).toList ++
        ' ' :: '(' :: ((toString q.isLength).toList ++ ')' :: cs) := by
    simp only [noted, String.toList_append, List.append_assoc]
    rfl
  rw [hnoted, hnoted] at h
  replace h := congrArg (splitAtSign? ' ') h
  rw [splitAtSign?_append (space_not_mem_plain _),
    splitAtSign?_append (space_not_mem_plain _)] at h
  replace h := (List.cons.inj (Prod.mk.inj (Option.some.inj h)).2).2
  cases hb : q.isLength <;> cases hb' : q'.isLength <;> rw [hb, hb'] at h
  · exact ⟨rfl, (List.cons.inj (List.append_cancel_left h)).2⟩
  · exact absurd (List.cons.inj h).1 (by decide)
  · exact absurd (List.cons.inj h).1 (by decide)
  · exact ⟨rfl, (List.cons.inj (List.append_cancel_left h)).2⟩

theorem toList_operationNote (o : Operator) (l r : Quantity) :
    (operationNote o l r).toList =
      "Operation: ".toList ++ (l.noted.toList ++ ' ' :: o.sign :: ' ' :: r.noted.toList) := by
  have hsign : o.sign.toString.toList = [o.sign] := by simp
  change ("Operation: " ++ l.noted ++ " " ++ o.sign.toString ++ " " ++ r.noted).toList = _
  simp only [String.toList_append, hsign, List.append_assoc]
  rfl

/-- The note of an operation tells which one it is and which of its operands are lengths. -/
theorem of_operationNote_eq {o o' : Operator} {l r l' r' : Quantity}
    (h : operationNote o l r = operationNote o' l' r') :
    o = o' ∧ l.isLength = l'.isLength ∧ r.isLength = r'.isLength := by
  have hlist := congrArg String.toList h
  rw [toList_operationNote, toList_operationNote] at hlist
  obtain ⟨hl, hrest⟩ := noted_append_inj (List.append_cancel_left hlist)
  obtain ⟨hsign, hrest⟩ := List.cons.inj (List.cons.inj hrest).2
  have ho : o = o' := by
    cases o <;> cases o' <;> first | rfl | cases hsign
  exact ⟨ho, hl, (noted_append_inj (congrArg (· ++ []) (List.cons.inj hrest).2)).1⟩

end Quantity

/-- A step notes a division of a number by a length. -/
def NotesLengthDivision (step : String) : Prop :=
  ∃ l r : Quantity, l.isLength = false ∧ r.isLength = true ∧ step = Quantity.operationNote .div l r

/-- Of the notes of operations, just those of a division of a number by a length note one. -/
theorem notesLengthDivision_operationNote_iff {o : Operator} {l r : Quantity} :
    NotesLengthDivision (Quantity.operationNote o l r) ↔
      o = .div ∧ l.isLength = false ∧ r.isLength = true := by
  constructor
  · rintro ⟨l', r', hl', hr', h⟩
    obtain ⟨ho, hl, hr⟩ := Quantity.of_operationNote_eq h
    exact ⟨ho, hl.trans hl', hr.trans hr'⟩
  · rintro ⟨rfl, hl, hr⟩
    exact ⟨l, r, hl, hr, rfl⟩

theorem NotesLengthDivision.isSuffix {step : String} (h : NotesLengthDivision step) :
    ['t', 'r', 'u', 'e', ')'] <:+ step.toList := by
  obtain ⟨l, r, -, hr, rfl⟩ := h
  have hnoted : ['t', 'r', 'u', 'e', ')'] <:+ r.noted.toList := by
    refine ⟨(Display.plain r.magnitude ++ " (").toList, ?_⟩
    simp only [Quantity.noted, hr, String.toList_append, List.append_assoc]
    rfl
  refine hnoted.trans ⟨"Operation: ".toList ++ (l.noted.toList ++ [' ', '/', ' ']), ?_⟩
  rw [Quantity.toList_operationNote, List.append_assoc, List.append_assoc]
  rfl

/-- The evaluation comes to divide a number by a length. -/
def DividesByLength (ts : List Token) : Prop :=
  ∃ step ∈ (evaluate ts).steps, NotesLengthDivision step

/-- The steps at which a formula with lengths `k` times as long may go another way. -/
def MayDiffer (k : Rat) (step : String) : Prop := k ≠ 1 ∧ NotesLengthDivision step

/-! ## The machine -/

open Quantity

variable {k : Rat}

theorem carries_operate (o : Operator) (l r : Quantity) :
    Carries (MayDiffer k) (scale k) (operate o l r) (operate o (l.scale k) (r.scale k)) := by
  intro hsteps
  have hmem : operationNote o l r ∈ (operate o l r).steps := by
    rw [operate_eq, steps_bind]
    exact List.mem_append_left _ List.mem_cons_self
  refine combine_scale fun ⟨hk, hlength⟩ => hsteps _ hmem ⟨hk, ?_⟩
  exact notesLengthDivision_operationNote_iff.2 hlength

theorem carries_apply (o : Operation) (vs : List Quantity) :
    Carries (MayDiffer k) (List.map (scale k)) (o.apply vs) (o.apply (vs.map (scale k))) := by
  match o, vs with
  | .negate, [] | .binary _, [] | .binary _, [_] => exact carries_fail _
  | .negate, v :: vs =>
    rw [List.map_cons, Operation.apply, Operation.apply, neg_scale]
    exact carries_pure (v.neg :: vs)
  | .binary o, r :: l :: vs =>
    exact (carries_operate o l r).bind fun v => carries_pure (v :: vs)

/-- The values of two stacks are scaled, and what waits stays as it is. -/
def scaleStacks (k : Rat) (settled : List Pending × List Quantity) : List Pending × List Quantity :=
  (settled.1, settled.2.map (scale k))

theorem carries_settle (rank : Nat) (pending : List Pending) (vs : List Quantity) :
    Carries (MayDiffer k) (scaleStacks k) (settle rank pending vs)
      (settle rank pending (vs.map (scale k))) := by
  induction pending generalizing vs with
  | nil => exact carries_pure ([], vs)
  | cons p pending ih =>
    cases p with
    | opening => exact carries_pure (.opening :: pending, vs)
    | operation o =>
      rw [settle, settle]
      split
      · exact (carries_apply o vs).bind fun vs => ih vs
      · exact carries_pure (.operation o :: pending, vs)

namespace Machine

/-- The values on the stack are scaled. -/
def scale (k : Rat) (m : Machine) : Machine := { m with values := m.values.map (Quantity.scale k) }

theorem carries_pop (settled : List Pending × List Quantity) :
    Carries (MayDiffer k) (scale k) (pop settled) (pop (scaleStacks k settled)) := by
  match settled with
  | (.opening :: pending, vs) => exact carries_pure (Machine.mk vs pending true)
  | ([], _) | (.operation _ :: _, _) => exact carries_fail _

theorem carries_conclude (settled : List Pending × List Quantity) :
    Carries (MayDiffer k) (Quantity.scale k) (conclude settled)
      (conclude (scaleStacks k settled)) := by
  match settled with
  | ([], [v]) => exact carries_pure v
  | ([], []) | ([], _ :: _ :: _) | (_ :: _, _) => exact carries_fail _

theorem carries_finish (m : Machine) :
    Carries (MayDiffer k) (Quantity.scale k) m.finish (m.scale k).finish := by
  rw [finish_eq, finish_eq]
  exact (carries_settle 0 m.pending m.values).bind carries_conclude

theorem carries_operator (m : Machine) (o : Operator) :
    Carries (MayDiffer k) (scale k) (m.operator o) ((m.scale k).operator o) := by
  obtain ⟨values, pending, _ | _⟩ := m
  · cases o with
    | add => exact carries_pure (Machine.mk values pending false)
    | sub => exact carries_pure (Machine.mk values (.operation .negate :: pending) false)
    | mul | div => exact carries_fail _
  · exact (carries_settle o.rank pending values).bind fun settled =>
      carries_pure (Machine.mk settled.2 (.operation (.binary o) :: settled.1) false)

theorem carries_closing (m : Machine) :
    Carries (MayDiffer k) (scale k) m.closing (m.scale k).closing := by
  obtain ⟨values, pending, _ | _⟩ := m
  · exact carries_fail _
  · have hclosing (values : List Quantity) :
        closing ⟨values, pending, true⟩ = settle 0 pending values >>= pop :=
      step_closing_of_value values pending
    rw [scale, hclosing, hclosing]
    exact (carries_settle 0 pending values).bind carries_pop

theorem carries_opening (m : Machine) :
    Carries (MayDiffer k) (scale k) m.opening (m.scale k).opening := by
  obtain ⟨values, pending, _ | _⟩ := m
  · exact carries_pure (Machine.mk values (.opening :: pending) false)
  · exact carries_fail _

theorem carries_number (m : Machine) {text text' : List Char} {name name' : Option (List Char)}
    {q : Quantity} (h : (Quantity.read text name).result = .ok q)
    (h' : (Quantity.read text' name').result = .ok (q.scale k)) :
    Carries (MayDiffer k) (scale k) (m.number text name) ((m.scale k).number text' name') := by
  obtain ⟨values, pending, _ | _⟩ := m
  · exact (carries_of_ok h h').bind fun v => carries_pure (Machine.mk (v :: values) pending true)
  · exact carries_fail _

end Machine

/-! ## Formulas -/

/--
The second token is the first with a length `k` times as long, in any unit. Other tokens are alike;
two numbers are alike if they have the same value.
-/
inductive Token.Scaled (k : Rat) : Token → Token → Prop
  | mark (m : Mark) : Scaled k (.mark m) (.mark m)
  | number {text text' : List Char} {v : Rat}
      (h : (Quantity.read text none).result = .ok ⟨v, false⟩)
      (h' : (Quantity.read text' none).result = .ok ⟨v, false⟩) :
      Scaled k (.number text none) (.number text' none)
  | length {text text' name name' : List Char} {v : Rat}
      (h : (Quantity.read text (some name)).result = .ok ⟨v, true⟩)
      (h' : (Quantity.read text' (some name')).result = .ok ⟨k * v, true⟩) :
      Scaled k (.number text (some name)) (.number text' (some name'))

/-- **A token leads to the same stacks but for the scale of the lengths.** -/
theorem Token.Scaled.carries_step {t t' : Token} (h : t.Scaled k t') (m : Machine) :
    Carries (MayDiffer k) (Machine.scale k) (m.step t) ((m.scale k).step t') := by
  cases h with
  | number h h' => exact m.carries_number h h'
  | length h h' => exact m.carries_number h h'
  | mark mark =>
    match mark with
    | .opening => exact m.carries_opening
    | .closing => exact m.carries_closing
    | .operator o => exact m.carries_operator o

variable {ts ts' : List Token}

theorem Machine.carries_run (h : List.Forall₂ (Token.Scaled k) ts ts') (m : Machine) :
    Carries (MayDiffer k) (scale k) (m.run ts) ((m.scale k).run ts') := by
  induction h generalizing m with
  | nil => exact carries_pure m
  | cons ht _ ih =>
    simp only [run, List.foldlM_cons]
    exact (ht.carries_step m).bind fun m => ih m

theorem carries_evaluate (h : List.Forall₂ (Token.Scaled k) ts ts') :
    Carries (MayDiffer k) (scale k) (evaluate ts) (evaluate ts') := by
  have hnil : ts ≠ [] ↔ ts' ≠ [] := by cases h <;> simp
  refine (Machine.carries_run h .initial).bind fun m => ?_
  by_cases hm : ts ≠ [] ∧ m.afterValue = false
  · rw [if_pos hm, if_pos ⟨hnil.1 hm.1, hm.2⟩]
    exact carries_fail _
  · rw [if_neg hm, if_neg fun hm' => hm ⟨hnil.2 hm'.1, hm'.2⟩]
    refine m.carries_finish.bind fun v => ?_
    exact (carries_of_ok (g := id) rfl rfl).bind fun _ => carries_pure v

/--
**Evaluation is homogeneous in the lengths.** Let each length of a formula be `k` times the length
in its place in another one, in any unit, and let the two be alike otherwise. Unless the evaluation
divides a number by a length, the formula has a value if and only if the other one has one, and both
are lengths or both are numbers: a length is `k` times the other, and a number is the same. If `k`
is one, two lengths that are converted to output units are the same in meters, whatever the formulas
and the output units.
-/
theorem evaluate_scaled (h : List.Forall₂ (Token.Scaled k) ts ts') :
    (¬ DividesByLength ts → (evaluate ts').result = (evaluate ts).result.map (scale k)) ∧
    (k = 1 → ∀ (u w : OutputUnit) (q : Quantity), (evaluate ts).result = .ok q →
      q.isLength = true → ∃ q' x y, (evaluate ts').result = .ok q' ∧
        (q.convert u).result = .ok ⟨x, true⟩ ∧ (q'.convert w).result = .ok ⟨y, true⟩ ∧
        u.toMeters x = w.toMeters y) := by
  constructor
  · intro hdiv
    exact carries_evaluate h fun step hstep hdiffer => hdiv ⟨step, hstep, hdiffer.2⟩
  · rintro rfl u w q hq hlength
    have hsame : (evaluate ts').result = .ok q := by
      rw [carries_evaluate h fun step _ hdiffer => hdiffer.1 rfl, map_scale_one, hq]
    refine ⟨q, u.ofMeters q.magnitude, w.ofMeters q.magnitude, hsame, ?_, ?_, ?_⟩
    · rw [convert, if_pos hlength]
      rfl
    · rw [convert, if_pos hlength]
      rfl
    · rw [u.toMeters_ofMeters, w.toMeters_ofMeters]

/-- The half of a length. -/
def halved (text name : List Char) : List Token :=
  [.number text (some name), .mark (.operator .div), .number ['2'] none]

/-- Half of 72 inches is twice the half of three feet, and half of 36 inches is that half. -/
theorem evaluate_scaled_halved :
    (evaluate (halved ['7', '2'] ['i', 'n'])).result = .ok (scale 2 ⟨4572 / 10000, true⟩) ∧
    ∃ q' x y, (evaluate (halved ['3', '6'] ['i', 'n'])).result = .ok q' ∧
      (convert (.single .foot) ⟨4572 / 10000, true⟩).result = .ok ⟨x, true⟩ ∧
      (q'.convert (.single .meter)).result = .ok ⟨y, true⟩ ∧
      (OutputUnit.single .foot).toMeters x = (OutputUnit.single .meter).toMeters y := by
  have hscaled {k : Rat} {text name : List Char}
      (h : (Quantity.read text (some name)).result = .ok ⟨k * (9144 / 10000), true⟩) :
      List.Forall₂ (Token.Scaled k) (halved ['3'] ['f', 't']) (halved text name) := by
    have hfeet : (Quantity.read ['3'] (some ['f', 't'])).result = .ok ⟨9144 / 10000, true⟩ := by
      decide +kernel
    have htwo : (Quantity.read ['2'] none).result = .ok ⟨2, false⟩ := by
      decide +kernel
    exact .cons (.length hfeet h) (.cons (.mark _) (.cons (.number htwo htwo) .nil))
  have hdiv : ¬ DividesByLength (halved ['3'] ['f', 't']) := by
    rintro ⟨step, hstep, hnotes⟩
    have hends : ∀ step ∈ (evaluate (halved ['3'] ['f', 't'])).steps,
        ¬ ['t', 'r', 'u', 'e', ')'] <:+ step.toList := by
      decide +kernel
    exact hends step hstep hnotes.isSuffix
  have hhalf : (evaluate (halved ['3'] ['f', 't'])).result = .ok ⟨4572 / 10000, true⟩ := by
    decide +kernel
  constructor
  · have htwice : (evaluate (halved ['7', '2'] ['i', 'n'])).result =
        (evaluate (halved ['3'] ['f', 't'])).result.map (scale 2) :=
      (evaluate_scaled (hscaled (by decide +kernel))).1 hdiv
    rw [htwice, hhalf]
    rfl
  · exact (evaluate_scaled (hscaled (by decide +kernel))).2 rfl _ _ _ hhalf rfl

end Footrule
