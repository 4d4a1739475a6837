import Footrule.Proofs.Written.Scan

/-!
# Written expressions in pieces

A written expression is cut into pieces: numbers with their units, lengths in feet and inches,
signs, operators with a space on each side or tight, and parentheses. Preparing a formula changes
single pieces only, so that the pieces show what is kept: that values and operators alternate, and
what follows a division sign (`Flow`). After a value a text goes on with an operator or a closing
parenthesis, or ends (`Flow.closes`).
-/

namespace Footrule

/-- A length in feet and then one in inches, written side by side. -/
structure Compound where
  feet : PlainLiteral
  feetSuffix : Suffix
  gap : List Char
  inches : PlainLiteral
  inchesSuffix : Suffix
  isFoot : feetSuffix.unit = .foot
  blank : ∀ c ∈ gap, isBlank c = true
  isInch : inchesSuffix.unit = .inch

/-- A piece of a written expression. -/
inductive Piece
  | measure (m : Measure)
  | compound (c : Compound)
  | sign (minus : Bool)
  | operator (o : Operator) (tight : Bool)
  | opening
  | closing

namespace Compound

/-- The feet of a compound. -/
def first (c : Compound) : Measure := ⟨c.feet, some c.feetSuffix⟩

/-- The inches of a compound. -/
def second (c : Compound) : Measure := ⟨c.inches, some c.inchesSuffix⟩

/-- How a compound is written. -/
def text (c : Compound) : List Char := c.first.text ++ (c.gap ++ c.second.text)

end Compound

/-- The sum of two measures, in parentheses. -/
def Measure.sum (l r : Measure) : Factor Numeral :=
  .group (.binary (.term (.factor (.number l.numeral))) .add rfl (.factor (.number r.numeral)))

namespace Piece

/-- How a piece is written. -/
def text : Piece → List Char
  | measure m => m.text
  | compound c => c.text
  | sign minus => if minus then ['-'] else ['+']
  | operator o tight => if tight then [o.sign] else [' ', o.sign, ' ']
  | opening => ['(']
  | closing => [')']

/-- The tokens of a piece; a compound stands for the sum of its two lengths. -/
def tokens : Piece → List Token
  | measure m => [m.numeral.token]
  | compound c => (c.first.sum c.second).tokens
  | sign minus => [.mark (.operator (if minus then .sub else .add))]
  | operator o _ => [.mark (.operator o)]
  | opening => [.mark .opening]
  | closing => [.mark .closing]

/-- The piece with a space on each side, if it is an operator. -/
def loosen : Piece → Piece
  | operator o _ => operator o false
  | p => p

/-- The piece carries no unit. -/
def Unitless : Piece → Prop
  | measure m => m.suffix = none
  | compound _ => False
  | _ => True

@[simp] theorem tokens_loosen (q : Piece) : q.loosen.tokens = q.tokens := by cases q <;> rfl

theorem unitless_loosen {q : Piece} : q.loosen.Unitless ↔ q.Unitless := by cases q <;> rfl

/-- How a sequence of pieces is written. -/
def written (ps : List Piece) : List Char := ps.flatMap text

@[simp] theorem written_nil : written [] = [] := rfl

@[simp] theorem written_cons (p : Piece) (ps : List Piece) :
    written (p :: ps) = p.text ++ written ps := rfl

@[simp] theorem written_singleton (p : Piece) : written [p] = p.text := List.append_nil _

@[simp] theorem written_append (ps qs : List Piece) :
    written (ps ++ qs) = written ps ++ written qs := List.flatMap_append

end Piece

/-! ## The pieces of an expression -/

section Pieces

variable {α : Type} (f : α → Piece)

mutual

/-- The pieces of an expression, given the pieces of its numbers. -/
def Expression.pieces : Expression α → List Piece
  | .term t => t.pieces
  | .binary l o _ r => l.pieces ++ .operator o false :: r.pieces

/-- The pieces of a term. -/
def Term.pieces : Term α → List Piece
  | .factor u => u.pieces
  | .binary l o _ r => l.pieces ++ .operator o false :: r.pieces

/-- The pieces of a factor. -/
def Factor.pieces : Factor α → List Piece
  | .number a => [f a]
  | .negative u => .sign true :: u.pieces
  | .positive u => .sign false :: u.pieces
  | .group e => .opening :: e.pieces ++ [.closing]

end

mutual

theorem Expression.written_pieces :
    ∀ e : Expression α, Piece.written (e.pieces f) = e.text fun a => (f a).text
  | .term t => t.written_pieces
  | .binary l o _ r => by
    rw [Expression.pieces, Piece.written_append, Piece.written_cons, l.written_pieces,
      r.written_pieces, Expression.text, List.append_assoc]
    rfl

theorem Term.written_pieces :
    ∀ t : Term α, Piece.written (t.pieces f) = t.text fun a => (f a).text
  | .factor u => u.written_pieces
  | .binary l o _ r => by
    rw [Term.pieces, Piece.written_append, Piece.written_cons, l.written_pieces, r.written_pieces,
      Term.text, List.append_assoc]
    rfl

theorem Factor.written_pieces :
    ∀ u : Factor α, Piece.written (u.pieces f) = u.text fun a => (f a).text
  | .number a => Piece.written_singleton (f a)
  | .negative u => by rw [Factor.pieces, Piece.written_cons, u.written_pieces]; rfl
  | .positive u => by rw [Factor.pieces, Piece.written_cons, u.written_pieces]; rfl
  | .group e => by
    rw [Factor.pieces, Piece.written_append, Piece.written_cons, e.written_pieces]
    rfl

end

variable {f} {g : α → Factor Numeral}

mutual

/-- The tokens of the pieces of an expression are those of the expression. -/
theorem Expression.tokens_pieces (h : ∀ a, (f a).tokens = (g a).tokens) :
    ∀ e : Expression α, (e.pieces f).flatMap Piece.tokens = (e.subst g).tokens
  | .term t => t.tokens_pieces h
  | .binary l o _ r => by
    rw [Expression.pieces, List.flatMap_append, List.flatMap_cons, l.tokens_pieces h,
      r.tokens_pieces h]
    rfl

theorem Term.tokens_pieces (h : ∀ a, (f a).tokens = (g a).tokens) :
    ∀ t : Term α, (t.pieces f).flatMap Piece.tokens = (t.subst g).tokens
  | .factor u => u.tokens_pieces h
  | .binary l o _ r => by
    rw [Term.pieces, List.flatMap_append, List.flatMap_cons, l.tokens_pieces h, r.tokens_pieces h]
    rfl

theorem Factor.tokens_pieces (h : ∀ a, (f a).tokens = (g a).tokens) :
    ∀ u : Factor α, (u.pieces f).flatMap Piece.tokens = (u.subst g).tokens
  | .number a => by rw [Factor.pieces, List.flatMap_singleton, h, Factor.subst]
  | .negative u => by rw [Factor.pieces, List.flatMap_cons, u.tokens_pieces h]; rfl
  | .positive u => by rw [Factor.pieces, List.flatMap_cons, u.tokens_pieces h]; rfl
  | .group e => by
    rw [Factor.pieces, List.flatMap_append, List.flatMap_cons, e.tokens_pieces h]
    rfl

end

end Pieces

section Forall

variable {α : Type} {f : α → Piece} {P : Piece → Prop}

mutual

/-- What holds of the pieces of numbers, and of signs and parentheses, holds of all pieces. -/
theorem Expression.forall_mem_pieces (hf : ∀ a, P (f a)) (hs : ∀ minus, P (.sign minus))
    (ho : ∀ o, P (.operator o false)) (hg : P .opening ∧ P .closing) :
    ∀ (e : Expression α), ∀ q ∈ e.pieces f, P q
  | .term t => t.forall_mem_pieces hf hs ho hg
  | .binary l o _ r => List.forall_mem_append.2 ⟨l.forall_mem_pieces hf hs ho hg,
      List.forall_mem_cons.2 ⟨ho o, r.forall_mem_pieces hf hs ho hg⟩⟩

theorem Term.forall_mem_pieces (hf : ∀ a, P (f a)) (hs : ∀ minus, P (.sign minus))
    (ho : ∀ o, P (.operator o false)) (hg : P .opening ∧ P .closing) :
    ∀ (t : Term α), ∀ q ∈ t.pieces f, P q
  | .factor u => u.forall_mem_pieces hf hs ho hg
  | .binary l o _ r => List.forall_mem_append.2 ⟨l.forall_mem_pieces hf hs ho hg,
      List.forall_mem_cons.2 ⟨ho o, r.forall_mem_pieces hf hs ho hg⟩⟩

theorem Factor.forall_mem_pieces (hf : ∀ a, P (f a)) (hs : ∀ minus, P (.sign minus))
    (ho : ∀ o, P (.operator o false)) (hg : P .opening ∧ P .closing) :
    ∀ (u : Factor α), ∀ q ∈ u.pieces f, P q
  | .number a => List.forall_mem_singleton.2 (hf a)
  | .negative u => List.forall_mem_cons.2 ⟨hs true, u.forall_mem_pieces hf hs ho hg⟩
  | .positive u => List.forall_mem_cons.2 ⟨hs false, u.forall_mem_pieces hf hs ho hg⟩
  | .group e => List.forall_mem_cons.2 ⟨hg.1, List.forall_mem_append.2
      ⟨e.forall_mem_pieces hf hs ho hg, List.forall_mem_singleton.2 hg.2⟩⟩

end

end Forall

/-! ## The flow of pieces -/

/-- What follows a division sign: a parenthesis or a number of a given form. -/
def StartsDivisor (p : Measure → Prop) (tight : Bool) : List Piece → Prop
  | .opening :: _ => True
  | .measure m :: _ =>
    p m ∧ (tight = true → ∀ run decimals, m.number.literal ≠ .decimal run decimals)
  | _ => False

/--
Values and operators alternate, and division signs are followed by divisors of a given form; a tight
one is not followed by a decimal. The flag says whether a value is complete before the pieces.
-/
inductive Flow (p : Measure → Prop) : Bool → List Piece → Prop
  | nil : Flow p true []
  | measure (m : Measure) {ps : List Piece} : Flow p true ps → Flow p false (.measure m :: ps)
  | compound (c : Compound) {ps : List Piece} : Flow p true ps → Flow p false (.compound c :: ps)
  | sign (minus : Bool) {ps : List Piece} : Flow p false ps → Flow p false (.sign minus :: ps)
  | opening {ps : List Piece} : Flow p false ps → Flow p false (.opening :: ps)
  | closing {ps : List Piece} : Flow p true ps → Flow p true (.closing :: ps)
  | operator (o : Operator) (tight : Bool) {ps : List Piece} :
      (o = .div → StartsDivisor p tight ps) → Flow p false ps →
      Flow p true (.operator o tight :: ps)

section Pieces

variable {α : Type} {f : α → Piece} {p : Measure → Prop} {q : α → Prop}

/-- The piece is a number or a length in feet and inches. -/
def Piece.IsValue : Piece → Prop
  | .measure _ | .compound _ => True
  | _ => False

theorem Flow.value {x : Piece} (hx : x.IsValue) {ps : List Piece} (h : Flow p true ps) :
    Flow p false (x :: ps) := by
  cases x with
  | measure m => exact .measure m h
  | compound c => exact .compound c h
  | _ => exact hx.elim

/-- A change of pieces that keeps all but the values. -/
def KeepsMarks (f : Piece → List Piece) : Prop := ∀ q, ¬ q.IsValue → f q = [q]

/-- A change of pieces keeps their order, if it does so at values and divisors. -/
theorem Flow.flatMap {f : Piece → List Piece} {p p' : Measure → Prop} (hf : KeepsMarks f)
    (hvalue : ∀ {x ps}, x.IsValue → Flow p' true ps → Flow p' false (f x ++ ps))
    (hdiv : ∀ {tight ps}, StartsDivisor p tight ps → StartsDivisor p' tight (ps.flatMap f))
    {b : Bool} {ps : List Piece} (h : Flow p b ps) : Flow p' b (ps.flatMap f) := by
  induction h with
  | nil => exact .nil
  | measure m h ih => exact hvalue trivial ih
  | compound c h ih => exact hvalue trivial ih
  | sign minus h ih =>
    rw [List.flatMap_cons, hf _ id]
    exact .sign minus ih
  | opening h ih =>
    rw [List.flatMap_cons, hf _ id]
    exact .opening ih
  | closing h ih =>
    rw [List.flatMap_cons, hf _ id]
    exact .closing ih
  | operator o tight hd h ih =>
    rw [List.flatMap_cons, hf _ id]
    exact .operator o tight (fun ho => hdiv (hd ho)) ih

/-- The sum of two measures in parentheses is a value. -/
theorem Flow.sum {p : Measure → Prop} {ps : List Piece} (h : Flow p true ps) (l r : Measure) :
    Flow p false
      ([.opening, .measure l, .operator .add true, .measure r, .closing] ++ ps) :=
  .opening (.measure l (.operator .add true (fun ho => Operator.noConfusion ho)
    (.measure r (.closing h))))

theorem Piece.loosen_of_isValue {x : Piece} (hx : x.IsValue) : x.loosen = x := by
  cases x with
  | measure m => rfl
  | compound c => rfl
  | _ => exact hx.elim

/-- The pieces of numbers are values, and numbers of the one form are divisors of the other. -/
structure Presents (f : α → Piece) (p : Measure → Prop) (q : α → Prop) : Prop where
  value : ∀ a, (f a).IsValue
  divisor : ∀ a, q a → ∀ ps, StartsDivisor p false (f a :: ps)

theorem Presents.startsDivisor_pieces (hf : Presents f p q) {u : Factor α} (h : u.MayDivide q)
    (ps : List Piece) : StartsDivisor p false (u.pieces f ++ ps) := by
  cases u with
  | number a => exact hf.divisor a h ps
  | negative u => exact h.elim
  | positive u => exact h.elim
  | group e => trivial

mutual

/-- The pieces of an expression whose divisors fit are in order. -/
theorem Expression.flow_pieces (hf : Presents f p q) :
    ∀ {e : Expression α} {ps : List Piece}, e.DivisorsFit q → Flow p true ps →
      Flow p false (e.pieces f ++ ps)
  | .term _, _, he, hps => Term.flow_pieces hf he hps
  | .binary l o ho r, ps, he, hps => by
    have hr : Flow p false (r.pieces f ++ ps) := Term.flow_pieces hf he.2 hps
    have hdiv : o ≠ .div := by
      rintro rfl
      cases ho
    rw [Expression.pieces, List.append_assoc]
    exact Expression.flow_pieces hf he.1 (.operator o false (fun h => (hdiv h).elim) hr)

theorem Term.flow_pieces (hf : Presents f p q) :
    ∀ {t : Term α} {ps : List Piece}, t.DivisorsFit q → Flow p true ps →
      Flow p false (t.pieces f ++ ps)
  | .factor _, _, ht, hps => Factor.flow_pieces hf ht hps
  | .binary l o _ r, ps, ht, hps => by
    obtain ⟨hl, hr, hdiv⟩ := ht
    have hr : Flow p false (r.pieces f ++ ps) := Factor.flow_pieces hf hr hps
    rw [Term.pieces, List.append_assoc]
    exact Term.flow_pieces hf hl
      (.operator o false (fun h => hf.startsDivisor_pieces (hdiv h) ps) hr)

theorem Factor.flow_pieces (hf : Presents f p q) :
    ∀ {u : Factor α} {ps : List Piece}, u.DivisorsFit q → Flow p true ps →
      Flow p false (u.pieces f ++ ps)
  | .number a, _, _, hps => hps.value (hf.value a)
  | .negative u, _, hu, hps => .sign true (u.flow_pieces hf hu hps)
  | .positive u, _, hu, hps => .sign false (u.flow_pieces hf hu hps)
  | .group e, ps, he, hps => by
    rw [Factor.pieces, List.append_assoc]
    exact .opening (e.flow_pieces hf he (.closing hps))

end

end Pieces

/-! ## What follows a value -/

/-- The signs that may follow a value. -/
def closers : List Char := [')', '+', '-', '*', '/']

/-- The text ends, or goes on with an operator or a closing parenthesis. -/
def Closes (k : List Char) : Prop := ∀ c ∈ (trimStart k).head?, c ∈ closers

namespace Closes

variable {k : List Char}

theorem bounded (hk : Closes k) : Bounded k := fun c hc =>
  (by decide : ∀ c ∈ closers, isDigit c = false ∧ c ≠ '.') c (hk c hc)

/-- The first character is a blank or one of the signs. -/
theorem head (hk : Closes k) : ∀ c ∈ k.head?, isBlank c = true ∨ c ∈ closers :=
  head_of_trimStart hk

theorem noLetterFirst_trimStart (hk : Closes k) : ∀ c ∈ (trimStart k).head?, c.isAlpha = false :=
  fun c hc => (by decide : ∀ c ∈ closers, c.isAlpha = false) c (hk c hc)

end Closes

/-! ## The ends of a written expression -/

/-- A value begins with no blank. -/
theorem Flow.isBlank_head {p : Measure → Prop} {ps : List Piece} (h : Flow p false ps) :
    ∀ c ∈ (Piece.written ps).head?, isBlank c = false := by
  cases h with
  | measure m h =>
    rw [Piece.written_cons, Piece.text, Measure.text, List.append_assoc]
    exact Literal.isBlank_head_text m.number.plain.digital _
  | compound c h =>
    rw [Piece.written_cons, Piece.text, Compound.text, Measure.text, List.append_assoc,
      List.append_assoc]
    exact Literal.isBlank_head_text c.feet.plain.digital _
  | sign minus h =>
    intro c hc
    cases minus <;> obtain rfl := Option.some.inj hc <;> decide
  | opening h =>
    intro c hc
    obtain rfl := Option.some.inj hc
    decide

/-- A value is not empty. -/
theorem Flow.written_ne_nil {p : Measure → Prop} {ps : List Piece} (h : Flow p false ps) :
    Piece.written ps ≠ [] := by
  cases h with
  | measure m h =>
    obtain ⟨c, cs, hc, -⟩ := Literal.head_text m.number.plain.digital []
    rw [List.append_nil] at hc
    simp [Piece.text, Measure.text, PlainLiteral.text, hc]
  | compound c h =>
    obtain ⟨d, cs, hd, -⟩ := Literal.head_text c.feet.plain.digital []
    rw [List.append_nil] at hd
    simp [Piece.text, Compound.text, Compound.first, Measure.text, PlainLiteral.text, hd]
  | sign minus h => cases minus <;> exact List.cons_ne_nil _ _
  | opening h => exact List.cons_ne_nil _ _

theorem Operator.sign_mem_closers (o : Operator) : o.sign ∈ closers := by cases o <;> decide

theorem Operator.isBlank_sign (o : Operator) : isBlank o.sign = false := by cases o <;> decide

/-- **After a value comes the end, an operator or a closing parenthesis.** -/
theorem Flow.closes {p : Measure → Prop} {ps : List Piece} (h : Flow p true ps) :
    Closes (Piece.written ps) := by
  cases h with
  | nil => exact fun c hc => (Option.not_mem_none c hc).elim
  | closing h =>
    have hblank : isBlank ')' = false := by decide
    exact (forall_head_gap_cons blank_nil hblank _).2 (by decide)
  | @operator o tight ps hd h =>
    cases tight with
    | true => exact (forall_head_gap_cons blank_nil o.isBlank_sign _).2 o.sign_mem_closers
    | false => exact (forall_head_gap_cons blank_space o.isBlank_sign _).2 o.sign_mem_closers

end Footrule
