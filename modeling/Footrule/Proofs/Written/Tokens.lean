import Footrule.Lexeme
import Footrule.Proofs.Written.Lengths
import Footrule.Proofs.Written.Reading

/-!
# The tokens of a prepared expression

A prepared expression is cut into the tokens of its pieces, except that a division of two whole
numbers that is written without spaces is a fraction where it does not follow a division sign
(`Flow.lexed`). Nothing but blanks lies between the tokens, so that the formula is accepted
(`Flow.result_tokenize`).
-/

namespace Footrule

open Piece

/-! ## Stray characters -/

theorem stray_of_mem_gaps {ls : List Lexeme} {gap : List Char} {c : Char} (hg : gap ∈ gaps ls)
    (hc : c ∈ gap) : Lexeme.stray c ∈ ls := by
  induction ls generalizing gap with
  | nil =>
    rw [List.mem_singleton.1 hg] at hc
    cases hc
  | cons l ls ih =>
    cases l with
    | stray d =>
      rw [gaps] at hg
      cases h : gaps ls with
      | nil =>
        rw [h] at hg
        cases hg
      | cons first others =>
        rw [h, List.modifyHead_cons, List.mem_cons] at hg
        rcases hg with rfl | hg
        · rcases List.mem_cons.1 hc with rfl | hc
          · exact List.mem_cons_self
          · exact List.mem_cons_of_mem _ (ih (by rw [h]; exact List.mem_cons_self) hc)
        · exact List.mem_cons_of_mem _ (ih (by rw [h]; exact List.mem_cons_of_mem _ hg) hc)
    | number l name =>
      rcases List.mem_cons.1 hg with rfl | hg
      · cases hc
      · exact List.mem_cons_of_mem _ (ih hg hc)
    | mark m =>
      rcases List.mem_cons.1 hg with rfl | hg
      · cases hc
      · exact List.mem_cons_of_mem _ (ih hg hc)

/-- Blanks are not unexpected. -/
theorem firstUnexpected?_eq_none {ls : List Lexeme}
    (h : ∀ c, Lexeme.stray c ∈ ls → isBlank c = true) : firstUnexpected? ls = none := by
  refine List.find?_eq_none.2 fun stretch hs => ?_
  obtain ⟨gap, hg, rfl⟩ := List.mem_map.1 hs
  have hblank : trim gap = [] := trim_eq_nil_iff.2 fun c hc => h c (stray_of_mem_gaps hg hc)
  simp [hblank]

/-! ## Lexemes -/

/-- The lexemes are regrouped tokens with blanks between them. -/
structure Lexed (dividing : Bool) (ls : List Lexeme) (ts : List Token) : Prop where
  regrouped : Regrouped dividing (tokensOf dividing ls) ts
  blank : ∀ c, Lexeme.stray c ∈ ls → isBlank c = true

namespace Lexed

variable {dividing : Bool} {ls : List Lexeme} {ts : List Token}

theorem nil : Lexed dividing [] [] := ⟨.nil, fun _ h => (List.not_mem_nil h).elim⟩

theorem stray {c : Char} (hc : isBlank c = true) (h : Lexed dividing ls ts) :
    Lexed dividing (.stray c :: ls) ts := by
  refine ⟨h.regrouped, fun d hd => ?_⟩
  rcases List.mem_cons.1 hd with hd | hd
  · cases hd
    exact hc
  · exact h.blank d hd

/-- A mark after which it is known whether a divisor comes. -/
theorem mark {m : Mark} (hm : (Token.mark m).divides dividing = decide (m = .operator .div))
    (h : Lexed (decide (m = .operator .div)) ls ts) :
    Lexed dividing (.mark m :: ls) (.mark m :: ts) := by
  refine ⟨.keep (.mark m) ?_, fun d hd => h.blank d ((List.mem_cons.1 hd).resolve_left nofun)⟩
  rw [hm]
  exact h.regrouped

/-- A number that is not cut in two. -/
theorem number {l : Literal} {name : Option (List Char)}
    (hl : dividing = true → ¬ l.IsFraction) (h : Lexed false ls ts) :
    Lexed dividing (.number l name :: ls) (.number l.text name :: ts) := by
  have hts : numberTokens dividing l name = [.number l.text name] := by
    unfold numberTokens
    split
    · exact (hl rfl trivial).elim
    · rfl
  refine ⟨?_, fun d hd => h.blank d ((List.mem_cons.1 hd).resolve_left nofun)⟩
  rw [tokensOf, hts]
  exact .keep _ h.regrouped

/-- A fraction that stands for a division, or is cut in two after a division sign. -/
theorem fraction {num den : List Char} (hn : PlainRun num) (hd : PlainRun den)
    (hts : FollowsValue ts) (h : Lexed false ls ts) :
    Lexed dividing (.number (.fraction num den) none :: ls)
      (.number num none :: .mark (.operator .div) :: .number den none :: ts) := by
  refine ⟨?_, fun d hd => h.blank d ((List.mem_cons.1 hd).resolve_left nofun)⟩
  cases dividing with
  | true => exact .keep _ (.keep _ (.keep _ h.regrouped))
  | false => exact .fraction (readsAsQuotient_fraction hn hd) hts h.regrouped

end Lexed

theorem lexemes_single {mode : Mode} {c : Char} (hc : isDigit c = false ∧ c ≠ '.')
    (k : List Char) : lexemes mode (c :: k) = .single c :: lexemes mode k :=
  lexemes_of_not_scan? (Literal.scan?_eq_none fun d hd => by rwa [← Option.some.inj hd])

theorem Lexeme.single_space : single ' ' = .stray ' ' := by decide

theorem Lexeme.single_sign (m : Mark) : single m.sign = .mark m := by
  rw [single, Mark.ofSign?_sign]

theorem Mark.sign_neither (m : Mark) : isDigit m.sign = false ∧ m.sign ≠ '.' := by
  cases m with
  | operator o => cases o <;> decide
  | _ => decide

theorem Mark.isBlank_sign (m : Mark) : isBlank m.sign = false := by
  cases m with
  | operator o => exact o.isBlank_sign
  | _ => decide

theorem Lexed.space {mode : Mode} {dividing : Bool} {k : List Char} {ts : List Token}
    (h : Lexed dividing (lexemes mode k) ts) : Lexed dividing (lexemes mode (' ' :: k)) ts := by
  rw [lexemes_single (by decide), Lexeme.single_space]
  exact .stray isBlank_space h

/-- A sign after which it is known whether a divisor comes. -/
theorem Lexed.sign {mode : Mode} {dividing : Bool} {m : Mark} {k : List Char} {ts : List Token}
    (hm : (Token.mark m).divides dividing = decide (m = .operator .div))
    (h : Lexed (decide (m = .operator .div)) (lexemes mode k) ts) :
    Lexed dividing (lexemes mode (m.sign :: k)) (.mark m :: ts) := by
  rw [lexemes_single m.sign_neither, Lexeme.single_sign]
  exact .mark hm h

/-! ## Names of units after numbers -/

/-- What a number carries as the name of its unit: letters, in basic mode nothing. -/
def IsUnitName (mode : Mode) : Option (List Char) → Prop
  | none => True
  | some letters => mode = .advanced ∧ letters ≠ [] ∧ ∀ c ∈ letters, c.isAlpha = true

/-- The name of a unit in front of a text takes all letters there are. -/
structure EndsName (mode : Mode) (name : Option (List Char)) (rest : List Char) : Prop where
  letters : IsUnitName mode name
  longest : mode = .advanced → ∀ c ∈ rest.head?, c.isAlpha = false

theorem unitName_of_endsName {mode : Mode} {name : Option (List Char)} {rest : List Char}
    (h : EndsName mode name rest) : Lexeme.unitName mode (name.getD [] ++ rest) = (name, rest) := by
  cases name with
  | none =>
    cases mode with
    | basic => rfl
    | advanced =>
      rw [Option.getD_none, List.nil_append, Lexeme.unitName,
        takeWhile_eq_nil_of_head (h.longest rfl)]
  | some letters =>
    obtain ⟨⟨rfl, hne, hletters⟩, hrest⟩ := h
    obtain ⟨c, name, rfl⟩ := List.exists_cons_of_ne_nil hne
    rw [Option.getD_some, Lexeme.unitName, takeWhile_append_of_head hletters (hrest rfl),
      dropWhile_append_of_head hletters (hrest rfl)]

theorem unitName_none {mode : Mode} {k : List Char} (hk : NoLetterFirst k) :
    Lexeme.unitName mode k = (none, k) := by
  have hend : EndsName mode none k := ⟨trivial, fun _ c hc => (hk c hc).1⟩
  exact unitName_of_endsName hend

/-- A literal with the name of its unit is one lexeme before what carries neither on. -/
theorem lexemes_number {mode : Mode} {l : Literal} (hl : l.Digital) (name : Option (List Char))
    (hname : IsUnitName mode name) {k : List Char} (hk : Bounded k)
    (ha : ∀ c ∈ k.head?, c.isAlpha = false)
    (hw : name = none → (∃ run, l = .whole run) → signedRun? '/' k = none) :
    lexemes mode (l.text ++ (name.getD [] ++ k)) = .number l name :: lexemes mode k := by
  have hscan : Literal.scan? (l.text ++ (name.getD [] ++ k)) = some (l, name.getD [] ++ k) := by
    cases name with
    | none => exact Literal.scan?_text_append hl hk (hw rfl)
    | some letters =>
      obtain ⟨-, hne, hletters⟩ := hname
      refine Literal.scan?_text_append hl (hk.letters hletters) fun _ => signedRun?_eq_none ?_
      obtain ⟨c, letters, rfl⟩ := List.exists_cons_of_ne_nil hne
      rintro d hd rfl
      obtain rfl := Option.some.inj hd
      exact absurd (hletters '/' List.mem_cons_self) (by decide)
  rw [lexemes_of_scan? hscan, unitName_of_endsName ⟨hname, fun _ => ha⟩]

/-! ## Pieces -/

namespace Piece

/-- The piece is as the preparation in a mode leaves it. -/
def IsPrepared (mode : Mode) : Piece → Prop
  | measure m =>
    match mode with
    | .basic => m.suffix = none
    | .advanced => ∀ s ∈ m.suffix, s.gap = []
  | compound _ => False
  | _ => True

end Piece

/-- A mixed fraction leaves numbers without unit. -/
theorem isPrepared_sumParts {q : Piece} (h : q.Unitless) :
    ∀ r ∈ q.sumParts, r.IsPrepared .basic := by
  intro r hr
  cases q with
  | measure m =>
    obtain ⟨l, suffix⟩ := m
    rw [sumParts] at hr
    split at hr
    · simp only [List.mem_cons, List.not_mem_nil, or_false] at hr
      rcases hr with rfl | rfl | rfl | rfl | rfl
      · trivial
      · rfl
      · trivial
      · rfl
      · trivial
    · rw [List.mem_singleton.1 hr]
      exact h
  | compound c => exact h.elim
  | _ =>
    rw [List.mem_singleton.1 hr]
    trivial

/-- Feet and inches in a sum leave numbers with their units. -/
theorem isPrepared_sumLengths (q : Piece) :
    ∀ r ∈ q.closed.sumLengths, r.IsPrepared .advanced := by
  have hclosed := isClosed_closed q
  intro r hr
  cases q with
  | compound c =>
    simp only [closed, sumLengths, List.mem_cons, List.not_mem_nil, or_false] at hr
    rcases hr with rfl | rfl | rfl | rfl | rfl
    · trivial
    · rintro s ⟨⟩
      exact hclosed.1
    · trivial
    · rintro s ⟨⟩
      exact hclosed.2
    · trivial
  | measure m =>
    rw [List.mem_singleton.1 hr]
    exact hclosed
  | _ =>
    rw [List.mem_singleton.1 hr]
    trivial

section Flow

variable {mode : Mode} {b : Bool} {ps : List Piece}

/-- A measure is one lexeme, unless it is a whole number that goes on as a fraction. -/
theorem lexemes_measure {m : Measure} (hm : (Piece.measure m).IsPrepared mode) {k : List Char}
    (hk : Closes k)
    (hw : m.suffix = none → (∃ run, m.number.literal = .whole run) → signedRun? '/' k = none) :
    lexemes mode (m.text ++ k) =
      .number m.number.literal (m.suffix.map Suffix.name) :: lexemes mode k := by
  have hletter : ∀ c ∈ k.head?, c.isAlpha = false := fun c hc => (hk.noLetterFirst c hc).1
  obtain ⟨l, _ | s⟩ := m
  · rw [Measure.text_none]
    exact lexemes_number l.plain.digital none trivial hk.bounded hletter fun _ => hw rfl
  · cases mode with
    | basic => cases hm
    | advanced =>
      have hname : IsUnitName .advanced (some s.name) := ⟨rfl, s.name_ne_nil, s.isAlpha_name⟩
      rw [Measure.text_of_closed (hm s rfl)]
      exact lexemes_number l.plain.digital (some s.name) hname hk.bounded hletter nofun

theorem Flow.followsValue {p : Measure → Prop} (h : Flow p true ps) :
    FollowsValue (ps.flatMap tokens) := by
  cases h with
  | nil => trivial
  | closing h => trivial
  | operator o tight hd h => trivial

/-- Two whole numbers about a tight division sign are a fraction. -/
theorem lexed_fraction {m : Measure} {l : PlainLiteral} {run den : List Char}
    (hm : m.suffix = none) (hrun : m.number.literal = .whole run) (hden : l.literal = .whole den)
    (h : Flow Measure.Simple true ps) {dividing : Bool}
    (hps : Lexed false (lexemes mode (written ps)) (ps.flatMap tokens)) :
    Lexed dividing
      (lexemes mode (written (.measure m :: .operator .div true :: .measure l.measure :: ps)))
      ((Piece.measure m :: .operator .div true :: .measure l.measure :: ps).flatMap tokens) := by
  obtain ⟨l', suffix⟩ := m
  obtain rfl : suffix = none := hm
  have hr : PlainRun run := by
    have hplain := l'.plain
    rwa [show l'.literal = .whole run from hrun] at hplain
  have hd : PlainRun den := by
    have hplain := l.plain
    rwa [hden] at hplain
  have htext : l'.literal.text = run := by rw [show l'.literal = .whole run from hrun, Literal.text]
  have htext' : l.literal.text = den := by rw [hden, Literal.text]
  have hwritten : written (.measure ⟨l', none⟩ :: .operator .div true :: .measure l.measure :: ps) =
      (Literal.fraction run den).text ++ written ps := by
    rw [Literal.fraction_text_append, ← htext, ← htext']
    simp [Piece.text, Measure.text, PlainLiteral.text, PlainLiteral.measure, Operator.sign]
  have htokens : (Piece.measure ⟨l', none⟩ :: .operator .div true :: .measure l.measure ::
      ps).flatMap tokens = .number run none :: .mark (.operator .div) :: .number den none ::
        ps.flatMap tokens := by
    simp [Piece.tokens, Measure.numeral, Numeral.token, PlainLiteral.text, PlainLiteral.measure,
      htext, htext']
  have hscan := Literal.scan?_text_append (l := .fraction run den) ⟨hr.digits, hd.digits⟩ h.closes.bounded
    fun hw => by obtain ⟨_, hw⟩ := hw; cases hw
  rw [hwritten, htokens, lexemes_of_scan? hscan, unitName_none h.closes.noLetterFirst]
  exact .fraction hr hd h.followsValue hps

/-- A measure before which it is known whether it divides. -/
theorem lexed_measure {m : Measure} (h : Flow Measure.Simple true ps)
    (hps : ∀ q ∈ .measure m :: ps, q.IsPrepared mode) {dividing : Bool}
    (hd : dividing = true → m.Simple)
    (ih : ∀ {qs : List Piece}, qs.length ≤ ps.length → Flow Measure.Simple true qs →
      (∀ q ∈ qs, q.IsPrepared mode) → Lexed false (lexemes mode (written qs)) (qs.flatMap tokens)) :
    Lexed dividing (lexemes mode (written (.measure m :: ps)))
      ((Piece.measure m :: ps).flatMap tokens) := by
  obtain ⟨hm, hps⟩ := List.forall_mem_cons.1 hps
  have hkeep (hw : m.suffix = none → (∃ run, m.number.literal = .whole run) →
      signedRun? '/' (written ps) = none) :
      Lexed dividing (lexemes mode (written (.measure m :: ps)))
        ((Piece.measure m :: ps).flatMap tokens) := by
    rw [written_cons, Piece.text, lexemes_measure hm h.closes hw]
    refine .number (fun hdiv hf => ?_) (ih (Nat.le_refl _) h hps)
    exact (divides_simple m (hd hdiv)).2 hf
  cases hs : signedRun? '/' (written ps) with
  | none => exact hkeep fun _ _ => hs
  | some found =>
    obtain ⟨den, rest⟩ := found
    by_cases hw : m.suffix = none ∧ ∃ run, m.number.literal = .whole run
    · obtain ⟨l', qs, rfl, hden, rfl, hq⟩ := h.signedRun?_slash hs
      obtain ⟨hsuffix, run, hrun⟩ := hw
      refine lexed_fraction hsuffix hrun hden hq (ih ?_ hq fun q hq => hps q ?_)
      · simp only [List.length_cons]
        omega
      · exact List.mem_cons_of_mem _ (List.mem_cons_of_mem _ hq)
    · exact hkeep fun hs hr => (hw ⟨hs, hr⟩).elim

/-- **The lexemes of a prepared expression are its tokens, regrouped.** -/
theorem Flow.lexed (h : Flow Measure.Simple b ps) (hps : ∀ q ∈ ps, q.IsPrepared mode)
    {dividing : Bool}
    (hd : dividing = true → b = false ∧ ∃ tight, StartsDivisor Measure.Simple tight ps) :
    Lexed dividing (lexemes mode (written ps)) (ps.flatMap tokens) := by
  induction hn : ps.length using Nat.strongRecOn generalizing b ps dividing with
  | ind n ih =>
    subst hn
    have hrest {b : Bool} {qs : List Piece} (hlt : qs.length < ps.length)
        (h : Flow Measure.Simple b qs) (hqs : ∀ q ∈ qs, q.IsPrepared mode) :
        Lexed false (lexemes mode (written qs)) (qs.flatMap tokens) :=
      ih _ hlt h hqs (fun h => Bool.noConfusion h) rfl
    cases h with
    | nil =>
      rw [written_nil, lexemes_nil]
      exact .nil
    | measure m h =>
      refine lexed_measure h hps (fun hdiv => ?_) fun hlen => hrest (Nat.lt_succ_of_le hlen)
      obtain ⟨tight, hstart⟩ := (hd hdiv).2
      exact hstart.1
    | compound c h => exact (hps _ List.mem_cons_self).elim
    | sign minus h =>
      have hdiv : dividing = false := Bool.eq_false_iff.2 fun hdiv => by
        obtain ⟨tight, hstart⟩ := (hd hdiv).2
        exact hstart
      have hsign := hrest (Nat.lt_succ_self _) h (List.forall_mem_cons.1 hps).2
      subst hdiv
      cases minus with
      | true => exact .sign (m := .operator .sub) rfl hsign
      | false => exact .sign (m := .operator .add) rfl hsign
    | opening h =>
      exact .sign (m := .opening) rfl
        (hrest (Nat.lt_succ_self _) h (List.forall_mem_cons.1 hps).2)
    | closing h =>
      exact .sign (m := .closing) rfl
        (hrest (Nat.lt_succ_self _) h (List.forall_mem_cons.1 hps).2)
    | @operator o tight ps hdo h =>
      have hdiv : dividing = false := Bool.eq_false_iff.2 fun hdiv => Bool.noConfusion (hd hdiv).1
      subst hdiv
      have hright : Lexed (decide (Mark.operator o = .operator .div)) (lexemes mode (written ps))
          (ps.flatMap tokens) :=
        ih _ (Nat.lt_succ_self _) h (List.forall_mem_cons.1 hps).2
          (fun ho => ⟨rfl, tight, hdo (Mark.operator.inj (of_decide_eq_true ho))⟩) rfl
      have hm : (Token.mark (.operator o)).divides false =
          decide (Mark.operator o = .operator .div) := by
        cases o <;> rfl
      cases tight with
      | true => exact .sign hm hright
      | false => exact .space (.sign hm (.space hright))

/-- **A prepared expression is accepted, with its tokens regrouped.** -/
theorem Flow.result_tokenize (h : Flow Measure.Simple false ps)
    (hps : ∀ q ∈ ps, q.IsPrepared mode) :
    ∃ ts, (tokenize mode (written ps)).result = .ok ts ∧
      Regrouped false ts (ps.flatMap tokens) := by
  have hlexed : Lexed false (lexemes mode (written ps)) (ps.flatMap tokens) :=
    h.lexed hps fun h => Bool.noConfusion h
  refine ⟨_, ?_, hlexed.regrouped⟩
  rw [tokenize, firstUnexpected?_eq_none hlexed.blank]
  rfl

end Flow

end Footrule
