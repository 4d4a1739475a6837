import Footrule.Proofs.Exact.Spans
import Mathlib.Data.List.Chain

/-!
# Printed tokens

Tokens are printed with one space between them (`Token.printed`). Blanks also stand within mixed
fractions, and a slash within fractions, so that not every list of tokens is read back: two numbers
must not be neighbours, and a fraction without a unit must not follow a division sign, where it is
taken apart (`Printable`). Tokens that keep to this are read back as they are, and the tokens of an
ASCII text keep to it if no two of its numbers are neighbours (`tokenize_printed`).
-/

namespace Footrule

namespace Token

/-! ## Tokens that can be printed -/

/-- The number is written in the digits `0` to `9`, and its unit, if any, in letters. -/
def IsPlain (mode : Mode) : Token → Prop
  | number text name => (∃ l : Literal, l.Plain ∧ l.text = text) ∧ IsUnitName mode name
  | mark _ => True

/-- The token is a number. -/
def IsNumber : Token → Prop
  | number _ _ => True
  | mark _ => False

/-- The token is a fraction without whole part and unit. -/
def IsBareFraction : Token → Prop
  | number text none => ∃ l : Literal, l.Plain ∧ l.IsFraction ∧ l.text = text
  | _ => False

/-- No two numbers are neighbours. -/
def Apart (ts : List Token) : Prop := ts.IsChain fun t t' => t.IsNumber → ¬ t'.IsNumber

/-- No fraction without a unit follows a division sign. -/
def KeepsFractions (ts : List Token) : Prop :=
  ts.IsChain fun t t' => t = .mark (.operator .div) → ¬ t'.IsBareFraction

/-- The tokens can be told from their text when they are printed with spaces. -/
structure Printable (mode : Mode) (ts : List Token) : Prop where
  plain : ∀ t ∈ ts, t.IsPlain mode
  apart : Apart ts
  keepsFractions : KeepsFractions ts

theorem Printable.tail {mode : Mode} {t : Token} {ts : List Token} (h : Printable mode (t :: ts)) :
    Printable mode ts where
  plain := (List.forall_mem_cons.1 h.plain).2
  apart := (List.isChain_cons.1 h.apart).2
  keepsFractions := (List.isChain_cons.1 h.keepsFractions).2

/-- The tokens as a text, with one space between them. -/
def printed (ts : List Token) : List Char := [' '].intercalate (ts.map text)

/-- The tokens as they are printed after another one, with a space before each. -/
def printedAfter (ts : List Token) : List Char := ts.flatMap fun t => ' ' :: t.text

theorem printed_cons (t : Token) (ts : List Token) :
    printed (t :: ts) = t.text ++ printedAfter ts := by
  induction ts generalizing t with
  | nil => simp [printed, printedAfter]
  | cons t' ts ih =>
    have hprinted : printed (t :: t' :: ts) = t.text ++ ' ' :: printed (t' :: ts) := by
      simp [printed, List.intercalate_cons_cons]
    rw [hprinted, ih, printedAfter, printedAfter, List.flatMap_cons]
    rfl

theorem printedAfter_cons (t : Token) (ts : List Token) :
    printedAfter (t :: ts) = ' ' :: printed (t :: ts) := by
  rw [printed_cons, printedAfter, printedAfter, List.flatMap_cons]
  rfl

/-- A number is not carried on by a mark that is printed after it. -/
theorem bounded_printedAfter {ts : List Token} (h : ∀ t ∈ ts.head?, ¬ t.IsNumber) :
    Bounded (printedAfter ts) ∧ ∀ c ∈ (printedAfter ts).head?, c = ' ' := by
  cases ts with
  | nil => exact ⟨.nil, fun c hc => (Option.not_mem_none c hc).elim⟩
  | cons t ts =>
    cases t with
    | number text name => exact (h _ rfl trivial).elim
    | mark m =>
      rw [printedAfter_cons, printed_cons]
      exact ⟨(forall_head_gap_cons blank_space m.isBlank_sign _).2 m.sign_neither,
        fun c hc => (Option.some.inj hc).symm⟩

end Token

/-! ## Reading printed tokens -/

/-- A number stays whole, but for a fraction without a unit after a division sign. -/
theorem numberTokens_of_not_bare {afterDiv : Bool} {l : Literal} (hl : l.Plain)
    {name : Option (List Char)}
    (h : afterDiv = true → ¬ (Token.number l.text name).IsBareFraction) :
    numberTokens afterDiv l name = [.number l.text name] := by
  unfold numberTokens
  split
  · exact (h rfl ⟨_, hl, trivial, rfl⟩).elim
  · rfl

/-- **Printed tokens are read back**, also after a division sign if no bare fraction comes first. -/
theorem accepted?_printed {mode : Mode} {ts : List Token} (h : Token.Printable mode ts)
    {afterDiv : Bool} (hdiv : afterDiv = true → ∀ t ∈ ts.head?, ¬ t.IsBareFraction) :
    accepted? afterDiv (lexemes mode (Token.printed ts)) = some ts := by
  induction ts generalizing afterDiv with
  | nil => rw [Token.printed, List.map_nil, List.intercalate_nil, lexemes_nil, accepted?]
  | cons t ts ih =>
    have hrest {b : Bool} (hb : b = true → ∀ t ∈ ts.head?, ¬ t.IsBareFraction) :
        accepted? b (lexemes mode (Token.printedAfter ts)) = some ts := by
      cases ts with
      | nil => rw [Token.printedAfter, List.flatMap_nil, lexemes_nil, accepted?]
      | cons t' ts =>
        rw [Token.printedAfter_cons, lexemes_blank isBlank_space, accepted?, if_pos isBlank_space]
        exact ih h.tail hb
    have hapart := (List.isChain_cons.1 h.apart).1
    have hkeeps := (List.isChain_cons.1 h.keepsFractions).1
    rw [Token.printed_cons]
    cases t with
    | number text name =>
      obtain ⟨⟨l, hl, rfl⟩, hname⟩ := h.plain _ List.mem_cons_self
      obtain ⟨hbounded, hspace⟩ := Token.bounded_printedAfter fun t ht => hapart t ht trivial
      have hletter : ∀ c ∈ (Token.printedAfter ts).head?, c.isAlpha = false := fun c hc => by
        rw [hspace c hc]
        decide
      have hslash : signedRun? '/' (Token.printedAfter ts) = none :=
        signedRun?_eq_none fun c hc => by
          rw [hspace c hc]
          decide
      rw [Token.text, List.append_assoc,
        lexemes_number hl.digital name hname hbounded hletter fun _ _ => hslash, accepted?,
        hrest fun hf => Bool.noConfusion hf, numberTokens_of_not_bare hl fun hb => hdiv hb _ rfl]
      rfl
    | mark m =>
      rw [Token.text, List.singleton_append, lexemes_sign, accepted?, hrest, Option.map_some]
      intro hm t ht
      obtain rfl : m = .operator .div := of_decide_eq_true hm
      exact hkeeps t ht rfl

/-! ## The tokens of an ASCII text -/

/-- All characters of the text are ASCII. -/
def Ascii (cs : List Char) : Prop := ∀ c ∈ cs, c.toNat < 128

instance (cs : List Char) : Decidable (Ascii cs) :=
  inferInstanceAs (Decidable (∀ c ∈ cs, c.toNat < 128))

/-- The ASCII digits are the only digits in ASCII. -/
theorem isDigit_ascii {c : Char} (hd : isDigit c = true) (hc : c.toNat < 128) :
    c.isDigit = true := by
  obtain ⟨r, hr, hrc⟩ := List.any_eq_true.1 hd
  obtain ⟨z, hz, rfl⟩ := List.mem_map.1 hr
  obtain ⟨hfirst, hlast⟩ := CharRange.contains_iff.1 hrc
  obtain rfl : z = 0x30 :=
    (by decide : ∀ z ∈ zeroCodePoints, z < 128 → z = 0x30) z hz (Nat.lt_of_le_of_lt hfirst hc)
  simp only [Char.isDigit, Bool.and_eq_true, decide_eq_true_eq, ge_iff_le,
    UInt32.le_iff_toNat_le]
  exact ⟨hfirst, hlast⟩

/-- All digits of the text are ASCII digits. -/
def AsciiDigits (cs : List Char) : Prop := ∀ c ∈ cs, isDigit c = true → c.isDigit = true

instance (cs : List Char) : Decidable (AsciiDigits cs) :=
  inferInstanceAs (Decidable (∀ c ∈ cs, isDigit c = true → c.isDigit = true))

theorem Ascii.digits {cs : List Char} (h : Ascii cs) : AsciiDigits cs :=
  fun c hc hd => isDigit_ascii hd (h c hc)

theorem DigitRun.plain {run : List Char} (h : DigitRun run) (ha : AsciiDigits run) :
    PlainRun run :=
  ⟨h.1, fun c hc => ha c hc (h.2 c hc)⟩

theorem Literal.Digital.plain {l : Literal} (hl : l.Digital) (ha : AsciiDigits l.text) :
    l.Plain := by
  have hpart {run : List Char} (hr : DigitRun run) (hp : ∀ c ∈ run, c ∈ l.text) : PlainRun run :=
    hr.plain fun c hc => ha c (hp c hc)
  cases l with
  | whole run => exact DigitRun.plain hl ha
  | decimal run decimals =>
    exact ⟨fun c hc => ha c (List.mem_append_left _ hc) (hl.1 c hc),
      hpart hl.2 (by simp +contextual [text])⟩
  | fraction num den =>
    exact ⟨hpart hl.1 (by simp +contextual [text]), hpart hl.2 (by simp +contextual [text])⟩
  | mixed run gap num den =>
    obtain ⟨hr, hg, hn, hd⟩ := hl
    exact ⟨hpart hr (by simp +contextual [text]), hg, hpart hn (by simp +contextual [text]),
      hpart hd (by simp +contextual [text])⟩

/-- The numbers of a text are written in digits of any decimal system, their units in letters. -/
theorem Cut.digital_mem {mode : Mode} {cs : List Char} {ls : List Lexeme} (h : Cut mode cs ls)
    {l : Literal} {name : Option (List Char)} (hl : .number l name ∈ ls) :
    l.Digital ∧ IsUnitName mode name ∧ ∀ c ∈ l.text, c ∈ cs := by
  -- what holds of a number further on holds of it in the whole text
  have hlater (first : List Char) {rest : List Char}
      (ih : l.Digital ∧ IsUnitName mode name ∧ ∀ c ∈ l.text, c ∈ rest) :
      l.Digital ∧ IsUnitName mode name ∧ ∀ c ∈ l.text, c ∈ first ++ rest :=
    ⟨ih.1, ih.2.1, fun c hc => List.mem_append_right first (ih.2.2 c hc)⟩
  induction h with
  | nil => cases hl
  | number hlong hname _ ih =>
    rcases List.mem_cons.1 hl with he | hl
    · cases he
      exact ⟨hlong.digital, hname.letters, fun c hc => List.mem_append_left _ hc⟩
    · rw [← List.append_assoc]
      exact hlater _ (ih hl)
  | mark m _ ih => exact hlater [m.sign] (ih ((List.mem_cons.1 hl).resolve_left nofun))
  | @stray c _ _ _ _ _ ih => exact hlater [c] (ih ((List.mem_cons.1 hl).resolve_left nofun))

/-- The numbers of an ASCII text are written in the digits `0` to `9`, their units in letters. -/
theorem Cut.number_mem {mode : Mode} {cs : List Char} {ls : List Lexeme} (h : Cut mode cs ls)
    (ha : Ascii cs) {l : Literal} {name : Option (List Char)} (hl : .number l name ∈ ls) :
    l.Plain ∧ IsUnitName mode name := by
  obtain ⟨hdigital, hname, hmem⟩ := h.digital_mem hl
  exact ⟨hdigital.plain fun c hc => ha.digits c (hmem c hc), hname⟩

/-- After a division sign a fraction without a unit is taken apart; else a number is one token. -/
theorem numberTokens_cases (afterDiv : Bool) (l : Literal) (name : Option (List Char)) :
    (∃ num den, l = .fraction num den ∧ name = none ∧ numberTokens afterDiv l name =
        [.number num none, .mark (.operator .div), .number den none]) ∨
      numberTokens afterDiv l name = [.number l.text name] ∧
        (afterDiv = true → name = none → ¬ l.IsFraction) := by
  unfold numberTokens
  split
  · exact .inl ⟨_, _, rfl, rfl, rfl⟩
  · next hnot =>
    refine .inr ⟨rfl, ?_⟩
    rintro rfl rfl hf
    cases l with
    | fraction num den => exact hnot num den rfl rfl rfl
    | _ => exact hf

/-- A number that is no fraction is not written as one. -/
theorem Token.not_isBareFraction {l : Literal} (hl : l.Plain) {name : Option (List Char)}
    (h : name = none → ¬ l.IsFraction) : ¬ (number l.text name).IsBareFraction := by
  cases name with
  | some letters => exact id
  | none =>
    rintro ⟨l', hl', hf, htext⟩
    obtain rfl := Literal.eq_of_text_eq hl'.digital hl.digital htext
    exact h rfl hf

section Tokens

variable {mode : Mode} {ls : List Lexeme}

/-- What holds of the numbers of a text, and of both numbers of its fractions, holds of its tokens. -/
theorem number_mem_tokensOf {P : Literal → Option (List Char) → Prop}
    (hparts : ∀ num den, P (.fraction num den) none → P (.whole num) none ∧ P (.whole den) none)
    (h : ∀ l name, .number l name ∈ ls → P l name) {afterDiv : Bool} {text : List Char}
    {name : Option (List Char)} (ht : .number text name ∈ tokensOf afterDiv ls) :
    ∃ l, P l name ∧ l.text = text := by
  induction ls generalizing afterDiv with
  | nil => cases ht
  | cons x ls ih =>
    have hls := @ih fun l name hl => h l name (List.mem_cons_of_mem x hl)
    cases x with
    | number l name' =>
      have hl := h l name' List.mem_cons_self
      rcases List.mem_append.1 ht with ht | ht
      · rcases numberTokens_cases afterDiv l name' with ⟨num, den, rfl, rfl, heq⟩ | ⟨heq, -⟩
        · obtain ⟨hnum, hden⟩ := hparts num den hl
          rw [heq] at ht
          simp only [List.mem_cons, List.not_mem_nil, or_false, Token.number.injEq, reduceCtorEq,
            false_or] at ht
          rcases ht with ⟨rfl, rfl⟩ | ⟨rfl, rfl⟩
          · exact ⟨.whole text, hnum, rfl⟩
          · exact ⟨.whole text, hden, rfl⟩
        · rw [heq] at ht
          cases List.mem_singleton.1 ht
          exact ⟨l, hl, rfl⟩
      · exact hls ht
    | mark m => exact hls ((List.mem_cons.1 ht).resolve_left nofun)
    | stray c => exact hls ht

theorem isPlain_tokensOf
    (h : ∀ l name, .number l name ∈ ls → l.Plain ∧ IsUnitName mode name) (afterDiv : Bool) :
    ∀ t ∈ tokensOf afterDiv ls, t.IsPlain mode := by
  intro t ht
  cases t with
  | mark m => trivial
  | number text name =>
    obtain ⟨l, ⟨hl, hname⟩, htext⟩ :=
      number_mem_tokensOf (fun num den hf => ⟨⟨hf.1.1, hf.2⟩, hf.1.2, hf.2⟩) h ht
    exact ⟨⟨l, hl, htext⟩, hname⟩

/-- Fractions without a unit are taken apart wherever they follow a division sign. -/
theorem keepsFractions_tokensOf (h : ∀ l name, .number l name ∈ ls → l.Plain) (afterDiv : Bool) :
    (afterDiv = true → ∀ t ∈ (tokensOf afterDiv ls).head?, ¬ t.IsBareFraction) ∧
      Token.KeepsFractions (tokensOf afterDiv ls) := by
  induction ls generalizing afterDiv with
  | nil => exact ⟨fun _ t ht => (Option.not_mem_none t ht).elim, .nil⟩
  | cons x ls ih =>
    have hls := ih fun l name hl => h l name (List.mem_cons_of_mem x hl)
    -- A number imposes nothing on the token after it.
    have hnumber (text : List Char) (name : Option (List Char)) :
        Token.KeepsFractions (.number text name :: tokensOf false ls) :=
      List.isChain_cons.2 ⟨fun t _ hd => Token.noConfusion hd, (hls false).2⟩
    cases x with
    | number l name =>
      have hl := h l name List.mem_cons_self
      rw [tokensOf]
      rcases numberTokens_cases afterDiv l name with ⟨num, den, rfl, rfl, heq⟩ | ⟨heq, hkeep⟩
      · have hwhole {run : List Char} (hr : PlainRun run) :
            ¬ (Token.number run none).IsBareFraction :=
          Token.not_isBareFraction (l := .whole run) hr fun _ => id
        rw [heq]
        refine ⟨fun _ t ht => ?_, ?_⟩
        · obtain rfl := Option.some.inj ht
          exact hwhole hl.1
        · exact .cons_cons (fun hd => Token.noConfusion hd)
            (.cons_cons (fun _ => hwhole hl.2) (hnumber den none))
      · rw [heq]
        refine ⟨fun hdiv t ht => ?_, hnumber l.text name⟩
        obtain rfl := Option.some.inj ht
        exact Token.not_isBareFraction hl (hkeep hdiv)
    | mark m =>
      obtain ⟨hhead, hkeep⟩ := hls (m = .operator .div)
      refine ⟨fun _ t ht => ?_, List.isChain_cons.2 ⟨fun t ht hd => ?_, hkeep⟩⟩
      · obtain rfl := Option.some.inj ht
        exact id
      · exact hhead (decide_eq_true (Token.mark.inj hd)) t ht
    | stray c => exact hls afterDiv

end Tokens

/--
**What is printed is read back.** Printable tokens are the tokens of their text. The tokens of an
ASCII text are printable unless two of its numbers are neighbours, and so they are also the tokens
of the text as it is printed.
-/
theorem tokenize_printed (mode : Mode) :
    (∀ ts, Token.Printable mode ts → (tokenize mode (Token.printed ts)).result = .ok ts) ∧
      ∀ s ts, Ascii s → (tokenize mode s).result = .ok ts → Token.Apart ts →
        Token.Printable mode ts ∧ (tokenize mode (Token.printed ts)).result = .ok ts := by
  have hread : ∀ ts, Token.Printable mode ts →
      (tokenize mode (Token.printed ts)).result = .ok ts := fun ts h =>
    result_tokenize_eq_ok_iff.2 (accepted?_printed h fun hf => Bool.noConfusion hf)
  refine ⟨hread, fun s ts ha hs hapart => ?_⟩
  obtain ⟨-, rfl⟩ := accepted?_eq_some_iff.1 (result_tokenize_eq_ok_iff.1 hs)
  have hnumbers (l : Literal) (name : Option (List Char))
      (hl : .number l name ∈ lexemes mode s) : l.Plain ∧ IsUnitName mode name :=
    (cut_iff.2 rfl).number_mem ha hl
  have hprint : Token.Printable mode (tokensOf false (lexemes mode s)) :=
    ⟨isPlain_tokensOf hnumbers false, hapart,
      (keepsFractions_tokensOf (fun l name hl => (hnumbers l name hl).1) false).2⟩
  exact ⟨hprint, hread _ hprint⟩

/-- A mixed fraction in feet is divided by a fraction, which is kept by parentheses. -/
theorem tokenize_printed_quotient :
    Token.Printable .advanced [.number "1 3/4".toList (some "ft".toList),
        .mark (.operator .div), .mark .opening, .number "3/8".toList none, .mark .closing] ∧
      (tokenize .advanced "1 3/4ft / ( 3/8 )".toList).result =
        .ok [.number "1 3/4".toList (some "ft".toList),
          .mark (.operator .div), .mark .opening, .number "3/8".toList none, .mark .closing] :=
  (tokenize_printed .advanced).2 "1 3/4ft/(3/8)".toList _ (by decide) (by decide +kernel)
    (by simp [Token.Apart, Token.IsNumber])

end Footrule
