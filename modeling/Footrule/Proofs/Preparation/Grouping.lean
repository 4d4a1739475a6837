import Footrule.Proofs.Exact.Spans
import Footrule.Proofs.Written.Evaluation

/-!
# What the preparation leaves of an expression

Joining fractions and joining units leave out blanks and nothing else (`Thinned`); the last pass
also writes parts of the text as sums in parentheses (`Grouped`). So the formula of an expression
has all its other characters in their order, as many new opening parentheses as new additions and
new closing parentheses, and its parentheses match if those of the expression do (`Balanced`).
-/

namespace Footrule

open Formula

/-! ## Blanks left out -/

theorem unblanked_append (cs k : List Char) : unblanked (cs ++ k) = unblanked cs ++ unblanked k :=
  List.filter_append cs k

/-- Some blanks are left out of a text, and nothing else. -/
structure Thinned (cs cs' : List Char) : Prop where
  sublist : cs'.Sublist cs
  unblanked : unblanked cs' = unblanked cs

namespace Thinned

variable {cs cs' cs'' k k' : List Char}

theorem refl (cs : List Char) : Thinned cs cs := ⟨List.Sublist.refl cs, rfl⟩

theorem trans (h : Thinned cs cs') (h' : Thinned cs' cs'') : Thinned cs cs'' :=
  ⟨h'.sublist.trans h.sublist, h'.unblanked.trans h.unblanked⟩

theorem append (h : Thinned cs cs') (h' : Thinned k k') : Thinned (cs ++ k) (cs' ++ k') where
  sublist := h.sublist.append h'.sublist
  unblanked := by
    rw [unblanked_append, h.unblanked, h'.unblanked, unblanked_append]

theorem append_left (cs : List Char) (h : Thinned k k') : Thinned (cs ++ k) (cs ++ k') :=
  (refl cs).append h

theorem cons (c : Char) (h : Thinned k k') : Thinned (c :: k) (c :: k') := append_left [c] h

theorem gap {gap : List Char} (hg : ∀ c ∈ gap, isBlank c = true) : Thinned gap [] where
  sublist := List.nil_sublist gap
  unblanked := (List.filter_eq_nil_iff.2 fun c hc => by simp [hg c hc]).symm

/-- A gap at the start may be left out. -/
theorem gap_append {gap : List Char} (hg : ∀ c ∈ gap, isBlank c = true) (h : Thinned k k') :
    Thinned (gap ++ k) k' :=
  (Thinned.gap hg).append h

theorem trim (cs : List Char) : Thinned cs (trim cs) := by
  obtain ⟨gap, gap', hgap, hgap', hcs⟩ := exists_eq_gap_trim_gap cs
  have htrim : Thinned (Footrule.trim cs ++ gap') (Footrule.trim cs ++ []) :=
    append_left _ (Thinned.gap hgap')
  rw [List.append_nil] at htrim
  conv => lhs; rw [hcs]
  exact gap_append hgap htrim

theorem isBlank_plainSign (c : Char) : isBlank (plainSign c) = isBlank c := by
  by_cases hc : c ∈ typographicSigns
  · exact (by decide : ∀ c ∈ typographicSigns, isBlank (plainSign c) = isBlank c) c hc
  · rw [plainSign_eq_self hc]

/-- Which signs are written for the operators makes no difference for the blanks. -/
theorem plainSigns (h : Thinned cs cs') : Thinned (plainSigns cs) (plainSigns cs') where
  sublist := h.sublist.map plainSign
  unblanked := by
    have hmap (cs : List Char) :
        Footrule.unblanked (cs.map plainSign) = (Footrule.unblanked cs).map plainSign := by
      rw [Footrule.unblanked, List.filter_map]
      simp only [Function.comp_def, isBlank_plainSign]
      rfl
    exact (hmap cs').trans ((congrArg _ h.unblanked).trans (hmap cs).symm)

/-- A character that is no blank occurs as often as before. -/
theorem count {c : Char} (h : Thinned cs cs') (hc : isBlank c = false) :
    cs'.count c = cs.count c := by
  have hcount (cs : List Char) : (Footrule.unblanked cs).count c = cs.count c :=
    List.count_filter (by simp [hc])
  rw [← hcount cs', h.unblanked, hcount]

end Thinned

/-- A rule that leaves out blanks where it fires does so in a pass. -/
theorem Rule.thinned_pass {r : Rule}
    (hr : ∀ {cs out rest : List Char}, r.fire? cs = some (out, rest) →
      ∃ used, cs = used ++ rest ∧ Thinned used out)
    (cs : List Char) : Thinned cs (r.pass cs) := by
  fun_induction Rule.pass r cs with
  | case1 => exact .refl []
  | case2 c cs out rest h _ ih =>
    obtain ⟨used, hcs, hused⟩ := hr h
    rw [hcs]
    exact hused.append ih
  | case3 c cs h ih => exact ih.cons c

theorem Division.continueWith?_gaps {dividend gap cs rest : List Char} {d : Division}
    (h : continueWith? dividend gap cs = some (d, rest)) :
    d.gapBefore = gap ∧ ∀ c ∈ d.gapAfter, isBlank c = true := by
  cases cs with
  | nil => cases h
  | cons c cs =>
    simp only [continueWith?, Option.ite_none_right_eq_some, Option.map_eq_some_iff, Prod.mk.injEq,
      Prod.exists] at h
    obtain ⟨-, divisor, rest', -, rfl, -⟩ := h
    exact ⟨rfl, List.all_eq_true.1 List.all_takeWhile⟩

/-- Only the blanks beside the slash are left out of a division. -/
theorem Division.thinned_joined {cs rest : List Char} {d : Division}
    (h : scan? cs = some (d, rest)) : Thinned d.text d.joined := by
  obtain ⟨⟨dividend, rest'⟩, -, hc⟩ := Option.bind_eq_some_iff.1 h
  obtain ⟨hbefore, hafter⟩ := continueWith?_gaps hc
  have hgap : ∀ c ∈ d.gapBefore, isBlank c = true := hbefore ▸ List.all_eq_true.1 List.all_takeWhile
  unfold joined
  split
  · next hnone =>
    rw [text, hnone, List.append_nil, List.append_assoc]
    exact .append_left _ (.gap_append hgap (.cons '/' (.gap_append hafter (.refl _))))
  · exact .refl _

theorem thinned_joinFractions (cs : List Char) : Thinned cs (joinFractions cs) := by
  refine Rule.thinned_pass (fun {cs out rest} h => ?_) cs
  cases cs with
  | nil => cases h
  | cons c cs =>
    simp only [fractionRule, joinedFraction?] at h
    split at h <;> obtain ⟨⟨d, r⟩, hd, he⟩ := Option.map_eq_some_iff.1 h <;>
      obtain ⟨rfl, rfl⟩ := Prod.mk.inj he
    · refine ⟨c :: cs.takeWhile isBlank ++ d.text, ?_, .refl _⟩
      rw [List.append_assoc, ← (Division.append_of_scan? hd).1, List.cons_append, trimStart,
        List.takeWhile_append_dropWhile]
    · exact ⟨d.text, (Division.append_of_scan? hd).1, Division.thinned_joined hd⟩

/-- Units are joined where blanks and letters come after a number. -/
theorem unitRule_fire?_eq_some {cs out rest : List Char}
    (h : unitRule.fire? cs = some (out, rest)) :
    ∃ (l : Literal) (gap name : List Char), l.Digital ∧ BlankRun gap ∧
      (name ≠ [] ∧ ∀ c ∈ name, c.isAlpha = true) ∧ cs = l.text ++ (gap ++ (name ++ rest)) ∧
        out = l.text ++ name := by
  simp only [unitRule, joinedUnit?] at h
  split at h
  · cases h
  · next l after hscan =>
    simp only [Option.ite_none_left_eq_some, not_or] at h
    obtain ⟨⟨hgap, hname⟩, hsome⟩ := h
    obtain ⟨rfl, rfl⟩ := Prod.mk.inj (Option.some.inj hsome)
    refine ⟨l, _, _, Literal.digital_of_scan? hscan, ⟨hgap, List.all_eq_true.1 List.all_takeWhile⟩,
      ⟨hname, List.all_eq_true.1 List.all_takeWhile⟩, ?_, rfl⟩
    rw [List.takeWhile_append_dropWhile, trimStart, List.takeWhile_append_dropWhile]
    exact Literal.append_of_scan? hscan

theorem thinned_joinUnits (cs : List Char) : Thinned cs (joinUnits cs) := by
  refine Rule.thinned_pass (fun {cs out rest} h => ?_) cs
  obtain ⟨l, gap, name, -, hgap, -, rfl, rfl⟩ := unitRule_fire?_eq_some h
  exact ⟨l.text ++ (gap ++ name), by simp, .append_left _ (.gap_append hgap.2 (.refl _))⟩

/-! ## Names of units -/

/-- A letter, or the second form of the letter `s`. -/
def IsLetter (c : Char) : Prop := c.isAlpha = true ∨ c = 'ſ'

instance (c : Char) : Decidable (IsLetter c) := inferInstanceAs (Decidable (_ ∨ _))

theorem isLetter_of_isFormOf {letter c : Char} (hl : letter.isAlpha = true)
    (h : isFormOf letter c = true) : IsLetter c := by
  refine Classical.byContradiction fun hno => ?_
  obtain ⟨halpha, hlong⟩ := not_or.1 hno
  rw [isFormOf_eq_false hl ⟨Bool.eq_false_iff.2 halpha, hlong⟩] at h
  cases h

namespace IsLetter

variable {c : Char}

theorem not_isNumeric (h : IsLetter c) : ¬ Literal.IsNumeric c := by
  intro hn
  obtain ⟨halpha, hlong⟩ := hn.noLetter
  exact h.elim (Bool.eq_false_iff.1 halpha) hlong

theorem neither (h : IsLetter c) : isDigit c = false ∧ c ≠ '.' :=
  ⟨Bool.eq_false_iff.2 fun hd => h.not_isNumeric (.inl hd),
    fun hp => h.not_isNumeric (.inr (.inr (.inl hp)))⟩

theorem isBlank (h : IsLetter c) : isBlank c = false :=
  Bool.eq_false_iff.2 fun hb => h.not_isNumeric (.inr (.inl hb))

theorem ne_slash (h : IsLetter c) : c ≠ '/' :=
  fun hs => h.not_isNumeric (.inr (.inr (.inr hs)))

end IsLetter

/-- A word is found in letters, one for each of its own. -/
theorem letters_of_wordAt? {word cs w rest : List Char} (hword : ∀ c ∈ word, c.isAlpha = true)
    (h : wordAt? word cs = some (w, rest)) : w.length = word.length ∧ ∀ c ∈ w, IsLetter c := by
  fun_induction wordAt? word cs generalizing w with
  | case1 =>
    cases h
    exact ⟨rfl, List.forall_mem_nil _⟩
  | case2 => cases h
  | case3 letter word c cs hform ih =>
    obtain ⟨hletter, hword⟩ := List.forall_mem_cons.1 hword
    obtain ⟨⟨w', r⟩, hw, he⟩ := Option.map_eq_some_iff.1 h
    obtain ⟨rfl, rfl⟩ := Prod.mk.inj he
    obtain ⟨hlength, hletters⟩ := ih hword hw
    exact ⟨congrArg (· + 1) hlength,
      List.forall_mem_cons.2 ⟨isLetter_of_isFormOf hletter hform, hletters⟩⟩
  | case4 => cases h

/-- A name of the unit stands before the rest, and is the one that is found there. -/
def LengthUnit.Names (u : LengthUnit) (name rest : List Char) : Prop :=
  firstWordAt? u.aliases (name ++ rest) = some (name, rest)

namespace LengthUnit.Names

variable {u : LengthUnit} {name rest : List Char}

theorem found (h : u.Names name rest) :
    firstWordAt? u.aliases (name ++ rest) = some (name, rest) := h

theorem letters (h : u.Names name rest) : name ≠ [] ∧ ∀ c ∈ name, IsLetter c := by
  obtain ⟨word, hmem, hword⟩ := List.exists_of_findSome?_eq_some h
  obtain ⟨hne, halpha⟩ := letters_of_mem_aliases hmem
  obtain ⟨hlength, hletters⟩ := letters_of_wordAt? halpha hword
  refine ⟨?_, hletters⟩
  rintro rfl
  exact hne (List.length_eq_zero_iff.1 hlength.symm)

/-- A letter comes first. -/
theorem head (h : u.Names name rest) : ∀ c ∈ (name ++ rest).head?, IsLetter c := by
  obtain ⟨hne, hletters⟩ := h.letters
  obtain ⟨c, name, rfl⟩ := List.exists_cons_of_ne_nil hne
  intro d hd
  rw [← Option.some.inj hd]
  exact hletters c List.mem_cons_self

theorem trimStart (h : u.Names name rest) : trimStart (name ++ rest) = name ++ rest :=
  trimStart_eq_self fun c hc => (h.head c hc).isBlank

/-- A literal before a name is found whole. -/
theorem scan?_text (h : u.Names name rest) {l : Literal} (hl : l.Digital) :
    Literal.scan? (l.text ++ (name ++ rest)) = some (l, name ++ rest) := by
  refine Literal.scan?_text_append hl (fun c hc => ?_) fun _ => ?_
  · rw [h.trimStart] at hc
    exact (h.head c hc).neither
  · exact signedRun?_eq_none fun c hc => (h.head c hc).ne_slash

end LengthUnit.Names

/-- A length in a unit is found where a literal stands with a name directly after it. -/
theorem measureAt?_eq_some_iff {u : LengthUnit} {cs out rest : List Char} :
    measureAt? u cs = some (out, rest) ↔ ∃ (l : Literal) (name : List Char),
      l.Digital ∧ u.Names name rest ∧ cs = l.text ++ (name ++ rest) ∧ out = l.text ++ name := by
  constructor
  · intro h
    obtain ⟨⟨l, after⟩, hscan, hname⟩ := Option.bind_eq_some_iff.1 h
    obtain ⟨⟨name, rest'⟩, hfirst, he⟩ := Option.map_eq_some_iff.1 hname
    obtain ⟨rfl, rfl⟩ := Prod.mk.inj he
    obtain rfl := append_of_firstWordAt? hfirst
    exact ⟨l, name, Literal.digital_of_scan? hscan, hfirst, Literal.append_of_scan? hscan, rfl⟩
  · rintro ⟨l, name, hl, hname, rfl, rfl⟩
    simp only [measureAt?, hname.scan?_text hl, Option.bind_some, hname.found, Option.map_some]

/-! ## Sums put in parentheses -/

/-- The characters that are written about the parts of a sum. -/
def sumSigns : List Char := ['(', '+', ')']

/-- A part of a sum is not empty, and has none of the signs of a sum itself. -/
def IsPart (cs : List Char) : Prop := cs ≠ [] ∧ ∀ c ∈ cs, c ∉ sumSigns

/-- Neighbouring parts of a text are written as sums in parentheses, a number of times. -/
inductive Grouped : Nat → List Char → List Char → Prop
  | nil : Grouped 0 [] []
  | keep (c : Char) {n : Nat} {cs cs' : List Char} :
      Grouped n cs cs' → Grouped n (c :: cs) (c :: cs')
  | sum {left right : List Char} {n : Nat} {cs cs' : List Char} :
      IsPart left → IsPart right → Grouped n cs cs' →
      Grouped (n + 1) (left ++ right ++ cs) (sumOf left right ++ cs')

/-- A rule that writes sums where it fires does so in a pass, leaving out the gaps between their
parts. -/
theorem Rule.grouped_pass {r : Rule}
    (hr : ∀ {cs out rest : List Char}, r.fire? cs = some (out, rest) →
      ∃ left gap right, IsPart left ∧ (∀ c ∈ gap, isBlank c = true) ∧ IsPart right ∧
        cs = left ++ (gap ++ (right ++ rest)) ∧ out = sumOf left right)
    (cs : List Char) : ∃ thin n, Thinned cs thin ∧ Grouped n thin (r.pass cs) := by
  fun_induction Rule.pass r cs with
  | case1 => exact ⟨[], 0, .refl [], .nil⟩
  | case2 c cs out rest h _ ih =>
    obtain ⟨left, gap, right, hleft, hgap, hright, hcs, rfl⟩ := hr h
    obtain ⟨thin, n, hthin, hgroup⟩ := ih
    refine ⟨left ++ right ++ thin, n + 1, ?_, .sum hleft hright hgroup⟩
    rw [hcs, List.append_assoc]
    exact .append_left left (.gap_append hgap (.append_left right hthin))
  | case3 c cs h ih =>
    obtain ⟨thin, n, hthin, hgroup⟩ := ih
    exact ⟨c :: thin, n, hthin.cons c, hgroup.keep c⟩

theorem Literal.IsNumeric.not_sumSign {c : Char} (h : Literal.IsNumeric c) : c ∉ sumSigns := by
  intro hs
  exact (by decide : ∀ c ∈ sumSigns, ¬ Literal.IsNumeric c) c hs h

theorem IsLetter.not_sumSign {c : Char} (h : IsLetter c) : c ∉ sumSigns := by
  intro hs
  exact (by decide : ∀ c ∈ sumSigns, ¬ IsLetter c) c hs h

/-- The text of a literal is a part of a sum, with what is written after it in other signs. -/
theorem Literal.isPart {l : Literal} (hl : l.Digital) {name : List Char}
    (hname : ∀ c ∈ name, c ∉ sumSigns) : IsPart (l.text ++ name) := by
  obtain ⟨c, cs, htext, -⟩ := l.head_text hl name
  refine ⟨htext ▸ List.cons_ne_nil c cs, List.forall_mem_append.2 ⟨fun c hc => ?_, hname⟩⟩
  exact IsNumeric.not_sumSign (Digital.isNumeric hl c hc)

/-- Mixed fractions are what is written as sums in basic mode. -/
theorem mixedRule_fire?_eq_some_iff {cs out rest : List Char} :
    mixedRule.fire? cs = some (out, rest) ↔ ∃ whole gap num den,
      Literal.scan? cs = some (.mixed whole gap num den, rest) ∧
        out = sumOf whole (num ++ '/' :: den) := by
  simp only [mixedRule, mixedSum?]
  constructor
  · intro h
    split at h
    · next whole gap num den rest' hscan =>
      obtain ⟨rfl, rfl⟩ := Prod.mk.inj (Option.some.inj h)
      exact ⟨whole, gap, num, den, hscan, rfl⟩
    · cases h
  · rintro ⟨whole, gap, num, den, hscan, rfl⟩
    rw [hscan]

theorem grouped_sumMixed (cs : List Char) :
    ∃ thin n, Thinned cs thin ∧ Grouped n thin (sumMixed cs) := by
  refine Rule.grouped_pass (fun {cs out rest} h => ?_) cs
  obtain ⟨whole, gap, num, den, hscan, rfl⟩ := mixedRule_fire?_eq_some_iff.1 h
  obtain ⟨hwhole, hgap, hnum, hden⟩ := Literal.digital_of_scan? hscan
  have hleft := Literal.isPart (l := .whole whole) hwhole (List.forall_mem_nil _)
  have hright := Literal.isPart (l := .fraction num den) ⟨hnum, hden⟩ (List.forall_mem_nil _)
  rw [List.append_nil] at hleft hright
  refine ⟨whole, gap, num ++ '/' :: den, hleft, hgap.2, hright, ?_, rfl⟩
  rw [Literal.append_of_scan? hscan, Literal.mixed_text_append, List.append_assoc, List.cons_append]

/-- A number with the name of its unit is a part of a sum. -/
theorem isPart_of_measureAt? {u : LengthUnit} {cs out rest : List Char}
    (h : measureAt? u cs = some (out, rest)) : IsPart out ∧ cs = out ++ rest := by
  obtain ⟨l, name, hl, hname, rfl, rfl⟩ := measureAt?_eq_some_iff.1 h
  exact ⟨Literal.isPart hl fun c hc => (hname.letters.2 c hc).not_sumSign,
    (List.append_assoc _ _ _).symm⟩

/-- Feet with inches after them are what is written as sums in advanced mode. -/
theorem feetInchesRule_fire?_eq_some_iff {cs out rest : List Char} :
    feetInchesRule.fire? cs = some (out, rest) ↔ ∃ feet after inches,
      measureAt? .foot cs = some (feet, after) ∧
        measureAt? .inch (trimStart after) = some (inches, rest) ∧ out = sumOf feet inches := by
  simp only [feetInchesRule, feetInchesSum?, Option.bind_eq_some_iff, Option.map_eq_some_iff,
    Prod.exists, Prod.mk.injEq]
  constructor
  · rintro ⟨feet, after, hfeet, inches, rest', hinches, rfl, rfl⟩
    exact ⟨feet, after, inches, hfeet, hinches, rfl⟩
  · rintro ⟨feet, after, inches, hfeet, hinches, rfl⟩
    exact ⟨feet, after, hfeet, inches, rest, hinches, rfl, rfl⟩

theorem grouped_sumFeetInches (cs : List Char) :
    ∃ thin n, Thinned cs thin ∧ Grouped n thin (sumFeetInches cs) := by
  refine Rule.grouped_pass (fun {cs out rest} h => ?_) cs
  obtain ⟨feet, after, inches, hfeet, hinches, rfl⟩ := feetInchesRule_fire?_eq_some_iff.1 h
  obtain ⟨hleft, hcs⟩ := isPart_of_measureAt? hfeet
  obtain ⟨hright, hafter⟩ := isPart_of_measureAt? hinches
  obtain ⟨gap, hgap, hblank⟩ := exists_eq_gap_append after
  refine ⟨feet, gap, inches, hleft, hgap, hright, ?_, rfl⟩
  rw [hcs, ← hafter, ← hblank]

/-- The last passes leave out blanks and write sums. -/
theorem grouped_finish (mode : Mode) (cs : List Char) :
    ∃ thin n, Thinned cs thin ∧ Grouped n thin (finish mode cs) := by
  cases mode with
  | basic => exact grouped_sumMixed cs
  | advanced =>
    obtain ⟨thin, n, hthin, hgroup⟩ := grouped_sumFeetInches (joinUnits cs)
    exact ⟨thin, n, (thinned_joinUnits cs).trans hthin, hgroup⟩

/-- The formula of an expression: blanks are left out, and then sums are written. -/
theorem grouped_formula (mode : Mode) (cs : List Char) :
    ∃ thin n, Thinned (plainSigns cs) thin ∧
      Grouped n thin (finish mode (joinFractions (plainSigns (trim cs)))) := by
  obtain ⟨thin, n, hthin, hgroup⟩ := grouped_finish mode (joinFractions (plainSigns (trim cs)))
  refine ⟨thin, n, ?_, hgroup⟩
  exact ((Thinned.trim cs).plainSigns.trans (thinned_joinFractions _)).trans hthin

/-! ## What stays the same -/

/-- The characters of a text that are neither blank nor signs of a sum. -/
def bare (cs : List Char) : List Char := (unblanked cs).filter (· ∉ sumSigns)

theorem bare_append (cs k : List Char) : bare (cs ++ k) = bare cs ++ bare k := by
  rw [bare, unblanked_append, List.filter_append, bare, bare]

/-- The depth of the parentheses after a character, if none is closed that was not opened. -/
def depthAfter? (depth : Nat) (c : Char) : Option Nat :=
  if c = '(' then some (depth + 1)
  else if c = ')' then (if depth = 0 then none else some (depth - 1))
  else some depth

/-- The depth of the parentheses after a text that begins at some depth. -/
def nesting? (depth : Nat) (cs : List Char) : Option Nat := cs.foldlM depthAfter? depth

/-- The parentheses match. -/
def Balanced (cs : List Char) : Prop := nesting? 0 cs = some 0

section Nesting

variable {cs : List Char}

theorem nesting?_append (depth : Nat) (cs k : List Char) :
    nesting? depth (cs ++ k) = (nesting? depth cs).bind (nesting? · k) :=
  List.foldlM_append

theorem nesting?_cons (depth : Nat) (c : Char) (k : List Char) :
    nesting? depth (c :: k) = (depthAfter? depth c).bind (nesting? · k) :=
  List.foldlM_cons

theorem depthAfter?_of_not_paren {c : Char} (h : c ≠ '(' ∧ c ≠ ')') (depth : Nat) :
    depthAfter? depth c = some depth := by
  rw [depthAfter?, if_neg h.1, if_neg h.2]

theorem nesting?_of_forall (h : ∀ c ∈ cs, c ≠ '(' ∧ c ≠ ')') (depth : Nat) :
    nesting? depth cs = some depth := by
  induction cs with
  | nil => rfl
  | cons c cs ih =>
    obtain ⟨hc, hcs⟩ := List.forall_mem_cons.1 h
    rw [nesting?_cons, depthAfter?_of_not_paren hc, Option.bind_some, ih hcs]

/-- Characters that are no parentheses may be left out. -/
theorem nesting?_filter {p : Char → Bool} (hp : ∀ c, p c = false → c ≠ '(' ∧ c ≠ ')')
    (depth : Nat) (cs : List Char) : nesting? depth (cs.filter p) = nesting? depth cs := by
  induction cs generalizing depth with
  | nil => rfl
  | cons c cs ih =>
    rw [nesting?_cons, List.filter_cons]
    split
    · simp only [nesting?_cons, ih]
    · next hc =>
      rw [ih, depthAfter?_of_not_paren (hp c (Bool.eq_false_iff.2 hc)), Option.bind_some]

theorem IsPart.nesting? (h : IsPart cs) (depth : Nat) : nesting? depth cs = some depth := by
  refine nesting?_of_forall (fun c hc => ⟨?_, ?_⟩) depth
  · rintro rfl
    exact h.2 _ hc (by decide)
  · rintro rfl
    exact h.2 _ hc (by decide)

/-- After a sum in parentheses the depth is what it was before. -/
theorem nesting?_sumOf {left right : List Char} (hl : IsPart left) (hr : IsPart right)
    (depth : Nat) : nesting? depth (sumOf left right) = some depth := by
  have hopen : depthAfter? depth '(' = some (depth + 1) := rfl
  have hplus : depthAfter? (depth + 1) '+' = some (depth + 1) := rfl
  have hclose : Footrule.nesting? (depth + 1) [')'] = some depth := rfl
  rw [sumOf, List.cons_append, List.cons_append, List.append_assoc, List.cons_append,
    nesting?_cons, hopen, Option.bind_some, nesting?_append, hl.nesting?, Option.bind_some,
    nesting?_cons, hplus, Option.bind_some, nesting?_append, hr.nesting?, Option.bind_some, hclose]

end Nesting

theorem Thinned.bare {cs cs' : List Char} (h : Thinned cs cs') : bare cs' = bare cs :=
  congrArg (List.filter (· ∉ sumSigns)) h.unblanked

theorem Thinned.nesting? {cs cs' : List Char} (h : Thinned cs cs') (depth : Nat) :
    nesting? depth cs' = nesting? depth cs := by
  have hblank (c : Char) (hc : (!isBlank c) = false) : c ≠ '(' ∧ c ≠ ')' := by
    refine ⟨?_, ?_⟩ <;>
      · rintro rfl
        exact absurd hc (by decide)
  rw [← nesting?_filter hblank, ← nesting?_filter hblank depth cs]
  exact congrArg (Footrule.nesting? depth) h.unblanked

namespace Grouped

variable {n : Nat} {cs cs' : List Char}

/-- A sum has the characters of its parts. -/
theorem bare_sumOf (left right : List Char) : bare (sumOf left right) = bare left ++ bare right := by
  have hopen : bare ['('] = [] := by decide
  have hplus : bare ['+'] = [] := by decide
  have hclose : bare [')'] = [] := by decide
  have hsum : sumOf left right = ['('] ++ (left ++ (['+'] ++ (right ++ [')']))) := by simp [sumOf]
  simp only [hsum, bare_append, hopen, hplus, hclose, List.nil_append, List.append_nil]

theorem bare (h : Grouped n cs cs') : bare cs' = bare cs := by
  induction h with
  | nil => rfl
  | keep c _ ih =>
    rw [← List.singleton_append, bare_append, ih, ← bare_append, List.singleton_append]
  | sum _ _ _ ih => rw [bare_append, bare_append, bare_append, bare_sumOf, ih]

/-- Each sum brings one of each of its signs. -/
theorem count {c : Char} (hc : c ∈ sumSigns) (h : Grouped n cs cs') :
    cs'.count c = cs.count c + n := by
  induction h with
  | nil => rfl
  | keep d _ ih =>
    rw [List.count_cons, List.count_cons, ih]
    omega
  | @sum left right n cs cs' hl hr _ ih =>
    have hleft : left.count c = 0 := List.count_eq_zero.2 fun h => hl.2 c h hc
    have hright : right.count c = 0 := List.count_eq_zero.2 fun h => hr.2 c h hc
    have hone : (sumOf left right).count c = 1 := by
      simp only [sumOf, List.cons_append, List.count_cons, List.count_append, List.count_nil, hleft,
        hright]
      exact (by decide : ∀ c ∈ sumSigns, 0 + (0 + if '+' == c then 1 else 0) +
        (0 + if ')' == c then 1 else 0) + (if '(' == c then 1 else 0) = 1) c hc
    rw [List.count_append, hone, List.count_append, List.count_append, hleft, hright, ih]
    omega

theorem nesting? (h : Grouped n cs cs') (depth : Nat) : nesting? depth cs' = nesting? depth cs := by
  induction h generalizing depth with
  | nil => rfl
  | keep c _ ih => simp only [nesting?_cons, ih]
  | sum hl hr _ ih =>
    rw [nesting?_append, nesting?_sumOf hl hr, nesting?_append, nesting?_append, hl.nesting?,
      Option.bind_some, Option.bind_some, hr.nesting?, Option.bind_some, ih]

end Grouped

theorem depthAfter?_plainSign (depth : Nat) (c : Char) :
    depthAfter? depth (plainSign c) = depthAfter? depth c := by
  by_cases hc : c ∈ typographicSigns
  · obtain ⟨hplain, hsign⟩ := (by decide : ∀ c ∈ typographicSigns,
      (plainSign c ≠ '(' ∧ plainSign c ≠ ')') ∧ c ≠ '(' ∧ c ≠ ')') c hc
    rw [depthAfter?_of_not_paren hplain, depthAfter?_of_not_paren hsign]
  · rw [plainSign_eq_self hc]

theorem balanced_plainSigns (cs : List Char) : Balanced (plainSigns cs) ↔ Balanced cs := by
  have hnest : nesting? 0 (plainSigns cs) = nesting? 0 cs := by
    simp only [nesting?, plainSigns, List.foldlM_map, depthAfter?_plainSign]
  rw [Balanced, hnest, Balanced]

/--
**The preparation loses nothing.** From an expression in arithmetic signs it leaves out blanks, and
then writes a number of sums in parentheses. So the two have the same characters that are neither
blank nor signs of a sum, each of these signs occurs as many times more as sums are written, and the
parentheses of the formula match exactly if those of the expression do.
-/
theorem prepare_grouped (mode : Mode) (expression : List Char) :
    ∃ formula thin n, (prepare mode expression).result = .ok formula ∧
      Thinned (plainSigns expression) thin ∧ Grouped n thin formula ∧
      bare formula = bare (plainSigns expression) ∧
      formula.count '(' = (plainSigns expression).count '(' + n ∧
      formula.count '+' = (plainSigns expression).count '+' + n ∧
      formula.count ')' = (plainSigns expression).count ')' + n ∧
      (Balanced formula ↔ Balanced expression) := by
  obtain ⟨thin, n, hthin, hgroup⟩ := grouped_formula mode expression
  have hcount {c : Char} (hc : c ∈ sumSigns) :
      (finish mode (joinFractions (plainSigns (trim expression)))).count c =
        (plainSigns expression).count c + n := by
    rw [hgroup.count hc, hthin.count ((by decide : ∀ c ∈ sumSigns, isBlank c = false) c hc)]
  refine ⟨_, thin, n, rfl, hthin, hgroup, hgroup.bare.trans hthin.bare, hcount (by decide),
    hcount (by decide), hcount (by decide), ?_⟩
  rw [← balanced_plainSigns expression, Balanced, hgroup.nesting?, hthin.nesting?, Balanced]

end Footrule
