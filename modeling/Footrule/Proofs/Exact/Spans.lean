import Footrule.Proofs.Plain.Sums

/-!
# How a text is cut into numbers and signs

A text is cut from its left end: the longest literal that stands there, with the name of a unit
directly after it, or a sign, or a stray character (`Cut`). There is one way to do so, and the
lexemes are the outcome (`cut_iff`). The tokens of an accepted text are the text without its blanks,
and a text is refused exactly if a stray is not blank; what is reported is the first stretch of
strays that is not all blank (`tokenize_covers`).
-/

namespace Footrule

/-! ## Longest literals -/

/-- The literal is the longest one that the text begins with. -/
structure LongestAt (l : Literal) (cs : List Char) : Prop where
  digital : l.Digital
  starts : l.text <+: cs
  longest : ∀ l' : Literal, l'.Digital → l'.text <+: cs → l'.text.length ≤ l.text.length

theorem DigitRun.append {run more : List Char} (h : DigitRun run)
    (hm : ∀ c ∈ more, isDigit c = true) : DigitRun (run ++ more) :=
  ⟨List.append_ne_nil_of_left_ne_nil h.1 _, List.forall_mem_append.2 ⟨h.2, hm⟩⟩

namespace Literal

theorem length_le_continueRun (run k : List Char) :
    run.length ≤ (continueRun run k).1.text.length := by
  unfold continueRun
  split <;> simp only [text, List.length_append, List.length_cons] <;> omega

/-- Where a literal stands, one is found that is at least as long: the digits go on to their end. -/
theorem exists_scan?_of_digital {l : Literal} (hl : l.Digital) (k : List Char) :
    ∃ l' rest, scan? (l.text ++ k) = some (l', rest) ∧ l.text.length ≤ l'.text.length := by
  have hmore : ∀ c ∈ k.takeWhile isDigit, isDigit c = true := List.all_eq_true.1 List.all_takeWhile
  have hrest : NoDigitFirst (k.dropWhile isDigit) := head_dropWhile isDigit k
  rw [← List.takeWhile_append_dropWhile (p := isDigit) (l := k)]
  generalize k.takeWhile isDigit = more at hmore
  generalize k.dropWhile isDigit = rest at hrest
  cases l with
  | whole run =>
    have hscan := scan?_append (DigitRun.append hl hmore) hrest
    rw [List.append_assoc] at hscan
    refine ⟨_, _, hscan, Nat.le_trans ?_ (length_le_continueRun _ _)⟩
    rw [text, List.length_append]
    omega
  | decimal run decimals =>
    have hscan := scan?_decimal hl.1 (hl.2.append hmore) hrest
    rw [List.append_assoc] at hscan
    refine ⟨_, _, (congrArg scan? (decimal_text_append _ _ _)).trans hscan, ?_⟩
    simp only [text, List.length_append, List.length_cons]
    omega
  | fraction num den =>
    have hscan := scan?_fraction hl.1 (hl.2.append hmore) hrest
    rw [List.append_assoc] at hscan
    refine ⟨_, _, (congrArg scan? (fraction_text_append _ _ _)).trans hscan, ?_⟩
    simp only [text, List.length_append, List.length_cons]
    omega
  | mixed run gap num den =>
    obtain ⟨hr, hg, hn, hd⟩ := hl
    have hscan := scan?_mixed hr hg hn (hd.append hmore) hrest
    rw [List.append_assoc] at hscan
    refine ⟨_, _, (congrArg scan? (mixed_text_append _ _ _ _ _)).trans hscan, ?_⟩
    simp only [text, List.length_append, List.length_cons]
    omega

/-- A literal is known from its text. -/
theorem eq_of_text_eq {l l' : Literal} (hl : l.Digital) (hl' : l'.Digital)
    (h : l.text = l'.text) : l = l' := by
  have hscan := scan?_text hl
  rw [h, scan?_text hl'] at hscan
  exact (congrArg Prod.fst (Option.some.inj hscan)).symm

/-- **What is found is the longest literal that the text begins with.** -/
theorem scan?_eq_some_iff {cs rest : List Char} {l : Literal} :
    scan? cs = some (l, rest) ↔ LongestAt l cs ∧ cs = l.text ++ rest := by
  have hlongest {l : Literal} {rest : List Char} (h : scan? cs = some (l, rest)) :
      ∀ l' : Literal, l'.Digital → l'.text <+: cs → l'.text.length ≤ l.text.length := by
    rintro l' hl' ⟨k, rfl⟩
    obtain ⟨l'', rest', hscan, hle⟩ := exists_scan?_of_digital hl' k
    rw [h] at hscan
    cases hscan
    exact hle
  refine ⟨fun h => ⟨⟨digital_of_scan? h, ⟨rest, (append_of_scan? h).symm⟩, hlongest h⟩,
    append_of_scan? h⟩, ?_⟩
  rintro ⟨⟨hl, hstarts, hmax⟩, hcs⟩
  obtain ⟨l', rest', hscan, hle⟩ := exists_scan?_of_digital hl rest
  rw [← hcs] at hscan
  have hcs' := append_of_scan? hscan
  have hle' := hmax l' (digital_of_scan? hscan) ⟨rest', hcs'.symm⟩
  obtain ⟨htext, rfl⟩ := List.append_inj (hcs.symm.trans hcs') (by omega)
  rw [hscan, eq_of_text_eq hl (digital_of_scan? hscan) htext]

theorem scan?_eq_none_iff {cs : List Char} :
    scan? cs = none ↔ ∀ l : Literal, l.Digital → ¬ l.text <+: cs := by
  refine ⟨?_, fun h => Option.eq_none_iff_forall_ne_some.2 fun ⟨l, rest⟩ hscan => ?_⟩
  · rintro h l hl ⟨k, rfl⟩
    obtain ⟨l', rest, hscan, -⟩ := exists_scan?_of_digital hl k
    rw [h] at hscan
    cases hscan
  · exact h l (digital_of_scan? hscan) ⟨rest, (append_of_scan? hscan).symm⟩

end Literal

/-! ## Cutting a text -/

/-- A text is cut into numbers, signs and stray characters from left to right. -/
inductive Cut (mode : Mode) : List Char → List Lexeme → Prop
  | nil : Cut mode [] []
  | number {l : Literal} {name : Option (List Char)} {rest : List Char} {ls : List Lexeme} :
      LongestAt l (l.text ++ (name.getD [] ++ rest)) → EndsName mode name rest →
      Cut mode rest ls → Cut mode (l.text ++ (name.getD [] ++ rest)) (.number l name :: ls)
  | mark (m : Mark) {rest : List Char} {ls : List Lexeme} :
      Cut mode rest ls → Cut mode (m.sign :: rest) (.mark m :: ls)
  | stray {c : Char} {rest : List Char} {ls : List Lexeme} :
      (∀ l : Literal, l.Digital → ¬ l.text <+: c :: rest) → (∀ m : Mark, m.sign ≠ c) →
      Cut mode rest ls → Cut mode (c :: rest) (.stray c :: ls)

theorem endsName_unitName (mode : Mode) (cs : List Char) :
    EndsName mode (Lexeme.unitName mode cs).1 (Lexeme.unitName mode cs).2 := by
  cases mode with
  | basic => exact ⟨trivial, nofun⟩
  | advanced =>
    have hhead := head_dropWhile Char.isAlpha cs
    rw [Lexeme.unitName]
    split
    · next h =>
      have hcs := List.takeWhile_append_dropWhile (p := Char.isAlpha) (l := cs)
      rw [h, List.nil_append] at hcs
      rw [hcs] at hhead
      exact ⟨trivial, fun _ => hhead⟩
    · next c name h =>
      have hname : ∀ c ∈ cs.takeWhile Char.isAlpha, c.isAlpha = true :=
        List.all_eq_true.1 List.all_takeWhile
      exact ⟨⟨rfl, List.cons_ne_nil c name, h ▸ hname⟩, fun _ => hhead⟩

theorem Lexeme.single_of_not_sign {c : Char} (h : ∀ m : Mark, m.sign ≠ c) :
    single c = .stray c := by
  unfold single
  split
  · next m hm => exact (h m (Mark.sign_of_ofSign? hm)).elim
  · rfl

/-- **There is one way to cut a text, and the lexemes are the outcome.** -/
theorem cut_iff {mode : Mode} {cs : List Char} {ls : List Lexeme} :
    Cut mode cs ls ↔ ls = lexemes mode cs := by
  refine ⟨fun h => ?_, ?_⟩
  · induction h with
    | nil => rw [lexemes_nil]
    | number hl hname _ ih =>
      rw [lexemes_of_scan? (Literal.scan?_eq_some_iff.2 ⟨hl, rfl⟩), unitName_of_endsName hname, ih]
    | mark m _ ih => rw [lexemes_sign, ih]
    | stray hscan hm _ ih =>
      rw [lexemes_of_not_scan? (Literal.scan?_eq_none_iff.2 hscan), Lexeme.single_of_not_sign hm,
        ih]
  · rintro rfl
    fun_induction lexemes mode cs with
    | case1 => exact .nil
    | case2 c cs l rest h _ ih =>
      obtain ⟨hl, hcs⟩ := Literal.scan?_eq_some_iff.1 h
      have hname := Lexeme.append_unitName mode rest
      have hcut := Cut.number (by rwa [hname, ← hcs]) (endsName_unitName mode rest) ih
      rwa [hname, ← hcs] at hcut
    | case3 c cs h ih =>
      cases hm : Mark.ofSign? c with
      | some m =>
        rw [← Mark.sign_of_ofSign? hm, Lexeme.single_sign]
        exact .mark m ih
      | none =>
        have hsign (m : Mark) : m.sign ≠ c := by
          rintro rfl
          rw [Mark.ofSign?_sign] at hm
          cases hm
        rw [Lexeme.single_of_not_sign hsign]
        exact .stray (Literal.scan?_eq_none_iff.1 h) hsign ih

/-- A stray is no digit and no sign. -/
theorem Cut.stray_mem {mode : Mode} {cs : List Char} {ls : List Lexeme} (h : Cut mode cs ls)
    {c : Char} (hc : .stray c ∈ ls) : isDigit c = false ∧ ∀ m : Mark, m.sign ≠ c := by
  induction h with
  | nil => cases hc
  | number _ _ _ ih => exact ih ((List.mem_cons.1 hc).resolve_left nofun)
  | mark m _ ih => exact ih ((List.mem_cons.1 hc).resolve_left nofun)
  | @stray d rest ls hscan hm _ ih =>
    rcases List.mem_cons.1 hc with h | h
    · cases h
      refine ⟨Bool.eq_false_iff.2 fun hd => ?_, hm⟩
      exact hscan (.whole [c]) ⟨by simp, by simpa using hd⟩ ⟨rest, rfl⟩
    · exact ih h

/-! ## Accepted texts -/

/-- The characters of a text that are not blank. -/
def unblanked (cs : List Char) : List Char := cs.filter fun c => !isBlank c

theorem flatMap_text_numberTokens (afterDiv : Bool) (l : Literal) (name : Option (List Char)) :
    (numberTokens afterDiv l name).flatMap Token.text = (Lexeme.number l name).text := by
  unfold numberTokens
  split
  · simp [Token.text, Lexeme.text, Literal.text, Mark.sign, Operator.sign]
  · exact List.flatMap_singleton _ _

/-- The tokens are the lexemes without the strays, of which only blanks are lost. -/
theorem unblanked_tokensOf {ls : List Lexeme} (h : ∀ c, .stray c ∈ ls → isBlank c = true)
    (afterDiv : Bool) :
    unblanked ((tokensOf afterDiv ls).flatMap Token.text) = unblanked (ls.flatMap Lexeme.text) := by
  induction ls generalizing afterDiv with
  | nil => rfl
  | cons x ls ih =>
    have hls (afterDiv : Bool) := ih (fun c hc => h c (List.mem_cons_of_mem x hc)) afterDiv
    simp only [unblanked] at hls ⊢
    cases x with
    | number l name =>
      rw [tokensOf, List.flatMap_append, flatMap_text_numberTokens, List.flatMap_cons,
        List.filter_append, List.filter_append, hls]
    | mark m =>
      rw [tokensOf, List.flatMap_cons, List.flatMap_cons, List.filter_append, List.filter_append,
        hls]
      rfl
    | stray c =>
      have hc := h c List.mem_cons_self
      rw [tokensOf, List.flatMap_cons, List.filter_append, hls]
      simp [Lexeme.text, hc]

/-! ## Refused texts -/

/-- The first stretch of strays, as long as it goes, that is not all blank. -/
def FirstStretch (ls : List Lexeme) (stretch : List Char) : Prop :=
  ∃ before after, ls = before ++ (stretch.map .stray ++ after) ∧
    (∀ c, .stray c ∈ before → isBlank c = true) ∧ (∀ c, before.getLast? ≠ some (.stray c)) ∧
    (∀ c, after.head? ≠ some (.stray c)) ∧ ∃ c ∈ stretch, isBlank c = false

theorem FirstStretch.stray_mem {ls : List Lexeme} {stretch : List Char}
    (h : FirstStretch ls stretch) {c : Char} (hc : c ∈ stretch) : .stray c ∈ ls := by
  obtain ⟨before, after, rfl, -⟩ := h
  exact List.mem_append_right _ (List.mem_append_left _ (List.mem_map_of_mem hc))

theorem FirstStretch.exists_not_blank {ls : List Lexeme} {stretch : List Char}
    (h : FirstStretch ls stretch) : ∃ c, .stray c ∈ ls ∧ isBlank c = false := by
  have hstray {c : Char} (hc : c ∈ stretch) := h.stray_mem hc
  obtain ⟨-, -, -, -, -, -, c, hc, hb⟩ := h
  exact ⟨c, hstray hc, hb⟩

/-- Lexemes begin with a stretch of strays, and after it comes the end or another lexeme. -/
theorem gaps_cases (ls : List Lexeme) :
    (∃ stretch, ls = stretch.map .stray ∧ gaps ls = [stretch]) ∨
      ∃ stretch x ls', (∀ c, x ≠ .stray c) ∧ ls = stretch.map .stray ++ x :: ls' ∧
        gaps ls = stretch :: gaps ls' := by
  induction ls with
  | nil => exact .inl ⟨[], rfl, rfl⟩
  | cons x ls ih =>
    cases x with
    | stray c =>
      rcases ih with ⟨stretch, rfl, hgaps⟩ | ⟨stretch, x, ls', hx, rfl, hgaps⟩
      · exact .inl ⟨c :: stretch, rfl, by rw [gaps, hgaps]; rfl⟩
      · exact .inr ⟨c :: stretch, x, ls', hx, rfl, by rw [gaps, hgaps]; rfl⟩
    | number l name =>
      exact .inr ⟨[], .number l name, ls, fun _ h => Lexeme.noConfusion h, rfl, rfl⟩
    | mark m => exact .inr ⟨[], .mark m, ls, fun _ h => Lexeme.noConfusion h, rfl, rfl⟩

theorem exists_not_blank_of_trim {cs : List Char} (h : trim cs ≠ []) :
    ∃ c ∈ cs, isBlank c = false := by
  rw [ne_eq, trim_eq_nil_iff] at h
  simpa using h

theorem firstStretch_of_trim {stretch : List Char} (h : trim stretch ≠ []) {after : List Lexeme}
    (hnext : ∀ c, after.head? ≠ some (.stray c)) :
    FirstStretch (stretch.map .stray ++ after) stretch :=
  ⟨[], after, rfl, nofun, fun _ => nofun, hnext, exists_not_blank_of_trim h⟩

/-- A blank stretch and a lexeme may stand before. -/
theorem FirstStretch.after {blanks : List Char} (hblank : ∀ c ∈ blanks, isBlank c = true)
    {x : Lexeme} (hx : ∀ c, x ≠ .stray c) {ls : List Lexeme} {stretch : List Char}
    (h : FirstStretch ls stretch) : FirstStretch (blanks.map .stray ++ x :: ls) stretch := by
  obtain ⟨before, after, rfl, hb, hlast, hnext, hc⟩ := h
  refine ⟨blanks.map .stray ++ x :: before, after, by simp, fun c hmem => ?_, fun c => ?_, hnext,
    hc⟩
  · rcases List.mem_append.1 hmem with hmem | hmem
    · obtain ⟨d, hd, he⟩ := List.mem_map.1 hmem
      cases he
      exact hblank c hd
    · exact hb c ((List.mem_cons.1 hmem).resolve_left fun he => hx c he.symm)
  · rw [List.getLast?_append, List.getLast?_cons]
    cases hbefore : before.getLast? with
    | none => exact fun he => hx c (Option.some.inj he)
    | some y =>
      have hy := hlast c
      rwa [hbefore] at hy

/-- What is reported is the first stretch that is not all blank, without the blanks around it. -/
theorem exists_firstStretch {ls : List Lexeme} {g : List Char} (h : firstUnexpected? ls = some g) :
    ∃ stretch, FirstStretch ls stretch ∧ g = trim stretch := by
  induction hn : ls.length using Nat.strongRecOn generalizing ls with
  | ind n ih =>
    subst hn
    rcases gaps_cases ls with ⟨stretch, hls, hgaps⟩ | ⟨stretch, x, ls', hx, hls, hgaps⟩
    · rw [firstUnexpected?, hgaps, List.map_singleton] at h
      have hblank : trim stretch ≠ [] := fun hb => by simp [hb] at h
      rw [List.find?_cons_of_pos (by simp [hblank])] at h
      cases h
      have hfirst : FirstStretch (stretch.map .stray ++ []) stretch :=
        firstStretch_of_trim hblank fun _ => nofun
      rw [List.append_nil, ← hls] at hfirst
      exact ⟨stretch, hfirst, rfl⟩
    · rw [hls]
      by_cases hblank : trim stretch = []
      · rw [firstUnexpected?, hgaps, List.map_cons, List.find?_cons_of_neg (by simp [hblank])] at h
        obtain ⟨stretch', hfirst, rfl⟩ := ih ls'.length (by rw [hls]; simp; omega) h rfl
        exact ⟨stretch', hfirst.after (trim_eq_nil_iff.1 hblank) hx, rfl⟩
      · rw [firstUnexpected?, hgaps, List.map_cons, List.find?_cons_of_pos (by simp [hblank])] at h
        cases h
        exact ⟨stretch, firstStretch_of_trim hblank fun c hc => hx c (Option.some.inj hc), rfl⟩

theorem mem_of_mem_trim {cs : List Char} {c : Char} (h : c ∈ trim cs) : c ∈ cs := by
  obtain ⟨gap, gap', -, -, hcs⟩ := exists_eq_gap_trim_gap cs
  rw [hcs]
  exact List.mem_append_right _ (List.mem_append_left _ h)

theorem result_tokenize_eq_error_iff {mode : Mode} {formula : List Char} {e : CalcError} :
    (tokenize mode formula).result = .error e ↔
      ∃ g, firstUnexpected? (lexemes mode formula) = some g ∧
        e = .unexpected (String.ofList g) := by
  cases h : firstUnexpected? (lexemes mode formula) with
  | none => simp [tokenize, h, Except.map]
  | some g => simp [tokenize, h, Except.bind, eq_comm]

/-! ## The scanner -/

/-- The signs of the marks. -/
theorem exists_sign_of_mem {c : Char} (h : c ∈ ['+', '-', '*', '/', '(', ')']) :
    ∃ m : Mark, m.sign = c := by
  have hall : ['+', '-', '*', '/', '(', ')'] = Mark.all.map Mark.sign := rfl
  rw [hall] at h
  obtain ⟨m, -, hm⟩ := List.mem_map.1 h
  exact ⟨m, hm⟩

/--
**The scanner covers the text.** The text is cut into the longest literals, the names of units that
stand directly after them, the signs, and strays. If the text is accepted, its tokens are those of
the numbers and signs, and as a text they are the given one but for blanks. If not, then the first
stretch of strays that is not all blank is reported, which holds no digit and no sign. It is refused
exactly if some stray is not blank.
-/
theorem tokenize_covers (mode : Mode) (s : List Char) :
    ∃ ls, Cut mode s ls ∧
      (∀ ts, (tokenize mode s).result = .ok ts →
        ts = tokensOf false ls ∧ unblanked (ts.flatMap Token.text) = unblanked s) ∧
      (∀ e, (tokenize mode s).result = .error e →
        ∃ stretch, FirstStretch ls stretch ∧ e = .unexpected (String.ofList (trim stretch)) ∧
          e.kind.label = "SyntaxError" ∧
          e.message = "Unexpected: '" ++ String.ofList (trim stretch) ++ "'" ∧
          ∀ c ∈ trim stretch, isDigit c = false ∧ c ∉ ['+', '-', '*', '/', '(', ')']) ∧
      ((∃ e, (tokenize mode s).result = .error e) ↔ ∃ c, .stray c ∈ ls ∧ isBlank c = false) := by
  have hcut : Cut mode s (lexemes mode s) := cut_iff.2 rfl
  refine ⟨lexemes mode s, hcut, fun ts h => ?_, fun e h => ?_, ?_⟩
  · obtain ⟨hblank, rfl⟩ := accepted?_eq_some_iff.1 (result_tokenize_eq_ok_iff.1 h)
    exact ⟨rfl, by rw [unblanked_tokensOf hblank, flatMap_text_lexemes]⟩
  · obtain ⟨g, hg, rfl⟩ := result_tokenize_eq_error_iff.1 h
    obtain ⟨stretch, hfirst, rfl⟩ := exists_firstStretch hg
    refine ⟨stretch, hfirst, rfl, rfl, rfl, fun c hc => ?_⟩
    obtain ⟨hdigit, hsign⟩ := hcut.stray_mem (hfirst.stray_mem (mem_of_mem_trim hc))
    refine ⟨hdigit, fun hc => ?_⟩
    obtain ⟨m, hm⟩ := exists_sign_of_mem hc
    exact hsign m hm
  · refine ⟨fun ⟨e, he⟩ => ?_, fun ⟨c, hc, hb⟩ => ?_⟩
    · obtain ⟨g, hg, -⟩ := result_tokenize_eq_error_iff.1 he
      obtain ⟨stretch, hfirst, -⟩ := exists_firstStretch hg
      exact hfirst.exists_not_blank
    · cases h : (tokenize mode s).result with
      | error e => exact ⟨e, rfl⟩
      | ok ts =>
        obtain ⟨hblank, -⟩ := accepted?_eq_some_iff.1 (result_tokenize_eq_ok_iff.1 h)
        rw [hblank c hc] at hb
        cases hb

end Footrule
