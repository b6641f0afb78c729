import MlogAsm.Token.Segment

/-!
# The languages of the rules

What the pieces of each lexical rule look like, said without looking at how the rule reads a text. A
rule takes the longest beginning of a text that is in its language. So what it takes depends on
nothing but which beginnings of the text are in the language.
-/

namespace MlogAsm

/-- Characters of one class, at least one of them. -/
structure Run (p : Char → Bool) (cs : List Char) : Prop where
  ne_nil : cs ≠ []
  all : ∀ c ∈ cs, p c = true

/-- What may stand between quotes: no quote, no line end and no single backslash, but a backslash
with any other character of the line behind it. -/
inductive Quotable : List Char → Prop where
  | nil : Quotable []
  | plain {c : Char} {cs : List Char} (hq : c ≠ '"') (hb : c ≠ '\\') (hn : c ≠ '\n')
      (h : Quotable cs) : Quotable (c :: cs)
  | escape {c : Char} {cs : List Char} (hn : c ≠ '\n') (h : Quotable cs) :
      Quotable ('\\' :: c :: cs)

theorem Run.not_mem {p : Char → Bool} {cs : List Char} (h : Run p cs) {c : Char}
    (hc : p c = false) : c ∉ cs := by
  intro hm
  rw [h.all c hm] at hc
  cases hc

theorem Run.exists_cons {p : Char → Bool} {cs : List Char} (h : Run p cs) :
    ∃ c tail, cs = c :: tail ∧ p c = true := by
  obtain ⟨c, tail, hcs⟩ := List.exists_cons_of_ne_nil h.ne_nil
  exact ⟨c, tail, hcs, h.all c (by simp [hcs])⟩

theorem Run.takeWhile {p : Char → Bool} {cs : List Char} (h : cs.takeWhile p ≠ []) :
    Run p (cs.takeWhile p) :=
  ⟨h, fun c hc ↦ List.all_eq_true.mp List.all_takeWhile c hc⟩

/-- A run in front of a character of another class is taken as it is. -/
theorem Run.takeWhile_append_cons {p : Char → Bool} {cs : List Char} (h : Run p cs) {c : Char}
    (hc : p c = false) (rest : List Char) : (cs ++ c :: rest).takeWhile p = cs := by
  rw [List.takeWhile_append_of_pos h.all]
  simp [hc]

theorem Run.dropWhile_append_cons {p : Char → Bool} {cs : List Char} (h : Run p cs) {c : Char}
    (hc : p c = false) (rest : List Char) : (cs ++ c :: rest).dropWhile p = c :: rest := by
  rw [List.dropWhile_append_of_pos h.all]
  simp [hc]

theorem Quotable.newline_not_mem {body : List Char} (h : Quotable body) : '\n' ∉ body := by
  induction h with
  | nil => simp
  | plain hq hb hn _ ih => simp [hn.symm, ih]
  | escape hn _ ih => simp [hn.symm, ih]

/-- A beginning of a list without a certain element does not go beyond it. -/
theorem prefix_append_cons_iff {α : Type} {stop : α} {u : List α} (h : stop ∉ u)
    (cs rest : List α) : u <+: cs ++ stop :: rest ↔ u <+: cs := by
  induction u generalizing cs with
  | nil => simp
  | cons c u ih =>
    rw [List.mem_cons, not_or] at h
    cases cs with
    | nil => simp [List.cons_prefix_cons, Ne.symm h.1]
    | cons d cs => simp [List.cons_prefix_cons, ih h.2]

namespace Rule

/-- A minus sign or none. -/
def IsSign (cs : List Char) : Prop :=
  cs = [] ∨ cs = ['-']

/-- Words of a language with a minus sign that may stand before them. -/
def Signed (language : List Char → Prop) (cs : List Char) : Prop :=
  ∃ sign word, cs = sign ++ word ∧ IsSign sign ∧ language word

/-- Digits, a point and digits. -/
def IsDecimal (cs : List Char) : Prop :=
  ∃ whole fraction, cs = whole ++ '.' :: fraction ∧ Run Text.isDecimalDigit whole ∧
    Run Text.isDecimalDigit fraction

/-- The language of a rule. -/
def Matches : Rule → List Char → Prop
  | routine, cs =>
    ∃ gap word, cs = routineWord ++ (gap ++ (word ++ [':'])) ∧ Run isGap gap ∧ Run isWordChar word
  | label, cs => ∃ word, cs = word ++ [':'] ∧ Run isWordChar word
  | float, cs => Signed IsDecimal cs
  | int, cs => Signed (Run Text.isDecimalDigit) cs
  | string, cs => ∃ body, cs = '"' :: (body ++ ['"']) ∧ Quotable body
  | sysvar, cs =>
    ∃ c tail, cs = '@' :: c :: tail ∧ c.isAlpha = true ∧
      ∀ d ∈ tail, (d.isAlphanum || d == '-') = true
  | name, cs =>
    ∃ c tail, cs = c :: tail ∧ (c.isAlpha || c == '_') = true ∧ ∀ d ∈ tail, isWordChar d = true
  | newline, cs => cs = ['\n']
  | comment, cs => ∃ tail, cs = '#' :: tail ∧ '\n' ∉ tail

/-- What is taken off a text is the longest beginning of it that is in a language. -/
structure TakesLongest (language : List Char → Prop) (piece? : List Char → Option (List Char)) :
    Prop where
  sound : ∀ {cs piece}, piece? cs = some piece → language piece ∧ piece <+: cs
  longest : ∀ {u} (rest), language u → ∃ piece, piece? (u ++ rest) = some piece ∧ u <+: piece

namespace TakesLongest

variable {language : List Char → Prop} {piece? : List Char → Option (List Char)}
  {cs cs' piece u : List Char}

theorem exists_of_prefix (h : TakesLongest language piece?) (hu : language u) (hp : u <+: cs) :
    ∃ piece, piece? cs = some piece ∧ u <+: piece := by
  obtain ⟨rest, hrest⟩ := hp
  rw [← hrest]
  exact h.longest rest hu

/-- Two texts with the same beginnings in the language give the same piece. -/
theorem congr (h : TakesLongest language piece?)
    (hcs : ∀ u, language u → (u <+: cs ↔ u <+: cs')) : piece? cs = piece? cs' := by
  cases hp : piece? cs with
  | none =>
    cases hq : piece? cs' with
    | none => rfl
    | some q =>
      obtain ⟨hl, hpre⟩ := h.sound hq
      obtain ⟨piece, hpiece, _⟩ := h.exists_of_prefix hl ((hcs q hl).mpr hpre)
      rw [hp] at hpiece
      cases hpiece
  | some p =>
    obtain ⟨hl, hpre⟩ := h.sound hp
    obtain ⟨q, hq, hpq⟩ := h.exists_of_prefix hl ((hcs p hl).mp hpre)
    obtain ⟨hl', hpre'⟩ := h.sound hq
    obtain ⟨p', hp', hqp⟩ := h.exists_of_prefix hl' ((hcs q hl').mpr hpre')
    rw [hp] at hp'
    cases hp'
    rw [hq, hpq.eq_of_length_le hqp.length_le]

/-- Nothing behind the piece matters. -/
theorem eq_some_self (h : TakesLongest language piece?) {back : List Char}
    (hp : piece? (piece ++ back) = some piece) : piece? piece = some piece := by
  have hl : language piece := (h.sound hp).1
  obtain ⟨q, hq, hpq⟩ := h.exists_of_prefix hl (List.prefix_refl piece)
  have hle : q.length ≤ piece.length := (h.sound hq).2.length_le
  rw [hq, hpq.eq_of_length_le hle]

/-- Nothing is taken off a part of a text if nothing is taken off the text. -/
theorem eq_none_of_append (h : TakesLongest language piece?) {back : List Char}
    (hn : piece? (cs ++ back) = none) : piece? cs = none := by
  cases hp : piece? cs with
  | none => rfl
  | some piece =>
    obtain ⟨hl, hpre⟩ := h.sound hp
    obtain ⟨q, hq, _⟩ := h.exists_of_prefix hl (hpre.trans (List.prefix_append cs back))
    rw [hn] at hq
    cases hq

end TakesLongest

theorem takesLongest_labelLexeme? : TakesLongest label.Matches labelLexeme? where
  sound := by
    intro cs piece h
    refine ⟨?_, (takes_labelLexeme? h).2⟩
    unfold labelLexeme? at h
    split at h
    · dsimp only at h
      split at h
      · cases h
      · next hw =>
        cases h
        exact ⟨_, rfl, .takeWhile (by simpa using hw)⟩
    · cases h
  longest := by
    rintro u rest ⟨word, rfl, hw⟩
    have hcolon : isWordChar ':' = false := by decide
    refine ⟨word ++ [':'], ?_, List.prefix_refl _⟩
    rw [List.append_assoc, List.singleton_append]
    unfold labelLexeme?
    rw [hw.takeWhile_append_cons hcolon, hw.dropWhile_append_cons hcolon]
    simp [hw.ne_nil]

theorem not_isGap_of_isWordChar {c : Char} (h : isWordChar c = true) : isGap c = false := by
  cases hg : isGap c with
  | false => rfl
  | true =>
    simp only [isGap, Bool.or_eq_true, beq_iff_eq] at hg
    rcases hg with rfl | rfl <;> revert h <;> decide

private theorem takesLongest_routineLexeme? : TakesLongest routine.Matches routineLexeme? where
  sound := by
    intro cs piece h
    refine ⟨?_, (takes_routineLexeme? h).2⟩
    unfold routineLexeme? at h
    dsimp only at h
    split at h
    · next hp =>
      have hgap := (Bool.and_eq_true_iff.mp hp).2
      obtain ⟨tail, htail, hpiece⟩ := Option.map_eq_some_iff.mp h
      obtain ⟨word, hword, hw⟩ := (takesLongest_labelLexeme?.sound htail).1
      subst hpiece hword
      exact ⟨_, word, List.append_assoc _ _ _, .takeWhile (by simpa using hgap), hw⟩
    · cases h
  longest := by
    rintro u rest ⟨gap, word, rfl, hg, hw⟩
    obtain ⟨c, tail, hcons, hc⟩ := hw.exists_cons
    obtain ⟨piece, hpiece, hpre⟩ := takesLongest_labelLexeme?.longest rest ⟨word, rfl, hw⟩
    refine ⟨routineWord ++ gap ++ piece, ?_, ?_⟩
    · have hgap : ((gap ++ (word ++ [':'])) ++ rest).takeWhile isGap = gap ∧
          ((gap ++ (word ++ [':'])) ++ rest).dropWhile isGap = (word ++ [':']) ++ rest := by
        rw [List.append_assoc gap, hcons, List.cons_append, List.cons_append]
        exact ⟨hg.takeWhile_append_cons (not_isGap_of_isWordChar hc) _,
          hg.dropWhile_append_cons (not_isGap_of_isWordChar hc) _⟩
      unfold routineLexeme?
      rw [List.append_assoc routineWord, List.drop_left]
      dsimp only
      rw [hgap.1, hgap.2, hpiece, if_pos]
      · rfl
      · simp [hg.ne_nil, List.isPrefixOf_iff_prefix]
    · rw [← List.append_assoc]
      exact (List.prefix_append_right_inj _).mpr hpre

private theorem takesLongest_digits? : TakesLongest (Run Text.isDecimalDigit) digits? where
  sound := by
    intro cs piece h
    refine ⟨?_, (takes_digits? h).2⟩
    unfold digits? at h
    dsimp only at h
    split at h
    · cases h
    · next hd =>
      cases h
      exact .takeWhile (by simpa using hd)
  longest := by
    intro u rest hu
    refine ⟨u ++ rest.takeWhile Text.isDecimalDigit, ?_, List.prefix_append u _⟩
    unfold digits?
    rw [List.takeWhile_append_of_pos hu.all]
    simp [hu.ne_nil]

private theorem isDecimalDigit_point : Text.isDecimalDigit '.' = false := by
  decide

private theorem takesLongest_decimal? : TakesLongest IsDecimal decimal? where
  sound := by
    intro cs piece h
    refine ⟨?_, (takes_decimal? h).2⟩
    unfold decimal? at h
    obtain ⟨whole, hwhole, h⟩ := Option.bind_eq_some_iff.mp h
    split at h
    · obtain ⟨fraction, hfraction, hpiece⟩ := Option.map_eq_some_iff.mp h
      exact ⟨whole, fraction, hpiece.symm, (takesLongest_digits?.sound hwhole).1,
        (takesLongest_digits?.sound hfraction).1⟩
    · cases h
  longest := by
    rintro u rest ⟨whole, fraction, rfl, hw, hf⟩
    obtain ⟨piece, hpiece, hpre⟩ := takesLongest_digits?.longest rest hf
    have hwhole : digits? (whole ++ '.' :: (fraction ++ rest)) = some whole := by
      unfold digits?
      rw [hw.takeWhile_append_cons isDecimalDigit_point]
      simp [hw.ne_nil]
    refine ⟨whole ++ '.' :: piece, ?_, ?_⟩
    · rw [List.append_assoc, List.cons_append]
      unfold decimal?
      rw [hwhole, hw.dropWhile_append_cons isDecimalDigit_point]
      simp [hpiece]
    · exact (List.prefix_append_right_inj whole).mpr (List.cons_prefix_cons.mpr ⟨rfl, hpre⟩)

/-- A sign can be told from what stands behind it. -/
private theorem takesLongest_signed? {language : List Char → Prop}
    {piece? : List Char → Option (List Char)} (h : TakesLongest language piece?)
    (hsign : ∀ u, language u → ∃ c tail, u = c :: tail ∧ c ≠ '-') :
    TakesLongest (Signed language) (signed? piece?) where
  sound := by
    intro cs piece hp
    unfold signed? at hp
    split at hp
    · next rest =>
      obtain ⟨word, hword, hpiece⟩ := Option.map_eq_some_iff.mp hp
      obtain ⟨hl, hpre⟩ := h.sound hword
      rw [← hpiece]
      exact ⟨⟨['-'], word, rfl, .inr rfl, hl⟩, List.cons_prefix_cons.mpr ⟨rfl, hpre⟩⟩
    · obtain ⟨hl, hpre⟩ := h.sound hp
      exact ⟨⟨[], piece, rfl, .inl rfl, hl⟩, hpre⟩
  longest := by
    rintro u rest ⟨sign, word, rfl, hs, hw⟩
    obtain ⟨piece, hpiece, hpre⟩ := h.longest rest hw
    rcases hs with rfl | rfl
    · obtain ⟨c, tail, hcons, hc⟩ := hsign word hw
      refine ⟨piece, ?_, hpre⟩
      rw [List.nil_append, ← hpiece, hcons, List.cons_append]
      simp [signed?, hc]
    · refine ⟨'-' :: piece, ?_, List.cons_prefix_cons.mpr ⟨rfl, hpre⟩⟩
      simp [signed?, hpiece]

private theorem exists_cons_of_digits {u : List Char} (h : Run Text.isDecimalDigit u) :
    ∃ c tail, u = c :: tail ∧ c ≠ '-' := by
  obtain ⟨c, tail, hu, hc⟩ := h.exists_cons
  refine ⟨c, tail, hu, ?_⟩
  rintro rfl
  revert hc
  decide

private theorem exists_cons_of_isDecimal {u : List Char} (h : IsDecimal u) :
    ∃ c tail, u = c :: tail ∧ c ≠ '-' := by
  obtain ⟨whole, fraction, hu, hw, _⟩ := h
  obtain ⟨c, tail, hwhole, hc⟩ := exists_cons_of_digits hw
  exact ⟨c, tail ++ '.' :: fraction, by rw [hu, hwhole, List.cons_append], hc⟩

/-- Quotes end at the first quote that no backslash takes with it. -/
theorem closeQuote?_append {body : List Char} (h : Quotable body) (rest : List Char) :
    closeQuote? (body ++ '"' :: rest) = some (body ++ ['"']) := by
  induction h with
  | nil => simp [closeQuote?]
  | @plain c cs hq hb hn _ ih =>
    rw [List.cons_append, closeQuote?, if_neg hn, ih]
    · rfl
    · exact hq
    · exact fun _ _ he _ ↦ hb he
  | escape hn _ ih =>
    simp [closeQuote?, hn, ih]

private theorem quotable_of_closeQuote? {cs piece : List Char} (h : closeQuote? cs = some piece) :
    ∃ body, piece = body ++ ['"'] ∧ Quotable body := by
  fun_induction closeQuote? cs generalizing piece with
  | case1 rest =>
    cases h
    exact ⟨[], rfl, .nil⟩
  | case2 => cases h
  | case3 c rest hc ih =>
    obtain ⟨tail, htail, hpiece⟩ := Option.map_eq_some_iff.mp h
    obtain ⟨body, hbody, hq⟩ := ih htail
    exact ⟨'\\' :: c :: body, by simp [← hpiece, hbody], .escape hc hq⟩
  | case4 => cases h
  | case5 c rest hquote hback hc ih =>
    obtain ⟨tail, htail, hpiece⟩ := Option.map_eq_some_iff.mp h
    obtain ⟨body, hbody, hq⟩ := ih htail
    -- A backslash with nothing behind it would leave no room for the quote that was found.
    have hb : c ≠ '\\' := by
      intro he
      cases rest with
      | nil => cases htail
      | cons d rest => exact hback d rest he rfl
    exact ⟨c :: body, by simp [← hpiece, hbody], .plain hquote hb hc hq⟩
  | case6 => cases h

theorem takesLongest_string : TakesLongest string.Matches string.lexeme? where
  sound := by
    intro cs piece h
    refine ⟨?_, (takes_lexeme? string h).2⟩
    rcases cs with _ | ⟨c, rest⟩
    · cases h
    · by_cases hc : c = '"'
      · subst hc
        obtain ⟨tail, htail, hpiece⟩ := Option.map_eq_some_iff.mp h
        obtain ⟨body, hbody, hq⟩ := quotable_of_closeQuote? htail
        exact ⟨body, by rw [← hpiece, hbody], hq⟩
      · simp [lexeme?, hc] at h
  longest := by
    rintro u rest ⟨body, rfl, hq⟩
    refine ⟨'"' :: (body ++ ['"']), ?_, List.prefix_refl _⟩
    rw [List.cons_append, List.append_assoc, List.singleton_append]
    simp [lexeme?, closeQuote?_append hq]

/-- Characters of a class behind others are taken up to the first one of another class. -/
private theorem prefix_cons_takeWhile {p : Char → Bool} {tail : List Char}
    (h : ∀ d ∈ tail, p d = true) (front rest : List Char) :
    front ++ tail <+: front ++ (tail ++ rest).takeWhile p := by
  rw [List.takeWhile_append_of_pos h]
  exact (List.prefix_append_right_inj front).mpr (List.prefix_append tail _)

private theorem takesLongest_sysvar : TakesLongest sysvar.Matches sysvar.lexeme? where
  sound := by
    intro cs piece h
    refine ⟨?_, (takes_lexeme? sysvar h).2⟩
    rcases cs with _ | ⟨a, _ | ⟨c, rest⟩⟩
    · cases h
    · simp [lexeme?] at h
    · by_cases ha : a = '@'
      · subst ha
        simp only [lexeme?] at h
        split at h
        · next hc =>
          cases h
          exact ⟨c, _, rfl, hc, fun d hd ↦ List.all_eq_true.mp List.all_takeWhile d hd⟩
        · cases h
      · simp [lexeme?, ha] at h
  longest := by
    rintro u rest ⟨c, tail, rfl, hc, ht⟩
    refine ⟨_, ?_, prefix_cons_takeWhile ht ['@', c] rest⟩
    simp [lexeme?, hc]

private theorem takesLongest_name : TakesLongest name.Matches name.lexeme? where
  sound := by
    intro cs piece h
    refine ⟨?_, (takes_lexeme? name h).2⟩
    cases cs with
    | nil => cases h
    | cons c rest =>
      simp only [lexeme?] at h
      split at h
      · next hc =>
        cases h
        exact ⟨c, _, rfl, hc, fun d hd ↦ List.all_eq_true.mp List.all_takeWhile d hd⟩
      · cases h
  longest := by
    rintro u rest ⟨c, tail, rfl, hc, ht⟩
    refine ⟨_, ?_, prefix_cons_takeWhile ht [c] rest⟩
    rw [List.cons_append, lexeme?, if_pos hc]
    rfl

private theorem takesLongest_newline : TakesLongest newline.Matches newline.lexeme? where
  sound := by
    intro cs piece h
    refine ⟨?_, (takes_lexeme? newline h).2⟩
    cases cs with
    | nil => cases h
    | cons c rest =>
      by_cases hc : c = '\n'
      · subst hc
        cases h
        rfl
      · simp [lexeme?, hc] at h
  longest := by
    rintro u rest rfl
    exact ⟨['\n'], rfl, List.prefix_refl _⟩

theorem takesLongest_comment : TakesLongest comment.Matches comment.lexeme? where
  sound := by
    intro cs piece h
    refine ⟨?_, (takes_lexeme? comment h).2⟩
    cases cs with
    | nil => cases h
    | cons c rest =>
      by_cases hc : c = '#'
      · subst hc
        cases h
        refine ⟨_, rfl, fun hm ↦ ?_⟩
        have hne := List.all_eq_true.mp List.all_takeWhile _ hm
        simp at hne
      · simp [lexeme?, hc] at h
  longest := by
    rintro u rest ⟨tail, rfl, hn⟩
    have ht : ∀ d ∈ tail, (d != '\n') = true := by
      intro d hd
      rw [bne_iff_ne]
      rintro rfl
      exact hn hd
    exact ⟨_, rfl, prefix_cons_takeWhile ht ['#'] rest⟩

/-- Every rule takes the longest beginning of a text that is in its language. -/
theorem takesLongest_lexeme? (rule : Rule) : TakesLongest rule.Matches rule.lexeme? := by
  cases rule with
  | routine =>
    have he : routine.lexeme? = routineLexeme? := funext fun cs ↦ by simp only [lexeme?]
    rw [he]
    exact takesLongest_routineLexeme?
  | label =>
    have he : label.lexeme? = labelLexeme? := funext fun cs ↦ by simp only [lexeme?]
    rw [he]
    exact takesLongest_labelLexeme?
  | float =>
    have he : float.lexeme? = signed? decimal? := funext fun cs ↦ by simp only [lexeme?]
    rw [he]
    exact takesLongest_signed? takesLongest_decimal? fun _ ↦ exists_cons_of_isDecimal
  | int =>
    have he : int.lexeme? = signed? digits? := funext fun cs ↦ by simp only [lexeme?]
    rw [he]
    exact takesLongest_signed? takesLongest_digits? fun _ ↦ exists_cons_of_digits
  | string => exact takesLongest_string
  | sysvar => exact takesLongest_sysvar
  | name => exact takesLongest_name
  | newline => exact takesLongest_newline
  | comment => exact takesLongest_comment

/-- A rule does not look beyond a character that no word of its language has. -/
theorem lexeme?_append_cons {rule : Rule} {stop : Char} (h : ∀ u, rule.Matches u → stop ∉ u)
    (cs rest : List Char) : rule.lexeme? (cs ++ stop :: rest) = rule.lexeme? cs :=
  rule.takesLongest_lexeme?.congr fun u hu ↦ prefix_append_cons_iff (h u hu) cs rest

/-- The rules whose pieces stand on a line without a space in them. -/
def isUnbroken : Rule → Bool
  | label | float | int | sysvar | name => true
  | _ => false

theorem IsSign.not_mem {sign : List Char} (h : IsSign sign) {stop : Char} (hs : stop ≠ '-') :
    stop ∉ sign := by
  rcases h with rfl | rfl <;> simp [hs]

theorem not_mem_of_isUnbroken {rule : Rule} (hr : rule.isUnbroken = true) {u : List Char}
    (hu : rule.Matches u) {stop : Char} (hs : isBlank stop = true ∨ stop = '\n') : stop ∉ u := by
  have hstop : isWordChar stop = false ∧ Text.isDecimalDigit stop = false ∧ stop.isAlpha = false ∧
      (stop.isAlphanum || stop == '-') = false ∧ stop ∉ ['-', ':', '.', '@', '_'] := by
    simp only [isBlank, Bool.or_eq_true, beq_iff_eq] at hs
    rcases hs with (((rfl | rfl) | rfl) | rfl) | rfl <;> decide
  obtain ⟨hword, hdigit, halpha, hsysvar, hmark⟩ := hstop
  simp only [List.mem_cons, List.not_mem_nil, or_false, not_or] at hmark
  obtain ⟨hsign, hcolon, hpoint, hat, hunder⟩ := hmark
  cases rule with
  | label =>
    obtain ⟨word, hcs, hw⟩ := hu
    simp [hcs, hw.not_mem hword, hcolon]
  | float =>
    obtain ⟨sign, word, hcs, hsg, whole, fraction, hd, hw, hf⟩ := hu
    simp [hcs, hd, hsg.not_mem hsign, hw.not_mem hdigit, hf.not_mem hdigit, hpoint]
  | int =>
    obtain ⟨sign, word, hcs, hsg, hd⟩ := hu
    simp [hcs, hsg.not_mem hsign, hd.not_mem hdigit]
  | sysvar =>
    obtain ⟨c, tail, hcs, hc, ht⟩ := hu
    have hletter : stop ≠ c := by
      rintro rfl
      simp [hc] at halpha
    have htail : stop ∉ tail := by
      intro hm
      rw [ht stop hm] at hsysvar
      cases hsysvar
    simp [hcs, hat, hletter, htail]
  | name =>
    obtain ⟨c, tail, hcs, hc, ht⟩ := hu
    have hletter : stop ≠ c := by
      rintro rfl
      simp [halpha, hunder] at hc
    have htail : stop ∉ tail := by
      intro hm
      rw [ht stop hm] at hword
      cases hword
    simp [hcs, hletter, htail]
  | routine | string | newline | comment => cases hr

/-- Only the words of the rule for line ends have a line end in them. -/
theorem newline_not_mem_of_matches {rule : Rule} (h : rule ≠ newline) {u : List Char}
    (hu : rule.Matches u) : '\n' ∉ u := by
  cases rule with
  | routine =>
    obtain ⟨gap, word, hcs, hg, hw⟩ := hu
    have hgap : '\n' ∉ gap := hg.not_mem (by decide)
    have hword : '\n' ∉ word := hw.not_mem (by decide)
    simp [hcs, hgap, hword, routineWord]
  | string =>
    obtain ⟨body, hcs, hq⟩ := hu
    simp [hcs, hq.newline_not_mem]
  | newline => exact absurd rfl h
  | comment =>
    obtain ⟨tail, hcs, hn⟩ := hu
    simp [hcs, hn]
  | label | float | int | sysvar | name => exact not_mem_of_isUnbroken rfl hu (.inr rfl)

end Rule
end MlogAsm
