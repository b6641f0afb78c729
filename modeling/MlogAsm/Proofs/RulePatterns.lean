import Mathlib.Computability.Language
import Mathlib.Data.Char
import MlogAsm.Proofs.Lossless
import MlogAsm.Proofs.Words

/-!
# The patterns of the rules

Each lexical rule is written as a regular expression, and a scan follows the expressions: where it
has to go on, the first rule with a word of its pattern there takes the longest such word, and a
character where no rule has one is stray. The rules themselves read a text by hand, without going
back in it.
-/

namespace MlogAsm

open scoped Computability

/-- A class of characters. -/
inductive CharClass where
  /-- The characters in some ranges, with both ends. -/
  | within (ranges : List (Char × Char))
  /-- All characters but some. -/
  | anyBut (chars : List Char)
  /-- The decimal digits of all scripts. -/
  | digit
  deriving DecidableEq, Repr

namespace CharClass

/-- A character is in a class. -/
def holds : CharClass → Char → Bool
  | within ranges, c => ranges.any fun range ↦ range.1 ≤ c && c ≤ range.2
  | anyBut chars, c => !chars.contains c
  | digit, c => Text.isDecimalDigit c

/-- The class of a single character. -/
def only (c : Char) : CharClass := within [(c, c)]

/-- What separates the word `routine` from the name after it. -/
def gap : CharClass := within [(' ', ' '), ('\t', '\t')]

/-- What words are made of. -/
def word : CharClass := within [('A', 'Z'), ('a', 'z'), ('0', '9'), ('_', '_')]

/-- What names begin with. -/
def initial : CharClass := within [('A', 'Z'), ('a', 'z'), ('_', '_')]

/-- What the names of system variables begin with. -/
def letter : CharClass := within [('A', 'Z'), ('a', 'z')]

/-- What the names of system variables are made of. -/
def dashed : CharClass := within [('A', 'Z'), ('a', 'z'), ('0', '9'), ('-', '-')]

private theorem holds_within {ranges : List (Char × Char)} {c : Char} :
    (within ranges).holds c = true ↔ ∃ range ∈ ranges, range.1 ≤ c ∧ c ≤ range.2 := by
  simp [holds]

private theorem isAlpha_iff {c : Char} :
    c.isAlpha = true ↔ ('A' ≤ c ∧ c ≤ 'Z') ∨ 'a' ≤ c ∧ c ≤ 'z' := by
  delta Char.isAlpha Char.isUpper Char.isLower
  rw [Bool.or_eq_true, Bool.and_eq_true, decide_eq_true_iff, decide_eq_true_iff,
    decide_eq_true_iff]
  exact Iff.rfl

private theorem isAlphanum_iff {c : Char} :
    c.isAlphanum = true ↔ c.isAlpha = true ∨ '0' ≤ c ∧ c ≤ '9' := by
  delta Char.isAlphanum Char.isDigit
  rw [Bool.or_eq_true, Bool.and_eq_true, decide_eq_true_iff, decide_eq_true_iff]
  exact Iff.rfl

private theorem holds_only (c d : Char) : (only c).holds d = (d == c) := by
  rw [Bool.eq_iff_iff, only, holds_within]
  simp [← ge_antisymm_iff]

private theorem holds_gap (c : Char) : gap.holds c = isGap c := by
  rw [Bool.eq_iff_iff, gap, holds_within]
  simp [← ge_antisymm_iff, isGap]

private theorem holds_word (c : Char) : word.holds c = isWordChar c := by
  rw [Bool.eq_iff_iff, word, holds_within]
  simp [← ge_antisymm_iff, isWordChar, isAlphanum_iff, isAlpha_iff, or_assoc]

private theorem holds_initial (c : Char) : initial.holds c = (c.isAlpha || c == '_') := by
  rw [Bool.eq_iff_iff, initial, holds_within]
  simp [← ge_antisymm_iff, isAlpha_iff, or_assoc]

private theorem holds_letter (c : Char) : letter.holds c = c.isAlpha := by
  rw [Bool.eq_iff_iff, letter, holds_within]
  simp [isAlpha_iff]

private theorem holds_dashed (c : Char) : dashed.holds c = (c.isAlphanum || c == '-') := by
  rw [Bool.eq_iff_iff, dashed, holds_within]
  simp [← ge_antisymm_iff, isAlphanum_iff, isAlpha_iff, or_assoc]

private theorem holds_digit (c : Char) : digit.holds c = Text.isDecimalDigit c :=
  rfl

private theorem holds_anyBut {chars : List Char} {c : Char} :
    (anyBut chars).holds c = true ↔ c ∉ chars := by
  simp [holds]

end CharClass

/-- A regular expression over classes of characters. -/
inductive Pattern where
  /-- One character of a class. -/
  | one (cls : CharClass)
  /-- Nothing. -/
  | nothing
  /-- One after the other. -/
  | seq (first second : Pattern)
  /-- One or the other. -/
  | alt (left right : Pattern)
  /-- Any number of times. -/
  | star (p : Pattern)
  deriving DecidableEq, Repr

namespace Pattern

instance : Append Pattern := ⟨seq⟩

/-- A character. -/
def char (c : Char) : Pattern := one (.only c)

/-- The characters of a word one after the other. -/
def literal : List Char → Pattern
  | [] => nothing
  | c :: cs => char c ++ literal cs

/-- Once or not at all. -/
def opt (p : Pattern) : Pattern := alt p nothing

/-- At least once. -/
def plus (p : Pattern) : Pattern := p ++ star p

/-- The words of a pattern. -/
def language : Pattern → Language Char
  | one cls => {w | ∃ c, cls.holds c = true ∧ w = [c]}
  | nothing => 1
  | seq first second => first.language * second.language
  | alt left right => left.language + right.language
  | star p => p.language∗

/-- A text begins with a word of a pattern. -/
def Begins (p : Pattern) (text : List Char) : Prop :=
  ∃ u ∈ p.language, u <+: text

/-- The longest word of a pattern with which a text begins. -/
structure Longest (p : Pattern) (text piece : List Char) : Prop where
  mem : piece ∈ p.language
  isPrefix : piece <+: text
  length_le : ∀ u ∈ p.language, u <+: text → u.length ≤ piece.length

section Membership

variable {p q : Pattern} {cls : CharClass} {w : List Char}

@[simp] theorem mem_one_iff : w ∈ (one cls).language ↔ ∃ c, cls.holds c = true ∧ w = [c] :=
  Iff.rfl

@[simp] theorem mem_char_iff {c : Char} : w ∈ (char c).language ↔ w = [c] := by
  simp [char, CharClass.holds_only]

@[simp] theorem mem_nothing_iff : w ∈ nothing.language ↔ w = [] :=
  Iff.rfl

@[simp] theorem mem_append_iff :
    w ∈ (p ++ q).language ↔ ∃ u v, w = u ++ v ∧ u ∈ p.language ∧ v ∈ q.language := by
  change w ∈ p.language * q.language ↔ _
  rw [Language.mem_mul]
  constructor
  · rintro ⟨u, hu, v, hv, rfl⟩
    exact ⟨u, v, rfl, hu, hv⟩
  · rintro ⟨u, v, rfl, hu, hv⟩
    exact ⟨u, hu, v, hv, rfl⟩

private theorem mem_one_append_iff :
    w ∈ (one cls ++ q).language ↔ ∃ c v, w = c :: v ∧ cls.holds c = true ∧ v ∈ q.language := by
  rw [mem_append_iff]
  constructor
  · rintro ⟨_, v, rfl, ⟨c, hc, rfl⟩, hv⟩
    exact ⟨c, v, rfl, hc, hv⟩
  · rintro ⟨c, v, rfl, hc, hv⟩
    exact ⟨[c], v, rfl, ⟨c, hc, rfl⟩, hv⟩

private theorem mem_char_append_iff {c : Char} :
    w ∈ (char c ++ q).language ↔ ∃ v, w = c :: v ∧ v ∈ q.language := by
  simp

@[simp] theorem mem_alt_iff : w ∈ (alt p q).language ↔ w ∈ p.language ∨ w ∈ q.language :=
  Iff.rfl

@[simp] theorem mem_literal_iff {cs : List Char} : w ∈ (literal cs).language ↔ w = cs := by
  induction cs generalizing w with
  | nil => exact Iff.rfl
  | cons c cs ih => simp [literal, ih]

@[simp] theorem nil_mem_star : [] ∈ (star p).language :=
  Language.nil_mem_kstar _

private theorem append_mem_star {u : List Char} (hu : u ∈ p.language) (hw : w ∈ (star p).language) :
    u ++ w ∈ (star p).language := by
  obtain ⟨parts, rfl, hparts⟩ := Language.mem_kstar.mp hw
  exact Language.mem_kstar.mpr ⟨u :: parts, rfl, List.forall_mem_cons.mpr ⟨hu, hparts⟩⟩

@[simp] theorem mem_star_one_iff :
    w ∈ (star (one cls)).language ↔ ∀ c ∈ w, cls.holds c = true := by
  constructor
  · intro h
    obtain ⟨parts, rfl, hparts⟩ := Language.mem_kstar.mp h
    intro c hc
    obtain ⟨part, hpart, hc⟩ := List.mem_flatten.mp hc
    obtain ⟨d, hd, rfl⟩ := hparts part hpart
    rwa [List.mem_singleton.mp hc]
  · intro h
    induction w with
    | nil => exact nil_mem_star
    | cons c w ih =>
      obtain ⟨hc, hw⟩ := List.forall_mem_cons.mp h
      exact append_mem_star (mem_one_iff.mpr ⟨c, hc, rfl⟩) (ih hw)

@[simp] theorem mem_plus_one_iff : w ∈ (plus (one cls)).language ↔ Run cls.holds w := by
  simp only [plus, mem_append_iff, mem_one_iff, mem_star_one_iff]
  constructor
  · rintro ⟨_, v, rfl, ⟨c, hc, rfl⟩, hv⟩
    exact ⟨by simp, List.forall_mem_cons.mpr ⟨hc, hv⟩⟩
  · intro h
    obtain ⟨c, tail, rfl, hc⟩ := h.exists_cons
    exact ⟨[c], tail, rfl, ⟨c, hc, rfl⟩, fun d hd ↦ h.all d (List.mem_cons_of_mem c hd)⟩

end Membership
end Pattern

/-- What stands between the quotes of a text: characters other than quotes, backslashes and line
ends, and backslashes with any other character of the line behind them. -/
def Pattern.quoted : Pattern :=
  .star (.alt (.one (.anyBut ['"', '\\', '\n'])) (.char '\\' ++ .one (.anyBut ['\n'])))

namespace Rule

/-- The regular expression of a rule. -/
def pattern : Rule → Pattern
  | routine =>
    .literal routineWord ++ (.plus (.one .gap) ++ (.plus (.one .word) ++ .char ':'))
  | label => .plus (.one .word) ++ .char ':'
  | float => .opt (.char '-') ++ (.plus (.one .digit) ++ (.char '.' ++ .plus (.one .digit)))
  | int => .opt (.char '-') ++ .plus (.one .digit)
  | string => .char '"' ++ (.quoted ++ .char '"')
  | sysvar => .char '@' ++ (.one .letter ++ .star (.one .dashed))
  | name => .one .initial ++ .star (.one .word)
  | newline => .char '\n'
  | comment => .char '#' ++ .star (.one (.anyBut ['\n']))

/-- A rule is the first one, in the order in which the rules are tried, with a word of its pattern
at the front of a text. -/
def ComesFirst (rule : Rule) (text : List Char) : Prop :=
  rule.pattern.Begins text ∧ ∀ other ∈ rule.earlier, ¬ other.pattern.Begins text

private theorem run_congr {p q : Char → Bool} (h : ∀ c, p c = q c) {cs : List Char} :
    Run p cs ↔ Run q cs := by
  rw [funext h]

private theorem isSign_iff {cs : List Char} :
    IsSign cs ↔ cs ∈ (Pattern.opt (.char '-')).language := by
  simp [IsSign, Pattern.opt, or_comm]

/-- What may stand between quotes is a word of the pattern for it. -/
theorem quotable_iff {body : List Char} : Quotable body ↔ body ∈ Pattern.quoted.language := by
  constructor
  · intro h
    induction h with
    | nil => exact Pattern.nil_mem_star
    | @plain c cs hq hb hn _ ih =>
      refine Pattern.append_mem_star (u := [c]) (.inl ⟨c, ?_, rfl⟩) ih
      simp [CharClass.holds_anyBut, hq, hb, hn]
    | @escape c cs hn _ ih =>
      refine Pattern.append_mem_star (u := ['\\', c]) (.inr ?_) ih
      exact Pattern.mem_append_iff.mpr ⟨['\\'], [c], rfl, Pattern.mem_char_iff.mpr rfl, c,
        by simp [CharClass.holds_anyBut, hn], rfl⟩
  · intro h
    obtain ⟨parts, rfl, hparts⟩ := Language.mem_kstar.mp h
    clear h
    induction parts with
    | nil => exact .nil
    | cons part parts ih =>
      obtain ⟨hpart, hrest⟩ := List.forall_mem_cons.mp hparts
      rcases hpart with ⟨c, hc, rfl⟩ | hpart
      · simp only [CharClass.holds_anyBut, List.mem_cons, List.not_mem_nil, or_false, not_or] at hc
        exact .plain hc.1 hc.2.1 hc.2.2 (ih hrest)
      · obtain ⟨_, _, rfl, hb, c, hc, rfl⟩ := Pattern.mem_append_iff.mp hpart
        obtain rfl := Pattern.mem_char_iff.mp hb
        rw [CharClass.holds_anyBut, List.mem_singleton] at hc
        exact .escape hc (ih hrest)

/-- The language of a rule is that of its pattern. -/
private theorem matches_iff_mem_language (rule : Rule) (u : List Char) :
    rule.Matches u ↔ u ∈ rule.pattern.language := by
  cases rule with
  | routine =>
    simp [Matches, pattern, run_congr CharClass.holds_gap, run_congr CharClass.holds_word]
  | label => simp [Matches, pattern, run_congr CharClass.holds_word]
  | float =>
    simp [Matches, Signed, IsDecimal, isSign_iff, pattern, run_congr CharClass.holds_digit]
  | int => simp [Matches, Signed, isSign_iff, pattern, run_congr CharClass.holds_digit]
  | string => simp [Matches, quotable_iff, pattern]
  | sysvar =>
    simp only [Matches, pattern, Pattern.mem_char_append_iff, Pattern.mem_one_append_iff,
      Pattern.mem_star_one_iff, CharClass.holds_letter, CharClass.holds_dashed]
    constructor
    · rintro ⟨c, tail, rfl, hc, ht⟩
      exact ⟨c :: tail, rfl, c, tail, rfl, hc, ht⟩
    · rintro ⟨_, rfl, c, tail, rfl, hc, ht⟩
      exact ⟨c, tail, rfl, hc, ht⟩
  | name =>
    simp only [Matches, pattern, Pattern.mem_one_append_iff, Pattern.mem_star_one_iff,
      CharClass.holds_initial, CharClass.holds_word]
  | newline => simp [Matches, pattern]
  | comment =>
    simp only [Matches, pattern, Pattern.mem_char_append_iff, Pattern.mem_star_one_iff,
      CharClass.holds_anyBut, List.mem_singleton]
    refine exists_congr fun tail ↦ and_congr_right fun _ ↦ ?_
    constructor
    · rintro hn c hc rfl
      exact hn hc
    · exact fun h hn ↦ h _ hn rfl

/-- A rule takes the longest word of its pattern. -/
theorem lexeme?_eq_some_iff {rule : Rule} {cs piece : List Char} :
    rule.lexeme? cs = some piece ↔ rule.pattern.Longest cs piece := by
  have htakes := rule.takesLongest_lexeme?
  constructor
  · intro h
    obtain ⟨hm, hp⟩ := htakes.sound h
    refine ⟨(matches_iff_mem_language rule piece).mp hm, hp, fun u hu hpre ↦ ?_⟩
    obtain ⟨taken, ht, hle⟩ :=
      htakes.exists_of_prefix ((matches_iff_mem_language rule u).mpr hu) hpre
    rw [h] at ht
    cases ht
    exact hle.length_le
  · intro h
    obtain ⟨taken, ht, hle⟩ :=
      htakes.exists_of_prefix ((matches_iff_mem_language rule piece).mpr h.mem) h.isPrefix
    obtain ⟨hm, hp⟩ := htakes.sound ht
    have hlength := h.length_le taken ((matches_iff_mem_language rule taken).mp hm) hp
    rw [ht, hle.eq_of_length_le hlength]

/-- A rule takes nothing off a text that does not begin with a word of its pattern. -/
theorem lexeme?_eq_none_iff {rule : Rule} {cs : List Char} :
    rule.lexeme? cs = none ↔ ¬ rule.pattern.Begins cs := by
  constructor
  · rintro h ⟨u, hu, hp⟩
    obtain ⟨taken, ht, -⟩ := rule.takesLongest_lexeme?.exists_of_prefix
      ((matches_iff_mem_language rule u).mpr hu) hp
    rw [h] at ht
    cases ht
  · intro h
    cases hl : rule.lexeme? cs with
    | none => rfl
    | some piece =>
      have hlongest := lexeme?_eq_some_iff.mp hl
      exact absurd ⟨piece, hlongest.mem, hlongest.isPrefix⟩ h

end Rule

namespace Segment

/-- The piece at the front of a text is that of the first rule with a word there. -/
private theorem firstPiece?_eq_some_iff_comesFirst {cs piece : List Char} {rule : Rule} :
    firstPiece? cs = some (rule, piece) ↔
      rule.ComesFirst cs ∧ rule.pattern.Longest cs piece := by
  have hearlier : (∀ other ∈ rule.earlier, other.lexeme? cs = none) ↔
      ∀ other ∈ rule.earlier, ¬ other.pattern.Begins cs :=
    forall₂_congr fun other _ ↦ Rule.lexeme?_eq_none_iff
  rw [firstPiece?_eq_some_iff, hearlier, Rule.lexeme?_eq_some_iff]
  constructor
  · rintro ⟨hlongest, hnone⟩
    exact ⟨⟨⟨piece, hlongest.mem, hlongest.isPrefix⟩, hnone⟩, hlongest⟩
  · rintro ⟨⟨-, hnone⟩, hlongest⟩
    exact ⟨hlongest, hnone⟩

private theorem firstPiece?_eq_none_iff {cs : List Char} :
    firstPiece? cs = none ↔ ∀ rule : Rule, ¬ rule.pattern.Begins cs := by
  unfold firstPiece?
  rw [List.findSome?_eq_none_iff]
  constructor
  · intro h rule
    have hmem : rule ∈ Rule.all := by cases rule <;> decide
    exact Rule.lexeme?_eq_none_iff.mp (Option.map_eq_none_iff.mp (h rule hmem))
  · intro h rule _
    rw [Rule.lexeme?_eq_none_iff.mpr (h rule)]
    rfl

variable {c : Char} {rest : List Char}

private theorem first_eq_blank_iff : first c rest = .blank c ↔ isBlank c = true := by
  unfold first
  split
  · next hb => simp [hb]
  · next hb => split <;> simp [hb]

/-- Off the blanks, a piece is the longest word of the first rule with a word there. -/
theorem first_eq_piece_iff (hb : isBlank c = false) {rule : Rule} {piece : List Char} :
    first c rest = .piece rule piece ↔
      rule.ComesFirst (c :: rest) ∧ rule.pattern.Longest (c :: rest) piece := by
  rw [← firstPiece?_eq_some_iff_comesFirst]
  unfold first
  rw [if_neg (by simp [hb])]
  cases hf : firstPiece? (c :: rest) with
  | none => simp
  | some found => simp [Prod.ext_iff]

/-- Off the blanks, a character is stray where no rule has a word. -/
theorem first_eq_stray_iff (hb : isBlank c = false) :
    first c rest = .stray c ↔ ∀ rule : Rule, ¬ rule.pattern.Begins (c :: rest) := by
  rw [← firstPiece?_eq_none_iff]
  unfold first
  rw [if_neg (by simp [hb])]
  cases hf : firstPiece? (c :: rest) with
  | none => simp
  | some found => simp

end Segment

section Quotes

/-- The character behind some others is escaped: a backslash stands before it that is not escaped
itself. -/
def escapesNext (front : List Char) : Bool :=
  front.foldl (fun escaped c ↦ c == '\\' && !escaped) false

/-- Behind an opening quote and `front`, a quote stands that is not escaped, and the line does not
end before it. -/
structure ClosesBehind (front rest : List Char) : Prop where
  quote : front ++ ['"'] <+: rest
  unescaped : escapesNext front = false
  onLine : '\n' ∉ front

private theorem escapesNext_cons_of_ne {c : Char} (h : c ≠ '\\') (cs : List Char) :
    escapesNext (c :: cs) = escapesNext cs := by
  simp [escapesNext, beq_eq_false_iff_ne.mpr h]

private theorem escapesNext_backslash (c : Char) (cs : List Char) :
    escapesNext ('\\' :: c :: cs) = escapesNext cs := by
  simp [escapesNext]

private theorem Quotable.escapesNext_eq_false {body : List Char} (h : Quotable body) :
    escapesNext body = false := by
  induction h with
  | nil => rfl
  | plain _ hb _ _ ih => rwa [escapesNext_cons_of_ne hb]
  | escape _ _ ih => rwa [escapesNext_backslash]

/-- Each quote between the quotes of a text is escaped. -/
private theorem Quotable.escapesNext_of_quote {body front back : List Char} (h : Quotable body)
    (hbody : body = front ++ '"' :: back) : escapesNext front = true := by
  induction h generalizing front with
  | nil => simp at hbody
  | plain hq hb _ _ ih =>
    cases front with
    | nil => exact absurd (List.cons.inj hbody).1 hq
    | cons d front =>
      obtain ⟨rfl, htail⟩ := List.cons.inj hbody
      rw [escapesNext_cons_of_ne hb]
      exact ih htail
  | escape _ _ ih =>
    rcases front with _ | ⟨d, _ | ⟨e, front⟩⟩
    · cases (List.cons.inj hbody).1
    · rw [← (List.cons.inj hbody).1]
      rfl
    · obtain ⟨rfl, htail⟩ := List.cons.inj hbody
      rw [escapesNext_backslash]
      exact ih (List.cons.inj htail).2

/-- Up to a quote that is not escaped there is a first one, and what stands before it may be
quoted. -/
private theorem exists_quotable {front : List Char} (he : escapesNext front = false)
    (hn : '\n' ∉ front) :
    ∃ body, Quotable body ∧ body ++ ['"'] <+: front ++ ['"'] := by
  induction hlen : front.length using Nat.strongRecOn generalizing front with
  | ind n ih =>
    subst hlen
    rcases front with _ | ⟨c, front⟩
    · exact ⟨[], .nil, List.prefix_refl _⟩
    · rw [List.mem_cons, not_or] at hn
      by_cases hq : c = '"'
      · exact ⟨[], .nil, by simp [hq]⟩
      · by_cases hb : c = '\\'
        · -- A backslash takes the next character with it, which is there since it ends nothing.
          subst hb
          rcases front with _ | ⟨d, front⟩
          · cases he
          · rw [List.mem_cons, not_or] at hn
            rw [escapesNext_backslash] at he
            have hlt : front.length < ('\\' :: d :: front).length := by
              rw [List.length_cons, List.length_cons]
              omega
            obtain ⟨body, hbody, hp⟩ := ih front.length hlt he hn.2.2 rfl
            exact ⟨'\\' :: d :: body, .escape (Ne.symm hn.2.1) hbody,
              by simpa [List.cons_prefix_cons] using hp⟩
        · rw [escapesNext_cons_of_ne hb] at he
          obtain ⟨body, hbody, hp⟩ := ih front.length (by simp) he hn.2 rfl
          exact ⟨c :: body, .plain hq hb (Ne.symm hn.1) hbody,
            by simpa [List.cons_prefix_cons] using hp⟩

/-- A quote that is not escaped does not stand in what may be quoted. -/
theorem Quotable.length_le {body front rest : List Char} (h : Quotable body)
    (hbody : body ++ ['"'] <+: rest) (hfront : front ++ ['"'] <+: rest)
    (he : escapesNext front = false) : body.length ≤ front.length := by
  by_contra hlt
  have hp : front ++ ['"'] <+: body := by
    refine List.prefix_of_prefix_length_le hfront ((List.prefix_append _ _).trans hbody) ?_
    rw [List.length_append, List.length_singleton]
    omega
  obtain ⟨back, hback⟩ := hp
  rw [List.append_assoc, List.singleton_append] at hback
  rw [h.escapesNext_of_quote hback.symm] at he
  cases he

/-- What the rule for texts in quotes takes ends with the first quote that closes. -/
theorem Rule.lexeme?_string_iff {rest piece : List Char} :
    string.lexeme? ('"' :: rest) = some piece ↔
      ∃ front, piece = '"' :: (front ++ ['"']) ∧ ClosesBehind front rest ∧
        ∀ other, ClosesBehind other rest → front.length ≤ other.length := by
  constructor
  · intro h
    obtain ⟨⟨body, hpiece, hq⟩, hp⟩ := takesLongest_string.sound h
    rw [hpiece, List.cons_prefix_cons] at hp
    refine ⟨body, hpiece, ⟨hp.2, hq.escapesNext_eq_false, hq.newline_not_mem⟩, fun other ho ↦ ?_⟩
    exact hq.length_le hp.2 ho.quote ho.unescaped
  · rintro ⟨front, hpiece, hcloses, hfirst⟩
    obtain ⟨body, hq, hbody⟩ := exists_quotable hcloses.unescaped hcloses.onLine
    have hp := hbody.trans hcloses.quote
    -- The first quote that closes is the one behind the longest beginning that may be quoted.
    have hle := hfirst body ⟨hp, hq.escapesNext_eq_false, hq.newline_not_mem⟩
    have he : body = front := by
      have heq := hbody.eq_of_length_le (by simpa using hle)
      simpa using heq
    subst he
    obtain ⟨tail, htail⟩ := hp
    rw [← htail, hpiece, List.append_assoc, List.singleton_append]
    simp [lexeme?, closeQuote?_append hq]

private theorem exists_closesBehind_iff {rest : List Char} :
    (∃ front, ClosesBehind front rest) ↔
      ∃ piece, Rule.string.lexeme? ('"' :: rest) = some piece := by
  constructor
  · rintro ⟨front, h⟩
    obtain ⟨body, hq, hbody⟩ := exists_quotable h.unescaped h.onLine
    obtain ⟨tail, htail⟩ := hbody.trans h.quote
    obtain ⟨piece, hpiece, -⟩ := Rule.takesLongest_string.longest tail ⟨body, rfl, hq⟩
    rw [List.cons_append, htail] at hpiece
    exact ⟨piece, hpiece⟩
  · rintro ⟨piece, hpiece⟩
    obtain ⟨front, -, hcloses, -⟩ := Rule.lexeme?_string_iff.mp hpiece
    exact ⟨front, hcloses⟩

/-- At a quote, no rule before the one for texts in quotes has a word. -/
theorem Segment.first_quote_iff {rest piece : List Char} :
    first '"' rest = .piece .string piece ↔ Rule.string.lexeme? ('"' :: rest) = some piece := by
  rw [first_eq_piece_iff (by decide), ← firstPiece?_eq_some_iff_comesFirst,
    firstPiece?_eq_some_iff, and_iff_left]
  intro other hother
  have hother : other ∈ [Rule.routine, .label, .float, .int] := hother
  simp only [List.mem_cons, List.not_mem_nil, or_false] at hother
  rcases hother with rfl | rfl | rfl | rfl <;> rfl

end Quotes

section Readings

/-- The kind and the value of the token that a piece of a rule stands for. The value is the piece,
but only the name in a label or a routine header. A word is of the kind that it is reserved for, or
else a name. A comment stands for no token. -/
inductive Rule.Reads : Rule → List Char → Option (TokenKind × String) → Prop where
  | routine {gap word : List Char} (hg : Run isGap gap) (hw : Run isWordChar word) :
      Reads .routine (routineWord ++ (gap ++ (word ++ [':']))) (some (.routine, .ofList word))
  | label {word : List Char} (hw : Run isWordChar word) :
      Reads .label (word ++ [':']) (some (.label, .ofList word))
  | float (piece : List Char) : Reads .float piece (some (.float, .ofList piece))
  | int (piece : List Char) : Reads .int piece (some (.int, .ofList piece))
  | string (piece : List Char) : Reads .string piece (some (.string, .ofList piece))
  | sysvar (piece : List Char) : Reads .sysvar piece (some (.sysvar, .ofList piece))
  | reserved {piece : List Char} {kind : TokenKind}
      (h : Reserved.table.lookup (.ofList piece) = some kind) :
      Reads .name piece (some (kind, .ofList piece))
  | name {piece : List Char} (h : Reserved.table.lookup (.ofList piece) = none) :
      Reads .name piece (some (.name, .ofList piece))
  | newline (piece : List Char) : Reads .newline piece (some (.newline, .ofList piece))
  | comment (piece : List Char) : Reads .comment piece none

private theorem Rule.reads_reading? {rule : Rule} {piece : List Char} (h : rule.Matches piece) :
    rule.Reads piece (rule.reading? piece) := by
  cases rule with
  | routine =>
    obtain ⟨gap, word, rfl, hg, hw⟩ := h
    rw [reading?, dropLast_dropWhile_drop hg hw]
    exact .routine hg hw
  | label =>
    obtain ⟨word, rfl, hw⟩ := h
    rw [reading?, List.dropLast_concat]
    exact .label hw
  | float => exact .float piece
  | int => exact .int piece
  | string => exact .string piece
  | sysvar => exact .sysvar piece
  | name =>
    rw [reading?, Reserved.kindOf]
    cases hl : Reserved.table.lookup (.ofList piece) with
    | none => exact .name hl
    | some kind => exact .reserved hl
  | newline => exact .newline piece
  | comment => exact .comment piece

end Readings

/-- A scan of a text goes on from segment to segment, and its lexemes are those of the segments. A
blank is passed over. Anywhere else the first rule, in the order in which they are tried, with a
word of its pattern there takes the longest such word, and a single character is stray exactly if no
rule has one. What a rule takes leaves the token that it stands for, if any, and a stray character
leaves itself. At a quote, a text in quotes is found exactly if a quote that is not escaped comes
before the end of the line, and it ends with the first such quote. -/
theorem scanner_follows_rules (text : String) :
    (Segment.split text.toList).flatMap Segment.chars = text.toList ∧
    Lexeme.scan text =
      (Segment.sites 1 0 (Segment.split text.toList)).filterMap Segment.Site.lexeme? ∧
    ∀ s ∈ Segment.sites 1 0 (Segment.split text.toList),
      ∃ c rest, text.toList.drop s.start = c :: rest ∧
        (s.segment = .blank c ↔ isBlank c = true) ∧
        (isBlank c = false →
          (∀ rule piece, s.segment = .piece rule piece ↔
            rule.ComesFirst (c :: rest) ∧ rule.pattern.Longest (c :: rest) piece) ∧
          (s.segment = .stray c ↔ ∀ rule : Rule, ¬ rule.pattern.Begins (c :: rest))) ∧
        (s.segment = .blank c → s.lexeme? = none) ∧
        (∀ rule piece, s.segment = .piece rule piece →
          ∃ reading, rule.Reads piece reading ∧
            s.lexeme? = reading.map fun r ↦ .token ⟨r.1, r.2, s.line, s.start⟩) ∧
        (s.segment = .stray c → s.lexeme? = some (.stray c s.line s.start)) ∧
        (c = '"' →
          ((∃ piece, s.segment = .piece .string piece) ↔ ∃ front, ClosesBehind front rest) ∧
          ∀ piece, s.segment = .piece .string piece ↔
            ∃ front, piece = '"' :: (front ++ ['"']) ∧ ClosesBehind front rest ∧
              ∀ other, ClosesBehind other rest → front.length ≤ other.length) := by
  refine ⟨Segment.flatMap_chars_split _, Lexeme.ofSegments_eq_filterMap _ _ _, fun s hs ↦ ?_⟩
  obtain ⟨c, rest, -, hfirst, hdrop, -, -⟩ := Segment.exists_of_mem_sites_split hs
  refine ⟨c, rest, hdrop, ?_, ?_, ?_, ?_, ?_, ?_⟩
  · rw [hfirst, Segment.first_eq_blank_iff]
  · intro hb
    refine ⟨fun rule piece ↦ ?_, ?_⟩
    · rw [hfirst, Segment.first_eq_piece_iff hb]
    · rw [hfirst, Segment.first_eq_stray_iff hb]
  · intro hsegment
    rw [Segment.Site.lexeme?, hsegment]
    rfl
  · intro rule piece hsegment
    have hm := (rule.takesLongest_lexeme?.sound (Segment.lexeme?_of_mem_sites hs hsegment)).1
    refine ⟨rule.reading? piece, Rule.reads_reading? hm, ?_⟩
    rw [Segment.Site.lexeme?, hsegment]
    rfl
  · intro hsegment
    rw [Segment.Site.lexeme?, hsegment]
    rfl
  · rintro rfl
    refine ⟨?_, fun piece ↦ ?_⟩
    · rw [exists_closesBehind_iff, hfirst]
      exact exists_congr fun piece ↦ Segment.first_quote_iff
    · rw [hfirst, Segment.first_quote_iff, Rule.lexeme?_string_iff]

example : Segment.split "5x:5x 1.x \"\\\"".toList =
    [.piece .label ['5', 'x', ':'], .piece .int ['5'], .piece .name ['x'], .blank ' ',
      .piece .int ['1'], .stray '.', .piece .name ['x'], .blank ' ', .stray '"', .stray '\\',
      .stray '"'] := by
  decide +kernel

end MlogAsm
