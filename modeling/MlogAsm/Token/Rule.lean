import MlogAsm.Text.DecimalDigit
import MlogAsm.Token.Reserved

/-!
# Lexical rules

Each rule takes a piece off the front of a text, or does not apply. A piece is as long as its rule
allows. The rules stand in the order in which they are tried.
-/

namespace MlogAsm

/-- A letter, a digit or an underscore, all of them ASCII. -/
def isWordChar (c : Char) : Bool :=
  c.isAlphanum || c == '_'

/-- What separates the word `routine` from the name after it. -/
def isGap (c : Char) : Bool :=
  c == ' ' || c == '\t'

/-- What separates tokens. -/
def isBlank (c : Char) : Bool :=
  c == ' ' || c == '\t' || c == '\r' || c == '\x0c'

/-- A way to begin a text. -/
inductive Rule where
  | routine
  | label
  | float
  | int
  | string
  | sysvar
  | name
  | newline
  | comment
  deriving DecidableEq, Repr

namespace Rule

/-- All rules, in the order in which they are tried. -/
def all : List Rule :=
  [routine, label, float, int, string, sysvar, name, newline, comment]

/-- A word and the colon after it. -/
def labelLexeme? (cs : List Char) : Option (List Char) :=
  let word := cs.takeWhile isWordChar
  match cs.dropWhile isWordChar with
  | ':' :: _ => if word.isEmpty then none else some (word ++ [':'])
  | _ => none

/-- The word that begins a routine header. -/
def routineWord : List Char := ['r', 'o', 'u', 't', 'i', 'n', 'e']

/-- The word `routine`, a gap, a name and a colon. -/
def routineLexeme? (cs : List Char) : Option (List Char) :=
  let rest := cs.drop routineWord.length
  let gap := rest.takeWhile isGap
  if routineWord.isPrefixOf cs && !gap.isEmpty then
    (labelLexeme? (rest.dropWhile isGap)).map (routineWord ++ gap ++ ·)
  else none

/-- Decimal digits, at least one. -/
def digits? (cs : List Char) : Option (List Char) :=
  let digits := cs.takeWhile Text.isDecimalDigit
  if digits.isEmpty then none else some digits

/-- Digits, a point and digits. -/
def decimal? (cs : List Char) : Option (List Char) := do
  let whole ← digits? cs
  match cs.dropWhile Text.isDecimalDigit with
  | '.' :: rest => (digits? rest).map (whole ++ '.' :: ·)
  | _ => none

/-- A piece with a minus sign that may stand before it. -/
def signed? (piece? : List Char → Option (List Char)) : List Char → Option (List Char)
  | '-' :: rest => (piece? rest).map ('-' :: ·)
  | cs => piece? cs

/-- The rest of a text in quotes, up to the quote that ends it. A backslash takes the next character
with it; the text ends on its line. -/
def closeQuote? : List Char → Option (List Char)
  | '"' :: _ => some ['"']
  | '\\' :: c :: rest => if c = '\n' then none else (closeQuote? rest).map ('\\' :: c :: ·)
  | c :: rest => if c = '\n' then none else (closeQuote? rest).map (c :: ·)
  | [] => none

/-- What a rule takes off the front of a text. -/
def lexeme? : Rule → List Char → Option (List Char)
  | routine, cs => routineLexeme? cs
  | label, cs => labelLexeme? cs
  | float, cs => signed? decimal? cs
  | int, cs => signed? digits? cs
  | string, '"' :: rest => (closeQuote? rest).map ('"' :: ·)
  | sysvar, '@' :: c :: rest =>
    if c.isAlpha then some ('@' :: c :: rest.takeWhile fun c ↦ c.isAlphanum || c == '-') else none
  | name, c :: rest =>
    if c.isAlpha || c == '_' then some (c :: rest.takeWhile isWordChar) else none
  | newline, '\n' :: _ => some ['\n']
  | comment, '#' :: rest => some ('#' :: rest.takeWhile (· != '\n'))
  | _, _ => none

/-- The kind and the value of the token that a piece stands for. A comment stands for none. -/
def reading? (rule : Rule) (piece : List Char) : Option (TokenKind × String) :=
  match rule with
  | routine =>
    some (.routine, .ofList ((piece.drop routineWord.length).dropWhile isGap).dropLast)
  | label => some (.label, .ofList piece.dropLast)
  | float => some (.float, .ofList piece)
  | int => some (.int, .ofList piece)
  | string => some (.string, .ofList piece)
  | sysvar => some (.sysvar, .ofList piece)
  | name => some (Reserved.kindOf (.ofList piece), .ofList piece)
  | newline => some (.newline, .ofList piece)
  | comment => none

/-- What is taken off a text is a beginning of it, and not empty. -/
def Takes (piece? : List Char → Option (List Char)) : Prop :=
  ∀ {cs piece : List Char}, piece? cs = some piece → piece ≠ [] ∧ piece <+: cs

theorem takes_labelLexeme? : Takes labelLexeme? := by
  intro cs piece h
  unfold labelLexeme? at h
  split at h
  · next rest hr =>
    dsimp only at h
    split at h
    · cases h
    · cases h
      refine ⟨by simp, rest, ?_⟩
      have hs := List.takeWhile_append_dropWhile (p := isWordChar) (l := cs)
      rw [hr] at hs
      simpa using hs
  · cases h

theorem takes_routineLexeme? : Takes routineLexeme? := by
  intro cs piece h
  unfold routineLexeme? at h
  dsimp only at h
  split at h
  · next hp =>
    obtain ⟨label, hl, rfl⟩ := Option.map_eq_some_iff.mp h
    obtain ⟨rest, hr⟩ := (takes_labelLexeme? hl).2
    obtain ⟨tail, rfl⟩ := List.isPrefixOf_iff_prefix.mp (Bool.and_eq_true_iff.mp hp).1
    refine ⟨by simp [routineWord], rest, ?_⟩
    rw [List.drop_left] at hr ⊢
    rw [List.append_assoc, List.append_assoc, hr, List.takeWhile_append_dropWhile]
  · cases h

theorem takes_digits? : Takes digits? := by
  intro cs piece h
  unfold digits? at h
  dsimp only at h
  split at h
  · cases h
  · next hd =>
    cases h
    exact ⟨by simpa using hd, List.takeWhile_prefix _⟩

theorem takes_decimal? : Takes decimal? := by
  intro cs piece h
  unfold decimal? at h
  obtain ⟨whole, hw, h⟩ := Option.bind_eq_some_iff.mp h
  split at h
  · next rest hr =>
    obtain ⟨fraction, hf, rfl⟩ := Option.map_eq_some_iff.mp h
    obtain ⟨tail, ht⟩ := (takes_digits? hf).2
    refine ⟨by simp, tail, ?_⟩
    have hs := List.takeWhile_append_dropWhile (p := Text.isDecimalDigit) (l := cs)
    unfold digits? at hw
    dsimp only at hw
    split at hw
    · cases hw
    · cases hw
      rw [hr] at hs
      rw [List.append_assoc, List.cons_append, ht, hs]
  · cases h

private theorem takes_signed? {piece? : List Char → Option (List Char)} (hp : Takes piece?) :
    Takes (signed? piece?) := by
  intro cs piece h
  unfold signed? at h
  split at h
  · obtain ⟨rest, hr, rfl⟩ := Option.map_eq_some_iff.mp h
    exact ⟨by simp, List.cons_prefix_cons.mpr ⟨rfl, (hp hr).2⟩⟩
  · exact hp h

private theorem takes_closeQuote? : Takes closeQuote? := by
  intro cs piece h
  fun_induction closeQuote? cs generalizing piece with
  | case1 rest => cases h; simp
  | case2 => cases h
  | case3 c rest hc ih =>
    obtain ⟨tail, ht, rfl⟩ := Option.map_eq_some_iff.mp h
    simpa using (ih ht).2
  | case4 => cases h
  | case5 c rest _ _ hc ih =>
    obtain ⟨tail, ht, rfl⟩ := Option.map_eq_some_iff.mp h
    simpa using (ih ht).2
  | case6 => cases h

/-- Every rule takes a beginning of the text. -/
theorem takes_lexeme? (rule : Rule) : Takes rule.lexeme? := by
  intro cs piece h
  unfold lexeme? at h
  split at h
  · exact takes_routineLexeme? h
  · exact takes_labelLexeme? h
  · exact takes_signed? takes_decimal? h
  · exact takes_signed? takes_digits? h
  · obtain ⟨rest, hr, rfl⟩ := Option.map_eq_some_iff.mp h
    simpa using (takes_closeQuote? hr).2
  · split at h
    · cases h
      simpa using List.takeWhile_prefix _
    · cases h
  · split at h
    · cases h
      simpa using List.takeWhile_prefix _
    · cases h
  · cases h
    simp
  · cases h
    simpa using List.takeWhile_prefix _
  · cases h

end Rule
end MlogAsm
