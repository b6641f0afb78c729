import MlogAsm.Token.Rule

/-!
# Segments

A text cut into blanks, pieces taken by lexical rules, and stray characters that no rule takes. The
cut loses nothing: the segments in a row are the text again.
-/

namespace MlogAsm

/-- A part of a text. -/
inductive Segment where
  /-- A character that separates tokens. -/
  | blank (c : Char)
  /-- What a rule takes. -/
  | piece (rule : Rule) (chars : List Char)
  /-- A character that no rule takes. -/
  | stray (c : Char)
  deriving DecidableEq, Repr

namespace Segment

/-- The characters of a segment. -/
def chars : Segment → List Char
  | blank c => [c]
  | piece _ cs => cs
  | stray c => [c]

/-- The first rule that applies, with what it takes. -/
def firstPiece? (cs : List Char) : Option (Rule × List Char) :=
  Rule.all.findSome? fun rule ↦ (rule.lexeme? cs).map (rule, ·)

/-- The segment at the front of the text `c :: rest`. -/
def first (c : Char) (rest : List Char) : Segment :=
  if isBlank c then blank c
  else
    match firstPiece? (c :: rest) with
    | some (rule, cs) => piece rule cs
    | none => stray c

/-- The segments of a text after its first `skip` characters. -/
def splitFrom : Nat → List Char → List Segment
  | _, [] => []
  | skip + 1, _ :: rest => splitFrom skip rest
  | 0, c :: rest =>
    let segment := first c rest
    segment :: splitFrom (segment.chars.length - 1) rest

/-- The segments of a text. -/
def split (cs : List Char) : List Segment :=
  splitFrom 0 cs

/-- Skipping characters is dropping them. -/
private theorem splitFrom_eq_split_drop (skip : Nat) (cs : List Char) :
    splitFrom skip cs = split (cs.drop skip) := by
  induction cs generalizing skip with
  | nil => cases skip <;> simp [splitFrom, split]
  | cons c rest ih =>
    cases skip with
    | zero => rfl
    | succ skip => rw [splitFrom, ih, List.drop_succ_cons]

/-- A segment is a beginning of the text, and not empty. -/
theorem first_takes (c : Char) (rest : List Char) :
    (first c rest).chars ≠ [] ∧ (first c rest).chars <+: c :: rest := by
  unfold first
  split
  · simp [chars]
  · split
    · next rule cs h =>
      obtain ⟨found, _, hf⟩ := List.exists_of_findSome?_eq_some h
      obtain ⟨piece, hp, he⟩ := Option.map_eq_some_iff.mp hf
      cases he
      exact rule.takes_lexeme? hp
    · simp [chars]

/-- The first segment of a text, and the segments after it. -/
theorem split_cons (c : Char) (rest : List Char) :
    split (c :: rest) =
      first c rest :: split ((c :: rest).drop (first c rest).chars.length) := by
  have hn := List.length_pos_iff.mpr (first_takes c rest).1
  obtain ⟨n, hl⟩ := Nat.exists_eq_add_of_lt hn
  unfold split
  rw [splitFrom, splitFrom_eq_split_drop, hl]
  simp [split]

/-- The segments of a text in a row are the text. -/
theorem flatMap_chars_split (cs : List Char) : (split cs).flatMap chars = cs := by
  match cs with
  | [] => rfl
  | c :: rest =>
    obtain ⟨hne, tail, ht⟩ := first_takes c rest
    rw [split_cons, List.flatMap_cons, flatMap_chars_split, ← ht, List.drop_left]
termination_by cs.length
decreasing_by
  have := List.length_pos_iff.mpr hne
  simp only [List.length_drop, List.length_cons]
  omega

end Segment
end MlogAsm
