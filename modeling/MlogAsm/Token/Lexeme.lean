import MlogAsm.Token.Segment

/-!
# Lexemes

What a reader of a text meets: its tokens and its stray characters in order, each with its line and
its offset. Blanks and comments leave no lexeme.
-/

namespace MlogAsm

/-- A token, or a character that belongs to none. -/
inductive Lexeme where
  | token (t : Token)
  | stray (c : Char) (line pos : Nat)
  deriving DecidableEq, Repr

namespace Lexeme

/-- The line of a lexeme. -/
def line : Lexeme → Nat
  | token t => t.line
  | stray _ line _ => line

/-- The offset of the first character of a lexeme. -/
def pos : Lexeme → Nat
  | token t => t.pos
  | stray _ _ pos => pos

/-- What a segment that begins on a line at an offset leaves. -/
def ofSegment? (line pos : Nat) : Segment → Option Lexeme
  | .blank _ => none
  | .piece rule cs => (rule.reading? cs).map fun (kind, value) ↦ token ⟨kind, value, line, pos⟩
  | .stray c => some (stray c line pos)

/-- The lexemes of segments of which the first begins on a line at an offset. -/
def ofSegments (line pos : Nat) : List Segment → List Lexeme
  | [] => []
  | segment :: rest =>
    (ofSegment? line pos segment).toList ++
      ofSegments (line + segment.chars.count '\n') (pos + segment.chars.length) rest

/-- The lexemes of a text. -/
def scan (text : String) : List Lexeme :=
  ofSegments 1 0 (Segment.split text.toList)

example : scan "x: set @a -1.5 # note\n$" =
    [token ⟨.label, "x", 1, 0⟩, token ⟨.keyword "SET", "set", 1, 3⟩,
     token ⟨.sysvar, "@a", 1, 7⟩, token ⟨.float, "-1.5", 1, 10⟩, token ⟨.newline, "\n", 1, 21⟩,
     stray '$' 2 22] := by
  decide +kernel

end Lexeme
end MlogAsm
