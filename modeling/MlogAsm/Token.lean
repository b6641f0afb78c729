/-!
# Tokens

The words of a source text: what kinds there are, the tag that names each kind, and how a token is
described in a message.
-/

namespace MlogAsm

/-- What a token is. -/
inductive TokenKind where
  /-- A routine header, `routine r:`. -/
  | routine
  /-- A label, `l:`. -/
  | label
  /-- A number with a point. -/
  | float
  /-- A number without a point. -/
  | int
  /-- Text in double quotes. -/
  | string
  /-- A system variable, `@unit`. -/
  | sysvar
  /-- A name that is not a reserved word. -/
  | name
  /-- The end of a line. -/
  | newline
  /-- A reserved word for an operation on numbers. -/
  | operator
  /-- One of the words `true` and `false`. -/
  | bool
  /-- The word `always`. -/
  | always
  /-- The word `endroutine`. -/
  | endRoutine
  /-- A reserved word that leads an instruction or picks a member of a group, known by its tag. -/
  | keyword (tag : String)
  deriving DecidableEq, Repr

namespace TokenKind

/-- The name of a kind. -/
def tag : TokenKind → String
  | routine => "ROUTINE"
  | label => "LABEL"
  | float => "FLOAT"
  | int => "INT"
  | string => "STRING"
  | sysvar => "SYSVAR"
  | name => "NAME"
  | newline => "NEWLINE"
  | operator => "OPERATOR"
  | bool => "BOOL"
  | always => "ALWAYS"
  | endRoutine => "ENDROUTINE"
  | keyword tag => tag

/-- The kinds whose tag is fixed. -/
def fixed : List TokenKind :=
  [routine, label, float, int, string, sysvar, name, newline, operator, bool, always, endRoutine]

/-- The kind with a given tag. -/
def ofTag (tag : String) : TokenKind :=
  (fixed.find? (·.tag == tag)).getD (keyword tag)

/-- Every tag names a kind. -/
@[simp] theorem tag_ofTag (tag : String) : (ofTag tag).tag = tag := by
  unfold ofTag
  cases h : fixed.find? (·.tag == tag) with
  | none => rfl
  | some k => simpa using List.find?_some h

/-- A label or a routine header. -/
def isDeclaration : TokenKind → Bool
  | routine | label => true
  | _ => false

end TokenKind

/-- A token with its place in the text. -/
structure Token where
  /-- What it is. -/
  kind : TokenKind
  /-- The name declared by a label or a routine header, otherwise the characters of the token. -/
  value : String
  /-- The number of its line, from one. -/
  line : Nat
  /-- The offset of its first character, from zero. -/
  pos : Nat
  deriving DecidableEq, Repr

namespace Token

/-- A token as messages show it. -/
def describe (t : Token) : String :=
  match t.kind with
  | .newline => "newline"
  | .label => t.value ++ ":"
  | .routine => "routine " ++ t.value ++ ":"
  | _ => t.value

/-- A token, or the end of the text, as messages show it. -/
def describe? : Option Token → String
  | none => "EOF"
  | some t => t.describe

end Token
end MlogAsm
