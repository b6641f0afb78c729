import MlogAsm.Symbols

/-!
# Code

The lines of the processor language that an assembly gives. A line keeps its notes apart from its
instruction; they are printed behind it as debug comments.
-/

namespace MlogAsm

/-- When a jump is taken. -/
inductive Condition where
  | always
  /-- When the operator holds of the operands. -/
  | compare (operator : String) (operands : List String)
  deriving DecidableEq, Repr

/-- An instruction of the processor. -/
inductive CodeInstruction where
  /-- The words of an instruction that does not depend on where things stand. -/
  | words (words : List String)
  /-- Goes on at an index. -/
  | jump (target : Int) (condition : Condition)
  /-- Stores where a routine returns to. -/
  | storeReturn (routine : String) (address : Int)
  /-- Goes on where a routine returns to. -/
  | goBack (routine : String)
  deriving DecidableEq, Repr

namespace CodeInstruction

/-- The words of an instruction. -/
def toWords : CodeInstruction → List String
  | words ws => ws
  | jump target .always => ["jump", toString target, "always"]
  | jump target (.compare operator operands) => "jump" :: toString target :: operator :: operands
  | storeReturn routine address => ["set", returnVariable routine, toString address]
  | goBack routine => ["set", "@counter", returnVariable routine]

/-- The text of an instruction: its words, a space between each two. -/
def render (i : CodeInstruction) : String :=
  " ".intercalate i.toWords

end CodeInstruction

/-- A line of code with what a reader may want to know about it. -/
structure CodeLine where
  instruction : CodeInstruction
  notes : List String := []
  deriving DecidableEq, Repr

namespace CodeLine

/-- The text of a line. With debug comments, each note follows as a comment. -/
def render (debug : Bool) (line : CodeLine) : String :=
  line.instruction.render ++
    if debug then String.join (line.notes.map (" # " ++ ·)) else ""

/-- Adds a note behind the others. -/
def annotate (note : String) (line : CodeLine) : CodeLine :=
  { line with notes := line.notes ++ [note] }

/-- Adds a note to the last of some lines. -/
def annotateLast (note : String) : List CodeLine → List CodeLine
  | [] => []
  | [line] => [line.annotate note]
  | line :: lines => line :: annotateLast note lines

/-- Adds a note to the last of some lines, if there is one to add. -/
def noting : Option String → List CodeLine → List CodeLine
  | none, lines => lines
  | some note, lines => annotateLast note lines

/-- Notes do not change the number of lines. -/
@[simp] theorem length_annotateLast (note : String) (lines : List CodeLine) :
    (annotateLast note lines).length = lines.length := by
  fun_induction annotateLast note lines with
  | case1 => rfl
  | case2 => rfl
  | case3 line lines _ ih => simp [ih]

@[simp] theorem length_noting (note : Option String) (lines : List CodeLine) :
    (noting note lines).length = lines.length := by
  cases note <;> simp [noting]

end CodeLine

/-- Lines as a text: each has a line feed after it. -/
def joinLines (lines : List String) : String :=
  "\n".intercalate (lines ++ [""])

end MlogAsm
