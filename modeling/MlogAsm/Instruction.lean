import MlogAsm.Slot

/-!
# Instructions

What a source language offers: operations with a fixed list of slots, groups of operations picked by
a second word, and control instructions with a form of their own. Each declares how many lines a
statement of it gives.
-/

namespace MlogAsm

/-- An instruction with a fixed list of slots. -/
structure Operation where
  name : String
  /-- The kind of the word that leads it, or that picks it in a group. -/
  token : TokenKind
  args : List Slot := []
  /-- The group it belongs to, as its definition shows it. -/
  group : Option String := none
  /-- The number of lines it declares. -/
  emits : Int := 1
  deriving DecidableEq, Repr

/-- How an operation is written. -/
def Operation.definition (op : Operation) : String :=
  let head :=
    match op.group with
    | none => op.name
    | some group => if group.isEmpty then op.name else group ++ " " ++ op.name
  " ".intercalate (head :: op.args.map Slot.describe)

/-- Operations that share their first word. -/
structure OperationGroup where
  name : String
  /-- The kind of the word that leads it. -/
  token : TokenKind
  members : List Operation
  /-- The number of lines it declares. -/
  emits : Int := 1
  deriving DecidableEq, Repr

namespace OperationGroup

/-- The member picked by a token of a kind: the first that has it. -/
def member? (group : OperationGroup) (kind : TokenKind) : Option Operation :=
  group.members.find? (·.token == kind)

/-- Reads the word that picks a member. -/
def select (group : OperationGroup) : Reader Operation := do
  match ← Reader.next with
  | none => throw ⟨.missingMember, none, none⟩
  | some t =>
    if t.kind = .newline then Reader.fail (.newlineAfterGroup group.name)
    else
      match group.member? t.kind with
      | some member => return member
      | none =>
        throw ⟨.unknownMember t.describe group.name, some (← get).line,
          some (.members group.name (group.members.map Operation.name))⟩

theorem forward_select (group : OperationGroup) : Forward id group.select := by
  refine .bind Reader.forward_next fun token ↦ ?_
  cases token with
  | none => exact .throw (by rintro ⟨⟩)
  | some t =>
    dsimp only
    split
    · exact Reader.forward_fail (by rintro ⟨⟩)
    · split
      · exact .pure _
      · exact .bind .get fun _ ↦ .throw (by rintro ⟨⟩)

end OperationGroup

/-- What a control instruction does. -/
inductive ControlForm where
  /-- Goes to a label if a comparison holds. -/
  | jump
  /-- Goes to a label. -/
  | goto
  /-- Calls a routine. -/
  | gosub
  /-- Goes back to where the open routine was called. -/
  | leave
  /-- Computes a value by an operator. -/
  | compute
  /-- Nothing: there is no code for it. -/
  | undefined
  deriving DecidableEq, Repr

/-- An instruction whose operands are not, or not only, a list of slots. -/
structure Control where
  form : ControlForm
  name : String
  /-- The kind of the word that leads it. -/
  token : TokenKind
  /-- How it is written. -/
  definition : String
  /-- The slots that a survey of the program looks at for variables. -/
  slots : List Slot := []
  /-- The number of lines it declares. -/
  emits : Int := 1
  deriving DecidableEq, Repr

namespace Control

/-- The values that a jump compares. -/
def comparedSlots : List Slot :=
  [{ name := "a", kind := .any }, { name := "b", kind := .any, optional := true }]

/-- A jump to a label, on a comparison or always. -/
def jump : Control where
  form := .jump
  name := "jump"
  token := .keyword "JUMP"
  definition :=
    "jump label (label) comp (op) a (any) b (any, optional)\nor: jump label (label) always"

/-- A jump to a label. -/
def goto : Control where
  form := .goto
  name := "goto"
  token := .keyword "GOTO"
  definition := "goto label (label)"

/-- A call of a routine: it stores the way back, then jumps. -/
def gosub : Control where
  form := .gosub
  name := "gosub"
  token := .keyword "GOSUB"
  definition := "gosub routine (routine)"
  emits := 2

/-- The way back from a routine. -/
def leave : Control where
  form := .leave
  name := "return"
  token := .keyword "RETURN"
  definition := "return"

/-- A computation. -/
def compute : Control where
  form := .compute
  name := "op"
  token := .keyword "OP"
  definition := "op op (op) result (variable) a (any) b (any, optional)"
  slots :=
    [{ name := "op", kind := .operator }, { name := "result", kind := .variable, writes := true },
     { name := "a", kind := .any }, { name := "b", kind := .any, optional := true }]

/-- A control instruction without code. -/
def undefined : Control where
  form := .undefined
  name := ""
  token := .keyword ""
  definition := ""

/-- The usual control instruction of a form. -/
def ofForm : ControlForm → Control
  | .jump => jump
  | .goto => goto
  | .gosub => gosub
  | .leave => leave
  | .compute => compute
  | .undefined => undefined

/-- Reads the name of a label or a routine, called `what` in messages. -/
def readName (control : Control) (what : String) : Reader String := do
  let token ← Reader.next
  match token.filter (·.kind == .name) with
  | some t => return t.value
  | none =>
    throw ⟨.expectedName what (Token.describe? token), ← Reader.lineOf token,
      some (.definition control.definition)⟩

theorem forward_readName (control : Control) (what : String) :
    Forward id (control.readName what) := by
  refine .bind Reader.forward_next fun token ↦ ?_
  split
  · exact .pure _
  · exact .bind (Reader.forward_lineOf _) fun _ ↦ .throw (by rintro ⟨⟩)

end Control

/-- An instruction of a catalog. -/
inductive Instruction where
  | operation (op : Operation)
  | group (group : OperationGroup)
  | control (control : Control)
  deriving DecidableEq, Repr

namespace Instruction

/-- The kind of the word that leads an instruction. -/
def token : Instruction → TokenKind
  | operation op => op.token
  | group g => g.token
  | control c => c.token

/-- The number of lines that an instruction declares. -/
def emits : Instruction → Int
  | operation op => op.emits
  | group g => g.emits
  | control c => c.emits

/-- The slots of a statement. A group reads the word that picks a member first. -/
def layout : Instruction → Reader (List Slot)
  | operation op => return op.args
  | group g => return (← g.select).args
  | control c => return c.slots

theorem forward_layout (i : Instruction) : Forward id i.layout := by
  cases i with
  | operation op => exact .pure _
  | group g => exact .bind g.forward_select fun _ ↦ .pure _
  | control c => exact .pure _

end Instruction
end MlogAsm
