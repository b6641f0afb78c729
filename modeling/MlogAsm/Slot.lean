import MlogAsm.Cursor

/-!
# Slots

The places for operands in an instruction: what each may hold, and how the operands of a statement
are read. An optional slot may be left empty at the end of a line, and then takes that end with it.
-/

namespace MlogAsm

/-- What a slot is meant to hold. -/
inductive SlotKind where
  | bool
  | float
  | int
  | string
  /-- The name of something in the world, with what kind of thing it is. -/
  | name (content : Option String)
  | variable
  | any
  | operator
  deriving DecidableEq, Repr

namespace SlotKind

/-- A slot kind as messages show it. -/
def describe : SlotKind → String
  | bool => "bool"
  | float => "float"
  | int => "int"
  | string => "string"
  | name content => "name (" ++ content.getD "None" ++ ")"
  | .variable => "variable"
  | any => "any"
  | operator => "op"

/-- A literal of a kind fits: into a slot of its own kind, and into a slot for anything. -/
def admitsLiteral : SlotKind → TokenKind → Bool
  | bool, .bool => true
  | float, .float => true
  | int, .int => true
  | string, .string => true
  | any, .bool | any, .float | any, .int | any, .string => true
  | _, _ => false

/-- A name that is not a variable fits. -/
def admitsName : SlotKind → Bool
  | name _ | any => true
  | _ => false

end SlotKind

/-- A place for an operand. -/
structure Slot where
  name : String
  kind : SlotKind
  /-- The instruction stores a result here. -/
  writes : Bool := false
  /-- The operand may be left out at the end of a line. -/
  optional : Bool := false
  deriving DecidableEq, Repr

namespace Slot

/-- A slot as the definition of an instruction shows it. -/
def describe (slot : Slot) : String :=
  slot.name ++ " (" ++ slot.kind.describe ++ (if slot.optional then ", optional" else "") ++ ")"

/-- A token of a kind and with a value fits into a slot. A known variable and a system variable fit
everywhere but in the place of an operator. -/
def accepts (slot : Slot) (vars : List String) (kind : TokenKind) (value : String) : Bool :=
  if slot.kind = .operator then kind == .operator
  else
    match kind with
    | .sysvar => true
    | .name => vars.contains value || slot.kind.admitsName
    | _ => slot.kind.admitsLiteral kind

/-- Reads the operand of a slot: its text, or none where an optional slot stays empty. -/
def read (vars : List String) (slot : Slot) : Reader (Option String) := do
  match ← Reader.next with
  | none =>
    if slot.optional then return none
    else throw ⟨.missingOperand slot.kind.describe, none, none⟩
  | some t =>
    if t.kind = .newline ∧ slot.optional then return none
    else if slot.accepts vars t.kind t.value then return some t.value
    else Reader.fail (.misfitOperand slot.kind.describe t.describe)

/-- Reads the operands of slots in order. Empty slots leave no operand. -/
def readEach (vars : List String) : List Slot → Reader (List String)
  | [] => return []
  | slot :: slots => do
    let operand ← slot.read vars
    let operands ← readEach vars slots
    return operand.toList ++ operands

/-- Reads the operands of an instruction with a given definition. -/
def readAll (vars : List String) (definition : String) (slots : List Slot) :
    Reader (List String) :=
  Reader.describing definition (readEach vars slots)

theorem forward_read (vars : List String) (slot : Slot) :
    Forward id (slot.read vars) := by
  refine .bind Reader.forward_next fun token ↦ ?_
  cases token with
  | none =>
    dsimp only
    split
    · exact .pure _
    · exact .throw (by rintro ⟨⟩)
  | some t =>
    dsimp only
    split
    · exact .pure _
    · split
      · exact .pure _
      · exact Reader.forward_fail (by rintro ⟨⟩)

private theorem forward_readEach (vars : List String) (slots : List Slot) :
    Forward id (readEach vars slots) := by
  induction slots with
  | nil => exact .pure _
  | cons slot slots ih =>
    exact .bind (forward_read vars slot) fun _ ↦ .bind ih fun _ ↦ .pure _

theorem forward_readAll (vars : List String) (definition : String) (slots : List Slot) :
    Forward id (readAll vars definition slots) :=
  Reader.forward_describing (forward_readEach vars slots) definition

end Slot
end MlogAsm
