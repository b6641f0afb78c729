import MlogAsm.Catalog
import MlogAsm.Code

/-!
# Emission

The second walk over a program, which checks every statement against the catalog and gives its
lines. It needs the symbols that a survey of the program has found. Where debug comments are wanted,
it notes on its lines where they come from.
-/

namespace MlogAsm

/-- What a statement may depend on. -/
structure Context where
  symbols : Symbols
  /-- Debug comments are wanted. -/
  debug : Bool
  /-- The routine that is open. -/
  routine : Option String
  /-- The number of lines before the statement. -/
  emitted : Int

/-- A note on a line, where debug comments are wanted. -/
def Context.notes (ctx : Context) (note : String) : List String :=
  if ctx.debug then [note] else []

namespace Operation

/-- Reads the operands of an operation, and gives its words. -/
def emit (op : Operation) (vars : List String) : Reader (List String) :=
  return op.name :: (← Slot.readAll vars op.definition op.args)

end Operation

/-- Fails at the current line if a name cannot be resolved. -/
def Reader.resolve {α : Type} (result : Except Cause α) : Reader α :=
  match result with
  | .ok a => return a
  | .error cause => Reader.fail cause

namespace Control

/-- What a jump compares with if only one value is given. -/
def defaultOperand : String := "false"

/-- Reads when a jump is taken: on a comparison of one or two values, or always. -/
def readCondition (control : Control) (vars : List String) : Reader Condition := do
  let token ← Reader.next
  match token with
  | some ⟨.operator, operator, _, _⟩ =>
    match ← Slot.readAll vars control.definition comparedSlots with
    | [a] => return .compare operator [a, defaultOperand]
    | operands => return .compare operator operands
  | some ⟨.always, _, _, _⟩ => return .always
  | _ =>
    throw ⟨.expectedComparison (Token.describe? token), ← Reader.lineOf token,
      some (.definition control.definition)⟩

/-- Reads the operands of a control instruction, and gives its lines. -/
def emit (control : Control) (ctx : Context) : Reader (List CodeLine) :=
  match control.form with
  | .jump => do
    let label ← control.readName "label"
    let target ← Reader.resolve (ctx.symbols.labelIndex label)
    let condition ← control.readCondition ctx.symbols.vars
    return [⟨.jump target condition, ctx.notes ("jump to " ++ label)⟩]
  | .goto => do
    let label ← control.readName "label"
    let target ← Reader.resolve (ctx.symbols.labelIndex label)
    return [⟨.jump target .always, ctx.notes ("goto " ++ label)⟩]
  | .gosub => do
    let routine ← control.readName "routine"
    if ctx.routine = some routine then Reader.fail .selfCall
    let target ← Reader.resolve (ctx.symbols.routineIndex routine)
    return [⟨.storeReturn routine (ctx.emitted + 2), []⟩,
      ⟨.jump target .always, ctx.notes ("gosub " ++ routine)⟩]
  | .leave =>
    match ctx.routine with
    | none => Reader.fail .returnOutsideRoutine
    | some routine => return [⟨.goBack routine, ctx.notes ("return from " ++ routine)⟩]
  | .compute => do
    let operands ← Slot.readAll ctx.symbols.vars control.definition control.slots
    return [⟨.words ("op" :: operands), []⟩]
  | .undefined => throw ⟨.noCode, none, none⟩

end Control

/-- Reads the rest of a statement after the word that leads it, and gives its lines. -/
def Instruction.emit (instruction : Instruction) (ctx : Context) : Reader (List CodeLine) :=
  match instruction with
  | .operation op => return [⟨.words (← op.emit ctx.symbols.vars), []⟩]
  | .group g => do
    let member ← g.select
    return [⟨.words (g.name :: (← member.emit ctx.symbols.vars)), []⟩]
  | .control c => c.emit ctx

/-- Reads the statement that a token leads, and gives its lines. It has to fill its line, and to
give as many lines as its instruction declares. -/
def Catalog.emitStatement (catalog : Catalog) (ctx : Context) (t : Token) :
    Reader (List CodeLine) := do
  match catalog.find? t.kind with
  | none => Reader.fail (.unexpectedToken t.describe)
  | some instruction =>
    let lines ← instruction.emit ctx
    Reader.endLine
    if (lines.length : Int) = instruction.emits then return lines
    else Reader.fail (.lineCount t.value lines.length instruction.emits)

theorem Operation.forward_emit (op : Operation) (vars : List String) :
    Forward id (op.emit vars) :=
  .bind (Slot.forward_readAll _ _ _) fun _ ↦ .pure _

private theorem Reader.forward_resolve {α : Type} {result : Except Cause α}
    (hk : ∀ cause, result = .error cause → cause.category ≠ .lexical) :
    Forward id (Reader.resolve result) := by
  cases result with
  | ok a => exact .pure _
  | error cause => exact Reader.forward_fail (hk cause rfl)

private theorem Control.forward_readCondition (control : Control) (vars : List String) :
    Forward id (control.readCondition vars) := by
  refine .bind Reader.forward_next fun token ↦ ?_
  split
  · refine .bind (Slot.forward_readAll _ _ _) fun operands ↦ ?_
    split <;> exact .pure _
  · exact .pure _
  · exact .bind (Reader.forward_lineOf _) fun _ ↦ .throw (by rintro ⟨⟩)

theorem Control.forward_emit (control : Control) (ctx : Context) :
    Forward id (control.emit ctx) := by
  have hlabel (label : String) : Forward id (Reader.resolve (ctx.symbols.labelIndex label)) :=
    Reader.forward_resolve fun _ ↦ Symbols.category_of_labelIndex
  have hroutine (routine : String) :
      Forward id (Reader.resolve (ctx.symbols.routineIndex routine)) :=
    Reader.forward_resolve fun _ ↦ Symbols.category_of_routineIndex
  unfold Control.emit
  split
  · exact .bind (control.forward_readName _) fun label ↦
      .bind (hlabel label) fun _ ↦ .bind (control.forward_readCondition _) fun _ ↦ .pure _
  · exact .bind (control.forward_readName _) fun label ↦ .bind (hlabel label) fun _ ↦ .pure _
  · refine .bind (control.forward_readName _) fun routine ↦ ?_
    split
    · exact .bind (Reader.forward_fail (by rintro ⟨⟩)) fun _ ↦
        .bind (hroutine routine) fun _ ↦ .pure _
    · exact .bind (hroutine routine) fun _ ↦ .pure _
  · split
    · exact Reader.forward_fail (by rintro ⟨⟩)
    · exact .pure _
  · exact .bind (Slot.forward_readAll _ _ _) fun _ ↦ .pure _
  · exact .throw (by rintro ⟨⟩)

theorem Instruction.forward_emit (instruction : Instruction) (ctx : Context) :
    Forward id (instruction.emit ctx) := by
  cases instruction with
  | operation op => exact .bind (op.forward_emit _) fun _ ↦ .pure _
  | group g =>
    exact .bind g.forward_select fun member ↦ .bind (member.forward_emit _) fun _ ↦ .pure _
  | control c => exact c.forward_emit ctx

theorem Catalog.forward_emitStatement (catalog : Catalog) (ctx : Context) (t : Token) :
    Forward id (catalog.emitStatement ctx t) := by
  unfold Catalog.emitStatement
  split
  · exact Reader.forward_fail (by rintro ⟨⟩)
  · refine .bind (Instruction.forward_emit _ _) fun _ ↦ .bind Reader.forward_endLine fun _ ↦ ?_
    split
    · exact .pure _
    · exact Reader.forward_fail (by rintro ⟨⟩)

/-- An emission in progress. -/
structure Emission where
  /-- Debug comments are wanted. -/
  debug : Bool
  cursor : Cursor
  /-- The routine that is open. -/
  routine : Option String
  /-- The declaration to note on the next statement. -/
  pending : Option String
  /-- The number of lines so far. -/
  emitted : Nat

namespace Emission

/-- What the next statement may depend on. -/
def context (symbols : Symbols) (s : Emission) : Context :=
  ⟨symbols, s.debug, s.routine, s.emitted⟩

/-- The lines of a statement, with the note of the declaration before it where debug comments are
wanted. -/
def noted (s : Emission) (lines : List CodeLine) : List CodeLine :=
  if s.debug then CodeLine.noting s.pending lines else lines

/-- Lines are counted as they come. -/
@[simp] theorem length_noted (s : Emission) (lines : List CodeLine) :
    (s.noted lines).length = lines.length := by
  unfold noted
  split <;> simp

/-- The lines of the rest of a program. -/
def finish (catalog : Catalog) (symbols : Symbols) (s : Emission) :
    Except Fault (List CodeLine) :=
  match _hn : Reader.next s.cursor with
  | .error f _ => .error f
  | .ok none _ => .ok []
  | .ok (some t) c =>
    match t.kind with
    | .newline => finish catalog symbols { s with cursor := c }
    | .label => finish catalog symbols { s with cursor := c, pending := some ("label " ++ t.value) }
    | .routine =>
      finish catalog symbols
        { s with cursor := c, routine := some t.value, pending := some ("subroutine " ++ t.value) }
    | .endRoutine => finish catalog symbols { s with cursor := c, routine := none }
    | _ =>
      match _hs : catalog.emitStatement (s.context symbols) t c with
      | .error f _ => .error f
      | .ok lines d => do
        let rest ← finish catalog symbols
          { s with cursor := d, pending := none, emitted := s.emitted + lines.length }
        return s.noted lines ++ rest
termination_by s.cursor.rest.length
decreasing_by
  all_goals have hlt := Reader.length_rest_lt_of_next _hn
  all_goals try exact hlt
  have hle := ((catalog.forward_emitStatement _ t).ok _hs).length_rest_le
  exact Nat.lt_of_le_of_lt hle hlt

/-- The place before a program. -/
def start (debug : Bool) (text : String) : Emission := ⟨debug, Cursor.ofText text, none, none, 0⟩

end Emission

namespace CodeLine

/-- The code of a program with given symbols, with all notes on its lines. -/
def emit (catalog : Catalog) (symbols : Symbols) (text : String) : Except Fault (List CodeLine) :=
  Emission.finish catalog symbols (Emission.start true text)

/-- The lines of a program with given symbols as they are printed, with debug comments if these are
wanted. -/
def printed (debug : Bool) (catalog : Catalog) (symbols : Symbols) (text : String) :
    Except Fault (List String) :=
  (Emission.finish catalog symbols (Emission.start debug text)).map (List.map (render true))

end CodeLine

end MlogAsm
