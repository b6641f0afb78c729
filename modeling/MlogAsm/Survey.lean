import MlogAsm.Catalog
import MlogAsm.Symbols

/-!
# Surveys

A first walk over a program, which finds its labels, routines and variables and counts its lines. Of
each statement it looks only at the slots up to the last one that is written, so it can be done
before the variables are known.
-/

namespace MlogAsm

/-- A survey in progress. -/
structure Survey where
  cursor : Cursor
  /-- What was found so far. The size is the number of lines up to here. -/
  symbols : Symbols

/-- A step of a survey. -/
abbrev Surveyor := EStateM Fault Survey

namespace Survey

/-- Moves the cursor of a survey. -/
def read {α : Type} (m : Reader α) : Surveyor α := fun s ↦
  match m s.cursor with
  | .ok a c => .ok a { s with cursor := c }
  | .error f c => .error f { s with cursor := c }

/-- The slots up to the last one that is written. -/
def throughLastWrite : List Slot → List Slot
  | [] => []
  | slot :: slots =>
    match throughLastWrite slots with
    | [] => if slot.writes then [slot] else []
    | found => slot :: found

/-- Records what stands in a slot. Only a name or a system variable can be written. -/
def recordOperand (owner : String) (slot : Slot) (t : Token) : Surveyor Unit := do
  if slot.writes then
    if t.kind = .name then modify fun s ↦ { s with symbols := s.symbols.addVariable t.value }
    else if t.kind ≠ .sysvar then read (Reader.fail (.unwritable t.describe owner))

/-- Records the variables that stand in slots. It ends early with the line: that an operand is
missing shows later. -/
def recordEach (owner : String) : List Slot → Surveyor Unit
  | [] => return
  | slot :: slots => do
    match ← read Reader.next with
    | none => return
    | some t =>
      if t.kind = .newline then return
      recordOperand owner slot t
      recordEach owner slots

/-- Records the variables that a statement led by the word `owner` writes. -/
def recordWrites (owner : String) (slots : List Slot) : Surveyor Unit :=
  recordEach owner (throughLastWrite slots)

/-- Surveys the statement that a token leads. -/
def statement (catalog : Catalog) (t : Token) : Surveyor Unit := do
  match catalog.find? t.kind with
  | none => read (Reader.fail (.unexpectedToken t.describe))
  | some instruction =>
    modify fun s ↦ { s with symbols.size := s.symbols.size + instruction.emits }
    let slots ← read instruction.layout
    recordWrites t.value slots
    read Reader.skipLine

/-- Surveys what a token begins: a declaration or a statement. -/
def element (catalog : Catalog) (t : Token) : Surveyor Unit :=
  match t.kind with
  | .newline | .endRoutine => return
  | .label => modify fun s ↦ { s with symbols := s.symbols.declare .label t.value s.cursor.line }
  | .routine =>
    modify fun s ↦ { s with symbols := s.symbols.declare .routine t.value s.cursor.line }
  | _ => statement catalog t

theorem forward_read {α : Type} {m : Reader α} (hm : Forward id m) :
    Forward cursor (read m) := by
  intro s
  unfold read
  cases h : m s.cursor with
  | ok a c => exact hm.ok h
  | error f c => exact hm.error h

private theorem forward_recordOperand (owner : String) (slot : Slot) (t : Token) :
    Forward cursor (recordOperand owner slot t) := by
  unfold recordOperand
  split
  · split
    · exact .modify fun _ ↦ rfl
    · split
      · exact forward_read (Reader.forward_fail (by rintro ⟨⟩))
      · exact .pure _
  · exact .pure _

private theorem forward_recordEach (owner : String) (slots : List Slot) :
    Forward cursor (recordEach owner slots) := by
  induction slots with
  | nil => exact .pure _
  | cons slot slots ih =>
    refine .bind (forward_read Reader.forward_next) fun token ↦ ?_
    cases token with
    | none => exact .pure _
    | some t =>
      dsimp only
      split
      · exact .pure _
      · exact .bind (forward_recordOperand owner slot t) fun _ ↦ ih

private theorem forward_statement (catalog : Catalog) (t : Token) :
    Forward cursor (statement catalog t) := by
  unfold statement
  split
  · exact forward_read (Reader.forward_fail (by rintro ⟨⟩))
  · next instruction _ =>
    exact .bind (.modify fun _ ↦ rfl) fun _ ↦
      .bind (forward_read instruction.forward_layout) fun _ ↦
        .bind (forward_recordEach _ _) fun _ ↦ forward_read Reader.forward_skipLine

theorem forward_element (catalog : Catalog) (t : Token) :
    Forward cursor (element catalog t) := by
  unfold element
  split
  · exact .pure _
  · exact .pure _
  · exact .modify fun _ ↦ rfl
  · exact .modify fun _ ↦ rfl
  · exact forward_statement catalog t

/-- Surveys the rest of a program. -/
def finish (catalog : Catalog) (s : Survey) : Except Fault Symbols :=
  match _hn : Reader.next s.cursor with
  | .error f _ => .error f
  | .ok none _ => .ok s.symbols
  | .ok (some t) c =>
    match _he : element catalog t { s with cursor := c } with
    | .error f _ => .error f
    | .ok _ s' => finish catalog s'
termination_by s.cursor.rest.length
decreasing_by
  have hlt := Reader.length_rest_lt_of_next _hn
  have hle := ((forward_element catalog t).ok _he).length_rest_le
  exact Nat.lt_of_le_of_lt hle hlt

end Survey

/-- What a text declares, if it is a program in outline. -/
def Symbols.survey (catalog : Catalog) (text : String) : Except Fault Symbols :=
  Survey.finish catalog ⟨Cursor.ofText text, .empty⟩

end MlogAsm
