import Mathlib.Data.List.Forall2
import MlogAsm.Catalog
import MlogAsm.Proofs.Outline

/-!
# The grammar

Which tokens make a statement, and which elements make a program. A program is what a text says once
its spelling is forgotten: declarations, ends of routines and statements in order.
-/

namespace MlogAsm

namespace Slot

/-- A token fits into a slot. The names that are variables are those that are `known`. -/
def Fits (known : String → Prop) (slot : Slot) (t : Token) : Prop :=
  match t.kind with
  | .operator => slot.kind = .operator
  | .sysvar => slot.kind ≠ .operator
  | .name =>
    slot.kind ≠ .operator ∧
      (known t.value ∨ (∃ content, slot.kind = .name content) ∨ slot.kind = .any)
  | .bool => slot.kind = .bool ∨ slot.kind = .any
  | .float => slot.kind = .float ∨ slot.kind = .any
  | .int => slot.kind = .int ∨ slot.kind = .any
  | .string => slot.kind = .string ∨ slot.kind = .any
  | _ => False

/-- Operands fill slots in order, one each. Slots at the end that are optional may stay empty. -/
inductive Fills (known : String → Prop) : List Slot → List Token → Prop where
  | empty {slots : List Slot} (ho : ∀ slot ∈ slots, slot.optional = true) : Fills known slots []
  | fill {slot : Slot} {t : Token} {slots : List Slot} {ts : List Token}
      (hf : slot.Fits known t) (hs : Fills known slots ts) : Fills known (slot :: slots) (t :: ts)

/-- The operands that stand in slots that are written. -/
def targets (slots : List Slot) (operands : List Token) : List Token :=
  ((slots.zip operands).filter fun (slot, _) ↦ slot.writes).map Prod.snd

/-- Only what may stand in a slot fits. -/
theorem Fits.isValue {known : String → Prop} {slot : Slot} {t : Token} (h : slot.Fits known t) :
    t.kind.isValue = true := by
  unfold Fits at h
  split at h <;> simp_all [TokenKind.isValue]

/-- A line end fits into no slot. -/
theorem accepts_newline (slot : Slot) (vars : List String) (value : String) :
    slot.accepts vars .newline value = false := by
  unfold accepts
  split
  · rfl
  · cases slot.kind <;> rfl

/-- The check of a slot is whether the token fits. -/
theorem accepts_iff_fits (vars : List String) (slot : Slot) (t : Token) :
    slot.accepts vars t.kind t.value = true ↔ slot.Fits (· ∈ vars) t := by
  unfold accepts Fits
  cases hs : slot.kind <;> cases ht : t.kind <;>
    simp [SlotKind.admitsLiteral, SlotKind.admitsName]

end Slot

/-- A statement. -/
inductive Statement where
  /-- An instruction that is written as it runs: its words, then its operands. -/
  | plain (words : List String) (slots : List Slot) (operands : List Token)
  /-- Goes to a label. -/
  | jumpAlways (label : String)
  /-- Goes to a label if a comparison of one or two operands holds. -/
  | jumpIf (label operator : String) (operands : List Token)
  /-- Goes to a label. -/
  | goto (label : String)
  /-- Calls a routine. -/
  | gosub (routine : String)
  /-- Goes back to where the open routine was called. -/
  | leave
  deriving DecidableEq, Repr

namespace Statement

/-- The operands that a statement writes to. -/
def targets : Statement → List Token
  | plain _ slots operands => Slot.targets slots operands
  | _ => []

/-- How a statement is written with the instructions of a catalog. -/
inductive Written (catalog : Catalog) (known : String → Prop) : Statement → List Token → Prop where
  | operation {lead : Token} {op : Operation} {operands : List Token}
      (hl : catalog.find? lead.kind = some (.operation op))
      (hf : Slot.Fills known op.args operands) :
      Written catalog known (.plain [op.name] op.args operands) (lead :: operands)
  | member {lead pick : Token} {group : OperationGroup} {op : Operation} {operands : List Token}
      (hl : catalog.find? lead.kind = some (.group group))
      (hm : group.member? pick.kind = some op)
      (hf : Slot.Fills known op.args operands) :
      Written catalog known (.plain [group.name, op.name] op.args operands)
        (lead :: pick :: operands)
  | compute {lead : Token} {control : Control} {operands : List Token}
      (hl : catalog.find? lead.kind = some (.control control)) (hc : control.form = .compute)
      (hf : Slot.Fills known control.slots operands) :
      Written catalog known (.plain ["op"] control.slots operands) (lead :: operands)
  | jumpAlways {lead label always : Token} {control : Control}
      (hl : catalog.find? lead.kind = some (.control control)) (hc : control.form = .jump)
      (hn : label.kind = .name) (ha : always.kind = .always) :
      Written catalog known (.jumpAlways label.value) [lead, label, always]
  | jumpIf {lead label operator : Token} {control : Control} {operands : List Token}
      (hl : catalog.find? lead.kind = some (.control control)) (hc : control.form = .jump)
      (hn : label.kind = .name) (ho : operator.kind = .operator)
      (hf : Slot.Fills known Control.comparedSlots operands) :
      Written catalog known (.jumpIf label.value operator.value operands)
        (lead :: label :: operator :: operands)
  | goto {lead label : Token} {control : Control}
      (hl : catalog.find? lead.kind = some (.control control)) (hc : control.form = .goto)
      (hn : label.kind = .name) :
      Written catalog known (.goto label.value) [lead, label]
  | gosub {lead routine : Token} {control : Control}
      (hl : catalog.find? lead.kind = some (.control control)) (hc : control.form = .gosub)
      (hn : routine.kind = .name) :
      Written catalog known (.gosub routine.value) [lead, routine]
  | leave {lead : Token} {control : Control}
      (hl : catalog.find? lead.kind = some (.control control)) (hc : control.form = .leave) :
      Written catalog known .leave [lead]

end Statement

/-- A part of a program. -/
inductive Item where
  /-- A declaration of what comes next. -/
  | declare (what : Declared) (name : String)
  /-- The end of a routine. -/
  | close
  | statement (s : Statement)
  deriving DecidableEq, Repr

/-- How a part of a program is written. -/
inductive Item.Written (catalog : Catalog) (known : String → Prop) : Item → Element → Prop where
  | declare {what : Declared} {name : String} {line : Nat} :
      Written catalog known (.declare what name) (.declare what name line)
  | close : Written catalog known .close .close
  | statement {s : Statement} {lead : Token} {operands : List Token}
      (hw : s.Written catalog known (lead :: operands)) :
      Written catalog known (.statement s) (.clause lead operands)

/-- A program: its parts in order. -/
abbrev Program := List Item

namespace Program

/-- The statements of a program. -/
def statements (p : Program) : List Statement :=
  p.filterMap fun
    | .statement s => some s
    | _ => none

/-- A name is declared somewhere in a program. -/
def Declares (p : Program) (what : Declared) (name : String) : Prop :=
  .declare what name ∈ p

/-- A name is written by some statement of a program, which makes it a variable. -/
def Writes (p : Program) (name : String) : Prop :=
  ∃ s ∈ p.statements, ∃ t ∈ s.targets, t.kind = .name ∧ t.value = name

/-- A text has no stray characters, and its lines spell a program. The names that the program writes
are variables everywhere in it, also before. -/
def Reads (catalog : Catalog) (text : String) (p : Program) : Prop :=
  ∃ tokens : List Token, Lexeme.scan text = tokens.map .token ∧
    List.Forall₂ (Item.Written catalog p.Writes) p (outline tokens)

end Program
end MlogAsm
