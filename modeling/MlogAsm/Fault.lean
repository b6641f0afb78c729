import MlogAsm.Diagnostic
import MlogAsm.Text.Quoted

/-!
# Faults

What can be wrong with a program. A fault is a cause with the line where it was met and a hint, and
it stops the assembly. The wording of every cause is in `Cause.message`.
-/

namespace MlogAsm

/-- The kinds of causes. -/
inductive Category where
  /-- A character that belongs to no token. -/
  | lexical
  /-- Tokens in the wrong place. -/
  | structural
  /-- A target that is not declared, or is declared as the other kind. -/
  | resolution
  /-- A call or a return that cannot work where it stands. -/
  | semantic
  /-- A catalog entry that breaks its promise. -/
  | internal
  /-- A catalog entry without code. -/
  | unsupported
  deriving DecidableEq, Repr

/-- What is wrong. Tokens are given as messages describe them. -/
inductive Cause where
  | strayCharacter (c : Char)
  | unexpectedToken (found : String)
  /-- The instruction `owner` cannot write to what stands in the place of a variable. -/
  | unwritable (found owner : String)
  /-- The text ends where an operand has to stand. -/
  | missingOperand (expected : String)
  | misfitOperand (expected found : String)
  /-- The text ends where a member of a group has to stand. -/
  | missingMember
  | newlineAfterGroup (group : String)
  | unknownMember (found group : String)
  | expectedName (what found : String)
  | expectedComparison (found : String)
  | labelIsRoutine (name : String)
  | unknownLabel (name : String)
  | routineIsLabel (name : String)
  | unknownRoutine (name : String)
  /-- A routine calls itself. There is no call stack, so it would lose its way back. -/
  | selfCall
  | returnOutsideRoutine
  /-- A statement gave a number of lines other than the one declared for it. -/
  | lineCount (word : String) (emitted : Nat) (declared : Int)
  | noCode
  deriving DecidableEq, Repr

namespace Cause

/-- The kind of a cause. -/
def category : Cause → Category
  | strayCharacter _ => .lexical
  | unexpectedToken _ | unwritable _ _ | missingOperand _ | misfitOperand _ _ | missingMember
  | newlineAfterGroup _ | unknownMember _ _ | expectedName _ _ | expectedComparison _ => .structural
  | labelIsRoutine _ | unknownLabel _ | routineIsLabel _ | unknownRoutine _ => .resolution
  | selfCall | returnOutsideRoutine => .semantic
  | lineCount _ _ _ => .internal
  | noCode => .unsupported

/-- The wording of a cause. -/
def message : Cause → String
  | strayCharacter c => "unrecognized character " ++ Text.quoted c.toString
  | unexpectedToken found => "unexpected token " ++ found
  | unwritable found owner => "unexpected token " ++ found ++ " after " ++ owner
  | missingOperand expected => "expected " ++ expected ++ " or variable, got EOF"
  | misfitOperand expected found =>
    "expected " ++ expected ++ " or variable, got " ++ found ++
      " (maybe you forgot to create a variable?)"
  | missingMember => "expected sub-instruction name, got EOF"
  | newlineAfterGroup group => "unexpected newline after instruction \"" ++ group ++ "\""
  | unknownMember found group => "unknown sub-instruction " ++ found ++ " for \"" ++ group ++ "\""
  | expectedName what found => "expected " ++ what ++ ", got " ++ found
  | expectedComparison found => "expected comparison, got " ++ found
  | labelIsRoutine name => name ++ " is declared as a subroutine, not a label!"
  | unknownLabel name => "couldn't find label " ++ name
  | routineIsLabel name => name ++ " is declared as a label, not a subroutine!"
  | unknownRoutine name => "couldn't find routine " ++ name
  | selfCall => "can't call the current subroutine!"
  | returnOutsideRoutine => "can't return outside of a subroutine!"
  | lineCount word emitted declared =>
    "internal: " ++ word ++ " emitted " ++ toString emitted ++ " lines, expected " ++
      toString declared
  | noCode => ""

end Cause

/-- What may help to mend a fault. -/
inductive Hint where
  /-- How the instruction is written. -/
  | definition (text : String)
  /-- The members that a group has. -/
  | members (group : String) (names : List String)
  deriving DecidableEq, Repr

/-- The wording of a hint. -/
def Hint.message : Hint → String
  | definition text => "instruction is defined as: " ++ text
  | members group names => group ++ " takes one of: " ++ ", ".intercalate names

/-- A cause met while reading a program. -/
structure Fault where
  cause : Cause
  /-- The line where it was met, or none at the end of the text. -/
  line : Option Nat
  hint : Option Hint
  deriving DecidableEq, Repr

namespace Fault

/-- Adds how the instruction is written, if the fault is about its operands. -/
def withDefinition (definition : String) (f : Fault) : Fault :=
  if f.cause.category = .structural then { f with hint := some (.definition definition) } else f

/-- A fault as a message about a file. -/
def diagnostic (path : String) (f : Fault) : Diagnostic :=
  ⟨.error, f.cause.message, path, f.line.map Int.ofNat, f.hint.map Hint.message⟩

end Fault
end MlogAsm
