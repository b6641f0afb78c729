import MlogAsm.Emission
import MlogAsm.Survey

/-!
# Assemblies

A program as a whole: its symbols, its lines and their text. An assembly has all notes on its lines,
so that it can be shown with debug comments and without. A listing has the lines as they are
printed.
-/

namespace MlogAsm

/-- An assembled program. -/
structure Assembly where
  symbols : Symbols
  code : List CodeLine
  deriving DecidableEq, Repr

namespace Assembly

/-- Assembles a text with the instructions of a catalog. -/
def ofTextWith (catalog : Catalog) (text : String) : Except Fault Assembly := do
  let symbols ← Symbols.survey catalog text
  let code ← CodeLine.emit catalog symbols text
  return ⟨symbols, code⟩

/-- Assembles a text. -/
def ofText (text : String) : Except Fault Assembly :=
  ofTextWith .standard text

/-- The lines of a program, with or without debug comments. -/
def lines (debug : Bool) (a : Assembly) : List String :=
  a.code.map (CodeLine.render debug)

/-- The text of a program: its lines, each with a line feed after it. -/
def text (debug : Bool) (a : Assembly) : String :=
  joinLines (a.lines debug)

end Assembly

/-- A program as it is printed. -/
structure Listing where
  symbols : Symbols
  lines : List String
  deriving DecidableEq, Repr

namespace Listing

/-- Assembles a text with the instructions of a catalog and prints it, with debug comments if these
are wanted. -/
def ofTextWith (debug : Bool) (catalog : Catalog) (text : String) : Except Fault Listing := do
  let symbols ← Symbols.survey catalog text
  let lines ← CodeLine.printed debug catalog symbols text
  return ⟨symbols, lines⟩

/-- Assembles a text and prints it. -/
def ofText (debug : Bool) (text : String) : Except Fault Listing :=
  ofTextWith debug .standard text

/-- The text of a program: its lines, each with a line feed after it. -/
def text (l : Listing) : String :=
  joinLines l.lines

end Listing
end MlogAsm
