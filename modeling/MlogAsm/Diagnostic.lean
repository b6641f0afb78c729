/-!
# Diagnostics

A message about a file, and its two printed forms: plain, and coloured for a terminal.
-/

namespace MlogAsm

/-- How grave a message is. -/
inductive Severity where
  | error
  | warning
  /-- Any other message, under its own label. -/
  | remark (label : String)
  deriving DecidableEq, Repr

namespace Severity

/-- The word printed before the message. -/
def label : Severity → String
  | error => "error"
  | warning => "warning"
  | remark label => label

/-- The severity with a given label. -/
def ofLabel (label : String) : Severity :=
  if label = "error" then error else if label = "warning" then warning else remark label

@[simp] theorem label_ofLabel (s : String) : (ofLabel s).label = s := by
  unfold ofLabel
  split
  · next h => exact h.symm
  · split
    · next h => exact h.symm
    · rfl

end Severity

/-- Switches of a terminal that change how the text after them looks. -/
inductive Style where
  | bold
  | red
  | yellow
  | blue
  | cyan
  deriving DecidableEq, Repr

namespace Style

/-- The characters that switch a style on. -/
def code : Style → String
  | bold => "\x1b[1m"
  | red => "\x1b[31m"
  | yellow => "\x1b[33m"
  | blue => "\x1b[34m"
  | cyan => "\x1b[36m"

/-- The characters that switch all styles off. -/
def reset : String := "\x1b[0m"

/-- A text in some styles, or as it is where there is no colour. -/
def apply (colored : Bool) (styles : List Style) (text : String) : String :=
  if colored then String.join (styles.map code) ++ text ++ reset else text

end Style

/-- The styles in which a severity is shown. -/
def Severity.styles : Severity → List Style
  | error => [.bold, .red]
  | warning => [.bold, .yellow]
  | remark _ => [.bold, .blue]

/-- A message about a file. -/
structure Diagnostic where
  severity : Severity
  message : String
  /-- The file, as it was named. -/
  path : String
  /-- The line, unless the message is about the whole file or its end. -/
  line : Option Int
  /-- A note for the next line. An empty one is left out. -/
  hint : Option String
  deriving DecidableEq, Repr

namespace Diagnostic

/-- The place a diagnostic is about: the file, and the line if there is one. -/
def place (d : Diagnostic) : String :=
  match d.line with
  | some line => d.path ++ ":" ++ toString line ++ ":"
  | none => d.path ++ ":"

/-- The note under a diagnostic, with the line break before it. -/
def note (colored : Bool) (d : Diagnostic) : String :=
  match d.hint with
  | none => ""
  | some hint =>
    if hint.isEmpty then "" else "\n" ++ Style.apply colored [.bold, .cyan] "note:" ++ " " ++ hint

/-- The printed form of a diagnostic, without a line break at its end. -/
def render (colored : Bool) (d : Diagnostic) : String :=
  Style.apply colored [.bold] d.place ++ " " ++
    Style.apply colored d.severity.styles (d.severity.label ++ ":") ++ " " ++ d.message ++
    d.note colored

example : render false ⟨.error, "unexpected token x", "a.mlog", some 3, none⟩ =
    "a.mlog:3: error: unexpected token x" := by
  decide +kernel

end Diagnostic
end MlogAsm
