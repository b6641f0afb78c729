import MlogAsm.Assembly
import MlogAsm.Command.Arguments
import MlogAsm.Command.FileStore
import MlogAsm.Text.LineEnd
import MlogAsm.Text.Utf8

/-!
# Runs

What a run of the command does: it reads the input, assembles it, and prints the result or writes
it to a file. Access to files is a parameter, so that a run can be told on a `FileStore` as well as
done on a disk. Nothing is written unless the whole program is in order.
-/

namespace MlogAsm.Command

/-- Why no file system can be asked for a file. -/
inductive PathError where
  /-- The path has no name. -/
  | unnamed
  /-- The path holds the character zero. -/
  | nul
  deriving DecidableEq, Repr

/-- How a run ends. -/
inductive Status where
  | exit (code : Nat)
  /-- A file was to be opened at a path that cannot be one. -/
  | badPath (e : PathError)
  deriving DecidableEq, Repr

/-- What a run leaves to see. -/
structure Report where
  status : Status
  stdout : String
  stderr : String
  deriving DecidableEq, Repr

/-- How the command is called. -/
def usage : String := "usage: mlogwrap [-h] -i INPUT [-o OUTPUT] [-d]\n"

/-- The help text. -/
def help : String :=
  usage ++
  "\n" ++
  "very slightly higher level wrapper around mlog. makes jump statements actually\n" ++
  "usable and will yell at you if you make a mistake\n" ++
  "\n" ++
  "options:\n" ++
  "  -h, --help            show this help message and exit\n" ++
  "  -i INPUT, --input INPUT\n" ++
  "                        input file\n" ++
  "  -o OUTPUT, --output OUTPUT\n" ++
  "                        output file (setting to stdout will send output to\n" ++
  "                        stdout)\n" ++
  "  -d, --debugcomments   add debug comments to generated code\n"

/-- The report on a command line that cannot be understood. -/
def UsageError.report (e : UsageError) : Report :=
  ⟨.exit 2, "", usage ++ "mlogwrap: error: " ++ e.message ++ "\n"⟩

/-- Why an input cannot be read. -/
inductive InputError where
  | access (e : AccessError)
  | decoding (e : Text.Utf8.DecodeError)
  deriving DecidableEq, Repr

/-- The wording of an error about an input. -/
def InputError.message (path : String) : InputError → String
  | access e => e.message path
  | decoding e => e.message

/-- The text of an input. -/
def decodeInput (contents : Except AccessError (List UInt8)) : Except InputError String :=
  match contents with
  | .error e => .error (.access e)
  | .ok bytes =>
    match Text.Utf8.decode bytes with
    | .error e => .error (.decoding e)
    | .ok text => .ok (.ofList (Text.unifyLineEnds text.toList))

/-- A diagnostic as it is printed, on lines of its own. -/
def printed (colored : Bool) (d : Diagnostic) : String :=
  d.render colored ++ "\n"

/-- Assembles the contents of the input at a path, with debug comments if these are wanted. -/
def assemble (path : String) (debug : Bool) (contents : Except AccessError (List UInt8)) :
    Except Diagnostic Listing :=
  match decodeInput contents with
  | .error e => .error ⟨.error, "couldn't read input: " ++ e.message path, path, none, none⟩
  | .ok text =>
    match Listing.ofText debug text with
    | .error f => .error (f.diagnostic path)
    | .ok l => .ok l

/-- The warnings about the input at a path, as they are printed. -/
def warnings (path : String) (colored : Bool) (symbols : Symbols) : String :=
  String.join (symbols.warnings.map fun w ↦ printed colored (w.diagnostic path))

/-- The diagnostic of an output that cannot be written. -/
def writeFailure (path : String) (e : AccessError) : Diagnostic :=
  ⟨.error, "couldn't write output: " ++ e.message path, path, none, none⟩

/-- The path to ask a file system for. -/
def openable (path : Option String) : Except PathError String :=
  match path with
  | none => .error .unnamed
  | some path => if path.toList.contains '\x00' then .error .nul else .ok path

/-- How files are reached. -/
structure FileAccess (m : Type → Type) where
  read : String → m (Except AccessError (List UInt8))
  write : String → List UInt8 → m (Except AccessError Unit)

/-- Reads, assembles and writes. Diagnostics are coloured if a terminal shows them. The output path
is looked at only when there is something to write to it. -/
def Options.run {m : Type → Type} [Monad m] (access : FileAccess m) (colored : Bool)
    (options : Options) : m Report := do
  match openable options.input with
  | .error e => return ⟨.badPath e, "", ""⟩
  | .ok input =>
    match assemble input options.debugComments (← access.read input) with
    | .error d => return ⟨.exit 1, "", printed colored d⟩
    | .ok listing =>
      let text := listing.text
      let warnings := warnings input colored listing.symbols
      if options.output = some standardOutput then return ⟨.exit 0, text ++ "\n", warnings⟩
      match openable options.output with
      | .error e => return ⟨.badPath e, "", warnings⟩
      | .ok output =>
        match ← access.write output (Text.Utf8.encode text) with
        | .error e => return ⟨.exit 1, "", warnings ++ printed colored (writeFailure output e)⟩
        | .ok () => return ⟨.exit 0, "Saved to " ++ output ++ "\n", warnings⟩

/-- Runs the command with the words of a command line. -/
def run {m : Type → Type} [Monad m] (access : FileAccess m) (colored : Bool)
    (words : List String) : m Report :=
  match Request.ofWords words with
  | .error e => return e.report
  | .ok .help => return ⟨.exit 0, help, ""⟩
  | .ok (.assemble options) => options.run access colored

/-- Access to the files of a store. -/
def FileStore.access : FileAccess (StateM FileStore) where
  read path := return (← get).read path
  write path bytes := do
    match (← get).write path bytes with
    | .error e => return .error e
    | .ok store => do
      set store
      return .ok ()

/-- Runs the command on a store. -/
def FileStore.run (store : FileStore) (colored : Bool) (words : List String) : Report × FileStore :=
  (Command.run FileStore.access colored words).run store

end MlogAsm.Command
