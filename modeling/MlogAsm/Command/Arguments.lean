import MlogAsm.Text.DecimalDigit
import MlogAsm.Text.Quoted

/-!
# Arguments

What the words of a command line ask for. Long switches may be shortened, short ones may share a
word, and a value may stand in the word of its switch or in the next one. Every word is classified
before any of them takes effect.
-/

namespace MlogAsm.Command

/-- What a switch is about. -/
inductive Switch where
  | help
  | input
  | output
  | debugComments
  deriving DecidableEq, Repr

namespace Switch

/-- All switches, in the order in which they are listed. -/
def all : List Switch := [help, input, output, debugComments]

/-- The letter of a switch. -/
def letter : Switch → Char
  | help => 'h'
  | input => 'i'
  | output => 'o'
  | debugComments => 'd'

/-- The long name of a switch. -/
def long : Switch → String
  | help => "--help"
  | input => "--input"
  | output => "--output"
  | debugComments => "--debugcomments"

/-- A switch that has to be followed by a value. -/
def takesValue : Switch → Bool
  | input | output => true
  | help | debugComments => false

/-- A switch as messages show it. -/
def describe (s : Switch) : String :=
  String.ofList ['-', s.letter] ++ "/" ++ s.long

/-- The switch with a letter. -/
def ofLetter? (c : Char) : Option Switch :=
  all.find? (·.letter == c)

end Switch

/-- What a switch asks for, with its value. A value may name no path. -/
inductive Setting where
  | help
  | input (path : Option String)
  | output (path : Option String)
  | debugComments
  deriving DecidableEq, Repr

/-- The word after which no word is a switch. -/
def terminator : String := "--"

/-- The path that a value names. The terminator is taken for a value where it stands in the word of
a switch, but it names nothing. -/
def namedPath? (value : String) : Option String :=
  if value = terminator then none else some value

/-- The setting of a switch. The value counts only if the switch takes one. -/
def Switch.setting (s : Switch) (value : String) : Setting :=
  match s with
  | help => .help
  | input => .input (namedPath? value)
  | output => .output (namedPath? value)
  | debugComments => .debugComments

/-- What is wrong with a command line. -/
inductive UsageError where
  /-- A shortened switch fits several. -/
  | ambiguous (word : String) (candidates : List Switch)
  /-- A value is given to a switch that takes none. -/
  | ignoredValue (s : Switch) (value : String)
  | missingValue (s : Switch)
  | missingInput
  | unrecognized (words : List String)
  deriving DecidableEq, Repr

/-- The wording of an error. -/
def UsageError.message : UsageError → String
  | ambiguous word candidates =>
    "ambiguous option: " ++ word ++ " could match " ++ ", ".intercalate (candidates.map Switch.long)
  | ignoredValue s value =>
    "argument " ++ s.describe ++ ": ignored explicit argument " ++ Text.quoted value
  | missingValue s => "argument " ++ s.describe ++ ": expected one argument"
  | missingInput => "the following arguments are required: " ++ Switch.input.describe
  | unrecognized words => "unrecognized arguments: " ++ " ".intercalate words

/-- A word of a command line by its form. -/
inductive Word where
  /-- No switch. -/
  | plain (text : String)
  /-- The word after which all words are plain. -/
  | terminator
  /-- A switch by its letter, with what stands behind it in the same word. -/
  | short (s : Switch) (attached : Option (List Char))
  /-- A switch by its long name. -/
  | long (s : Switch) (value : Option String)
  /-- A word that looks like a switch and is none. -/
  | unknown (text : String)
  deriving DecidableEq, Repr

namespace Word

/-- A number with a minus sign. A line feed may follow it. -/
def isNegativeNumber (cs : List Char) : Bool :=
  match cs with
  | '-' :: rest =>
    let number := if rest.getLast? = some '\n' then rest.dropLast else rest
    match number.dropWhile Text.isDecimalDigit with
    | [] => !number.isEmpty
    | '.' :: fraction => !fraction.isEmpty && fraction.all Text.isDecimalDigit
    | _ => false
  | _ => false

/-- A word that begins with a hyphen but fits no switch. -/
def unmatched (word : String) : Word :=
  if isNegativeNumber word.toList || word.toList.contains ' ' then plain word else unknown word

/-- The part of a word before its first equals sign, and the part after it if there is one. -/
def splitAtEquals (cs : List Char) : List Char × Option (List Char) :=
  match cs.dropWhile (· != '=') with
  | [] => (cs, none)
  | _ :: value => (cs.takeWhile (· != '='), some value)

/-- Classifies a word that begins with two hyphens. -/
def classifyLong (word : String) : Except UsageError Word :=
  let (name, value) := splitAtEquals word.toList
  match Switch.all.filter fun s ↦ name.isPrefixOf s.long.toList with
  | [] => .ok (unmatched word)
  | [s] => .ok (long s (value.map String.ofList))
  | candidates => .error (.ambiguous word candidates)

/-- Classifies a word that consists of a hyphen, a letter and more. An equals sign right behind the
letter only sets off what is attached. -/
def classifyShort (word : String) (letter : Char) (rest : List Char) : Word :=
  match Switch.ofLetter? letter, rest with
  | none, _ => unmatched word
  | some s, [] => short s none
  | some s, '=' :: text => short s (some text)
  | some s, text => short s (some text)

/-- Classifies a word. -/
def classify (word : String) : Except UsageError Word :=
  match word.toList with
  | '-' :: '-' :: _ => classifyLong word
  | '-' :: letter :: rest => .ok (classifyShort word letter rest)
  | _ => .ok (plain word)

/-- Classifies the words of a command line. -/
def classifyAll : List String → Except UsageError (List Word)
  | [] => .ok []
  | word :: words =>
    if word = Command.terminator then .ok (terminator :: words.map plain)
    else do
      let first ← classify word
      let rest ← classifyAll words
      return first :: rest

end Word

/-- What the switches of one word ask for. -/
structure Cluster where
  settings : List Setting
  /-- A switch at the end with nothing attached. -/
  last : Option Switch := none
  /-- What cannot be understood. -/
  extra : List String := []
  deriving DecidableEq, Repr

namespace Cluster

/-- Puts a setting before the others. -/
def cons (setting : Setting) (c : Cluster) : Cluster :=
  { c with settings := setting :: c.settings }

/-- Reads a switch and what is attached to it: its value, or further letters of switches. Behind a
switch without a value, what does not begin with such a letter is refused as a whole. -/
def ofAttached (s : Switch) (text : List Char) : Except UsageError Cluster :=
  if s.takesValue then .ok { settings := [s.setting (.ofList text)] }
  else
    match text with
    | [] => .error (.ignoredValue s "")
    | c :: rest =>
      match Switch.ofLetter? c with
      | none => .error (.ignoredValue s (.ofList (c :: rest)))
      | some next =>
        if rest.isEmpty then .ok { settings := [s.setting ""], last := some next }
        else (ofAttached next rest).map (cons (s.setting ""))

/-- Reads the switches of a word. -/
def ofWord : Word → Except UsageError Cluster
  | .plain text => .ok { settings := [], extra := [text] }
  | .terminator => .ok { settings := [], extra := [terminator] }
  | .unknown text => .ok { settings := [], extra := [text] }
  | .short s none => .ok { settings := [], last := some s }
  | .short s (some attached) => ofAttached s attached
  | .long s none => .ok { settings := [], last := some s }
  | .long s (some value) =>
    if s.takesValue then .ok { settings := [s.setting value] }
    else .error (.ignoredValue s value)

end Cluster

/-- What to assemble, and how. A path may be left without a name. -/
structure Options where
  input : Option String
  output : Option String
  debugComments : Bool
  deriving DecidableEq, Repr

/-- The output name that stands for the standard output. -/
def standardOutput : String := "stdout"

/-- What a command line asks for. -/
inductive Request where
  | help
  | assemble (options : Options)
  deriving DecidableEq, Repr

/-- What was read of a command line. Later settings replace earlier ones. -/
structure Gathered where
  /-- The path of the last input switch, if there was one. -/
  input : Option (Option String) := none
  output : Option String := some standardOutput
  debugComments : Bool := false
  unrecognized : List String := []
  deriving DecidableEq, Repr

namespace Gathered

/-- Takes in a setting, or none if it asks for help and so ends the reading. -/
def take? (g : Gathered) : Setting → Option Gathered
  | .help => none
  | .input path => some { g with input := some path }
  | .output path => some { g with output := path }
  | .debugComments => some { g with debugComments := true }

/-- Takes in the settings and the rest of one word. -/
def takeAll? (g : Gathered) (settings : List Setting) (extra : List String) : Option Gathered :=
  settings.foldlM take? { g with unrecognized := g.unrecognized ++ extra }

/-- The request of a command line that was read to its end. -/
def request (g : Gathered) : Except UsageError Request :=
  match g.input with
  | none => .error .missingInput
  | some input =>
    if g.unrecognized.isEmpty then .ok (.assemble ⟨input, g.output, g.debugComments⟩)
    else .error (.unrecognized g.unrecognized)

/-- Reads the words that are left. -/
def readWords (g : Gathered) : List Word → Except UsageError Request
  | [] => g.request
  | word :: words => do
    let cluster ← Cluster.ofWord word
    match cluster.last with
    | none =>
      match g.takeAll? cluster.settings cluster.extra with
      | none => return .help
      | some h => h.readWords words
    | some s =>
      if s.takesValue then
        match words with
        | .plain value :: rest =>
          match g.takeAll? (cluster.settings ++ [s.setting value]) cluster.extra with
          | none => return .help
          | some h => h.readWords rest
        | _ => throw (.missingValue s)
      else
        match g.takeAll? (cluster.settings ++ [s.setting ""]) cluster.extra with
        | none => return .help
        | some h => h.readWords words

end Gathered

/-- What the words of a command line ask for. -/
def Request.ofWords (words : List String) : Except UsageError Request := do
  let classified ← Word.classifyAll words
  Gathered.readWords {} classified

end MlogAsm.Command
