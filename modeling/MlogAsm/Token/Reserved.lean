import MlogAsm.Token

/-!
# Reserved words

Names with a fixed meaning. A name outside this table is free for labels, routines and variables.
-/

namespace MlogAsm.Reserved

/-- The words that lead an instruction, with their tags. -/
def instructionWords : List (String × String) :=
  [("write", "WRITE"), ("read", "READ"), ("draw", "DRAW"), ("drawflush", "DRAWFLUSH"),
   ("print", "PRINT"), ("printflush", "PRINTFLUSH"), ("getlink", "GETLINK"), ("control", "CONTROL"),
   ("radar", "RADAR"), ("sensor", "SENSOR"), ("set", "SET"), ("op", "OP"), ("end", "END"),
   ("jump", "JUMP"), ("ubind", "UBIND"), ("ucontrol", "UCONTROL"), ("uradar", "URADAR"),
   ("ulocate", "ULOCATE"), ("noop", "NOOP"), ("goto", "GOTO"), ("gosub", "GOSUB"),
   ("return", "RETURN")]

/-- The words that pick a member of an instruction group, with their tags. -/
def memberWords : List (String × String) :=
  [("clear", "SUB_CLEAR"), ("color", "SUB_COLOR"), ("stroke", "SUB_STROKE"), ("line", "SUB_LINE"),
   ("rect", "SUB_RECT"), ("lineRect", "SUB_LINERECT"), ("poly", "SUB_POLY"),
   ("linePoly", "SUB_LINEPOLY"), ("triangle", "SUB_TRIANGLE"), ("image", "SUB_IMAGE"),
   ("enabled", "SUB_ENABLED"), ("shoot", "SUB_SHOOT"), ("shootp", "SUB_SHOOTP"),
   ("configure", "SUB_CONFIGURE"), ("idle", "SUB_IDLE"), ("stop", "SUB_STOP"), ("move", "SUB_MOVE"),
   ("approach", "SUB_APPROACH"), ("boost", "SUB_BOOST"), ("pathfind", "SUB_PATHFIND"),
   ("target", "SUB_TARGET"), ("targetp", "SUB_TARGETP"), ("itemDrop", "SUB_ITEMDROP"),
   ("itemTake", "SUB_ITEMTAKE"), ("payDrop", "SUB_PAYDROP"), ("payTake", "SUB_PAYTAKE"),
   ("mine", "SUB_MINE"), ("flag", "SUB_FLAG"), ("build", "SUB_BUILD"), ("getBlock", "SUB_GETBLOCK"),
   ("within", "SUB_WITHIN"), ("ore", "SUB_ORE"), ("building", "SUB_BUILDING"),
   ("spawn", "SUB_SPAWN")]

/-- The operations on numbers, some of which also compare. -/
def operators : List String :=
  ["add", "sub", "mul", "div", "idiv", "mod", "pow", "equal", "notEqual", "strictEqual", "not",
   "land", "lessThan", "lessThanEq", "greaterThan", "greaterThanEq", "shl", "shr", "xor", "and",
   "or", "flip", "max", "min", "angle", "len", "noise", "abs", "log", "log10", "sin", "cos", "tan",
   "floor", "ceil", "sqrt", "rand"]

/-- All reserved words with their kinds. -/
def table : List (String × TokenKind) :=
  instructionWords.map (fun (word, tag) ↦ (word, .keyword tag)) ++
  memberWords.map (fun (word, tag) ↦ (word, .keyword tag)) ++
  operators.map (·, .operator) ++
  [("true", .bool), ("false", .bool), ("always", .always), ("endroutine", .endRoutine)]

/-- What a word is: its kind if it is reserved, a name otherwise. -/
def kindOf (word : String) : TokenKind :=
  (table.lookup word).getD .name

end MlogAsm.Reserved
