import MlogAsm.Instruction

/-!
# Catalogs

The instructions that a program may use, and the catalog of the processor language with its labels
and routines.
-/

namespace MlogAsm

/-- The instructions that a program may use. -/
structure Catalog where
  instructions : List Instruction
  deriving DecidableEq, Repr

namespace Catalog

/-- The instruction that a token of a kind leads: the first that has it. -/
def find? (catalog : Catalog) (kind : TokenKind) : Option Instruction :=
  catalog.instructions.find? (·.token == kind)

/-- A token of a kind leads an instruction. -/
def contains (catalog : Catalog) (kind : TokenKind) : Bool :=
  (catalog.find? kind).isSome

namespace Entry

/-- A slot for a truth value. -/
def bool (name : String) : Slot := { name, kind := .bool }

/-- A slot for a number with a point. -/
def float (name : String) : Slot := { name, kind := .float }

/-- A slot for a number without a point. -/
def int (name : String) : Slot := { name, kind := .int }

/-- A slot for text. -/
def text (name : String) : Slot := { name, kind := .string }

/-- A thing of the world, of a kind of content. -/
def thing (name content : String) : Slot := { name, kind := .name (some content) }

/-- A variable that is read. -/
def known (name : String) : Slot := { name, kind := .variable }

/-- A variable that is written. -/
def output (name : String) : Slot := { name, kind := .variable, writes := true }

/-- A slot for any value. -/
def anything (name : String) : Slot := { name, kind := .any }

/-- An operation that gives one line. -/
def operation (name tag : String) (args : List Slot) : Instruction :=
  .operation { name, token := .keyword tag, args }

/-- A group of operations that give one line. -/
def group (name tag : String) (members : List (String × String × List Slot)) :
    Instruction :=
  .group
    { name
      token := .keyword tag
      members := members.map fun (member, memberTag, args) ↦
        { name := member, token := .keyword memberTag, args, group := some name } }

end Entry

open Entry in
/-- The instructions of the processor language. -/
def standard : Catalog where
  instructions :=
    [operation "write" "WRITE" [float "value", thing "cell" "Building", int "address"],
     operation "read" "READ" [output "store", thing "cell" "Building", int "address"],
     group "draw" "DRAW"
      [("clear", "SUB_CLEAR", [int "red", int "green", int "blue"]),
       ("color", "SUB_COLOR", [int "red", int "green", int "blue"]),
       ("stroke", "SUB_STROKE", [int "width"]),
       ("line", "SUB_LINE", [int "x1", int "y1", int "x2", int "y2"]),
       ("rect", "SUB_RECT", [int "x", int "y", int "w", int "h"]),
       ("lineRect", "SUB_LINERECT", [int "x", int "y", int "w", int "h"]),
       ("poly", "SUB_POLY", [int "x", int "y", int "sides", float "radius", float "rotation"]),
       ("linePoly", "SUB_LINEPOLY",
         [int "x", int "y", int "sides", float "radius", float "rotation"]),
       ("triangle", "SUB_TRIANGLE", [int "x1", int "y1", int "x2", int "y2", int "x3", int "y3"]),
       ("image", "SUB_IMAGE",
         [int "x", int "y", thing "image" "UnlockableContent", float "size", float "rotation"])],
     operation "drawflush" "DRAWFLUSH" [thing "display" "Building"],
     operation "print" "PRINT" [text "text"],
     operation "printflush" "PRINTFLUSH" [thing "msgblock" "Building"],
     operation "getlink" "GETLINK" [output "store", int "index"],
     group "control" "CONTROL"
      [("enabled", "SUB_ENABLED", [thing "target" "Building", bool "enabled"]),
       ("shoot", "SUB_SHOOT", [thing "turret" "Building", float "x", float "y", bool "shoot"]),
       ("shootp", "SUB_SHOOTP",
         [thing "turret" "Building", thing "target" "Healthc", bool "shoot"]),
       ("configure", "SUB_CONFIGURE", [thing "build" "Building", thing "config" "Content"]),
       ("color", "SUB_COLOR",
         [thing "illuminator" "Building", int "red", int "green", int "blue"])],
     operation "radar" "RADAR"
       [thing "turret" "Ranged", thing "prop1" "TargetType", thing "prop2" "TargetType",
        thing "prop3" "TargetType", bool "order", output "output"],
     operation "sensor" "SENSOR"
       [output "store", thing "block" "Building", thing "sense" "Sensable"],
     operation "set" "SET" [output "varname", anything "value"],
     operation "end" "END" [],
     operation "ubind" "UBIND" [thing "type" "UnitType"],
     group "ucontrol" "UCONTROL"
      [("idle", "SUB_IDLE", []),
       ("stop", "SUB_STOP", []),
       ("move", "SUB_MOVE", [float "x", float "y"]),
       ("approach", "SUB_APPROACH", [float "x", float "y", float "radius"]),
       ("boost", "SUB_BOOST", [bool "enable"]),
       ("pathfind", "SUB_PATHFIND", []),
       ("target", "SUB_TARGET", [float "x", float "y", bool "shoot"]),
       ("targetp", "SUB_TARGETP", [thing "target" "Healthc", bool "shoot"]),
       ("itemDrop", "SUB_ITEMDROP", [thing "to" "Building", int "amount"]),
       ("itemTake", "SUB_ITEMTAKE", [thing "from" "Building", thing "item" "Item", int "amount"]),
       ("payDrop", "SUB_PAYDROP", []),
       ("payTake", "SUB_PAYTAKE", [bool "takeUnits"]),
       ("mine", "SUB_MINE", [float "x", float "y"]),
       ("flag", "SUB_FLAG", [float "flag"]),
       ("build", "SUB_BUILD",
         [float "x", float "y", thing "block" "Block", int "rotation", known "config"]),
       ("getBlock", "SUB_GETBLOCK", [float "x", float "y", output "block", output "building"]),
       ("within", "SUB_WITHIN", [float "x", float "y", float "radius", output "result"])],
     operation "uradar" "URADAR"
       [thing "a" "Target", thing "b" "Target", thing "c" "Target", thing "sort" "SortType",
        bool "unused", bool "order", output "result"],
     group "ulocate" "ULOCATE"
      [("ore", "SUB_ORE", [thing "ore" "Item", output "outX", output "outY", output "outFound"]),
       ("building", "SUB_BUILDING",
         [thing "type" "BlockFlag", bool "enemy", output "outX", output "outY", output "outFound",
          output "outBuilding"]),
       ("spawn", "SUB_SPAWN", [output "outX", output "outY", output "outFound"])],
     operation "noop" "NOOP" [],
     .control .jump,
     .control .goto,
     .control .gosub,
     .control .compute,
     .control .leave]

end Catalog
end MlogAsm
