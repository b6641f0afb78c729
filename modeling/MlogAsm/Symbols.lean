import MlogAsm.Fault

/-!
# Symbols

What a program declares: labels and routines with the index of the line they stand for, and the
variables it writes.
-/

namespace MlogAsm

/-- A finite map from names to line indices. -/
structure SymbolTable where
  /-- The entries, each name once. -/
  entries : List (String × Int)
  deriving DecidableEq, Repr

namespace SymbolTable

/-- The table without entries. -/
def empty : SymbolTable := ⟨[]⟩

/-- The index of a name. -/
def get? (t : SymbolTable) (name : String) : Option Int :=
  t.entries.lookup name

/-- The name has an index. -/
def contains (t : SymbolTable) (name : String) : Bool :=
  (t.get? name).isSome

/-- Gives a name an index, in place of the one it had. -/
def insert (t : SymbolTable) (name : String) (index : Int) : SymbolTable :=
  ⟨(name, index) :: t.entries.filter (·.1 != name)⟩

/-- The table with given entries, of which later ones win. -/
def ofList (entries : List (String × Int)) : SymbolTable :=
  entries.foldl (fun t (name, index) ↦ t.insert name index) empty

/-- The number of names. -/
def size (t : SymbolTable) : Nat := t.entries.length

/-- The entries in the order of their names. -/
def toSortedList (t : SymbolTable) : List (String × Int) :=
  t.entries.mergeSort fun a b ↦ !decide (b.1 < a.1)

@[simp] theorem get?_empty (name : String) : empty.get? name = none := rfl

/-- Only the name that is given an index changes. -/
theorem get?_insert (t : SymbolTable) (name other : String) (index : Int) :
    (t.insert name index).get? other = if other = name then some index else t.get? other := by
  unfold insert get?
  by_cases h : other = name
  · simp [h]
  · have hn : (other == name) = false := by simpa using h
    simp only [List.lookup_cons, hn, if_neg h]
    induction t.entries with
    | nil => rfl
    | cons entry entries ih =>
      obtain ⟨key, value⟩ := entry
      by_cases he : key = name
      · simp [List.lookup_cons, he, ih, hn]
      · simp [List.lookup_cons, he, ih]

end SymbolTable

/-- The two things that can be declared. -/
inductive Declared where
  | label
  | routine
  deriving DecidableEq, Repr

/-- A name that is declared once more as the same thing. The later declaration counts. -/
structure Redeclaration where
  what : Declared
  name : String
  line : Nat
  deriving DecidableEq, Repr

namespace Redeclaration

/-- The wording of the warning. -/
def message (r : Redeclaration) : String :=
  (match r.what with
    | .label => "label "
    | .routine => "routine ") ++ r.name ++ " redeclared; the later one wins"

/-- The warning about a file. -/
def diagnostic (path : String) (r : Redeclaration) : Diagnostic :=
  ⟨.warning, r.message, path, some r.line, none⟩

end Redeclaration

/-- What a program declares. -/
structure Symbols where
  labels : SymbolTable
  routines : SymbolTable
  /-- The variables in the order of their first writing. -/
  vars : List String
  /-- The number of lines of the program. -/
  size : Int
  /-- The redeclarations in order. -/
  warnings : List Redeclaration
  deriving DecidableEq, Repr

namespace Symbols

/-- Nothing declared yet. -/
def empty : Symbols := ⟨.empty, .empty, [], 0, []⟩

/-- Makes a name a variable. -/
def addVariable (s : Symbols) (name : String) : Symbols :=
  if s.vars.contains name then s else { s with vars := s.vars ++ [name] }

/-- The table of the labels or of the routines. -/
def table (s : Symbols) : Declared → SymbolTable
  | .label => s.labels
  | .routine => s.routines

/-- Declares a name to stand for the next line of the program. -/
def declare (s : Symbols) (what : Declared) (name : String) (line : Nat) : Symbols :=
  let warnings :=
    if (s.table what).contains name then s.warnings ++ [⟨what, name, line⟩] else s.warnings
  match what with
  | .label => { s with labels := s.labels.insert name s.size, warnings }
  | .routine => { s with routines := s.routines.insert name s.size, warnings }

/-- The index of a label. -/
def labelIndex (s : Symbols) (name : String) : Except Cause Int :=
  match s.labels.get? name with
  | some index => .ok index
  | none =>
    if s.routines.contains name then .error (.labelIsRoutine name) else .error (.unknownLabel name)

/-- The index of a routine. -/
def routineIndex (s : Symbols) (name : String) : Except Cause Int :=
  match s.routines.get? name with
  | some index => .ok index
  | none =>
    if s.labels.contains name then .error (.routineIsLabel name) else .error (.unknownRoutine name)

/-- A name that is not found is no stray character. -/
theorem category_of_labelIndex {s : Symbols} {name : String} {cause : Cause}
    (h : s.labelIndex name = .error cause) : cause.category ≠ .lexical := by
  unfold labelIndex at h
  split at h
  · cases h
  · split at h <;> cases h <;> rintro ⟨⟩

theorem category_of_routineIndex {s : Symbols} {name : String} {cause : Cause}
    (h : s.routineIndex name = .error cause) : cause.category ≠ .lexical := by
  unfold routineIndex at h
  split at h
  · cases h
  · split at h <;> cases h <;> rintro ⟨⟩

end Symbols

/-- The variable that holds where a routine returns to. -/
def returnVariable (routine : String) : String :=
  routine ++ "Return"

end MlogAsm
