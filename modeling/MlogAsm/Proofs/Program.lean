import MlogAsm.Proofs.Grammar

/-!
# Programs

What a program means for its code, said of the program alone: which statements can be resolved,
where names stand, and the lines. Nothing here looks at a text or at tables.
-/

namespace MlogAsm

/-- A statement in its place. -/
structure Placed where
  /-- The routine that is open. -/
  routine : Option String
  /-- The last declaration since the statement before, as a note shows it. -/
  note : Option String
  statement : Statement
  deriving DecidableEq, Repr

namespace Program

/-- The statements of a program in their places, if a routine is open and a declaration was met
before. -/
def placedFrom : (routine note : Option String) → Program → List Placed
  | _, _, [] => []
  | routine, _, .declare .label name :: p => placedFrom routine (some ("label " ++ name)) p
  | _, _, .declare .routine name :: p => placedFrom (some name) (some ("subroutine " ++ name)) p
  | _, note, .close :: p => placedFrom none note p
  | routine, note, .statement s :: p => ⟨routine, note, s⟩ :: placedFrom routine none p

/-- The statements of a program in their places. -/
def placed (p : Program) : List Placed :=
  placedFrom none none p

/-- The number of statements before the last declaration of a name. -/
def entryIndex? (what : Declared) (name : String) : Program → Option Nat
  | [] => none
  | .statement _ :: p => (entryIndex? what name p).map (· + 1)
  | item :: p => (entryIndex? what name p).or (if item = .declare what name then some 0 else none)

end Program

namespace Statement

/-- The number of lines that a statement gives. -/
def size : Statement → Nat
  | gosub _ => 2
  | _ => 1

/-- The number of lines that some statements give. -/
def total (ss : List Statement) : Nat :=
  ss.foldr (fun s n ↦ s.size + n) 0

/-- The operands of a statement. -/
def operands : Statement → List Token
  | plain _ _ operands | jumpIf _ _ operands => operands
  | _ => []

/-- A statement can be resolved in a program while a routine is open, or none. -/
def Resolved (p : Program) (routine : Option String) : Statement → Prop
  | jumpAlways label | jumpIf label _ _ | goto label => p.Declares .label label
  | gosub callee => p.Declares .routine callee ∧ routine ≠ some callee
  | leave => routine ≠ none
  | plain _ _ _ => True

/-- The words of the lines of a statement. Names stand for the lines that `index` gives them,
`routine` is open, and there are `before` lines already. -/
def words (index : Declared → String → Nat) (routine : Option String) (before : Nat) :
    Statement → List (List String)
  | plain words _ operands => [words ++ operands.map Token.value]
  | jumpAlways label | goto label => [["jump", toString (index .label label), "always"]]
  | jumpIf label operator [a] =>
    [["jump", toString (index .label label), operator, a.value, "false"]]
  | jumpIf label operator operands =>
    ["jump" :: toString (index .label label) :: operator :: operands.map Token.value]
  | gosub callee =>
    [["set", callee ++ "Return", toString (before + 2)],
     ["jump", toString (index .routine callee), "always"]]
  | leave => [["set", "@counter", routine.getD "" ++ "Return"]]

/-- What a debug comment says about a statement. -/
def comment? (routine : Option String) : Statement → Option String
  | jumpAlways label | jumpIf label _ _ => some ("jump to " ++ label)
  | goto label => some ("goto " ++ label)
  | gosub callee => some ("gosub " ++ callee)
  | leave => some ("return from " ++ routine.getD "")
  | plain _ _ _ => none

end Statement

namespace Program

/-- The number of lines of the first statements of a program. -/
def offset (p : Program) (i : Nat) : Nat :=
  Statement.total (p.statements.take i)

/-- The number of lines before the last declaration of a name, or zero if there is none. -/
def lineIndex (p : Program) (what : Declared) (name : String) : Nat :=
  ((p.entryIndex? what name).map p.offset).getD 0

/-- Every statement of a program can be resolved. -/
def Resolved (p : Program) : Prop :=
  ∀ x ∈ p.placed, x.statement.Resolved p x.routine

end Program

/-- Adds a text to the last of some lines. -/
def appendLast (suffix : String) : List String → List String
  | [] => []
  | [line] => [line ++ suffix]
  | line :: lines => line :: appendLast suffix lines

namespace Placed

/-- The debug comments on the last line of a statement. -/
def comments (x : Placed) : List String :=
  (x.statement.comment? x.routine).toList ++ x.note.toList

/-- The lines of a statement in its place. -/
def lines (index : Declared → String → Nat) (debug : Bool) (before : Nat) (x : Placed) :
    List String :=
  let plain := (x.statement.words index x.routine before).map " ".intercalate
  if debug then appendLast (String.join (x.comments.map (" # " ++ ·))) plain else plain

/-- The lines of statements in their places. -/
def linesFrom (index : Declared → String → Nat) (debug : Bool) : Nat → List Placed → List String
  | _, [] => []
  | before, x :: xs =>
    x.lines index debug before ++ linesFrom index debug (before + x.statement.size) xs

end Placed

/-- The lines of a program, with or without debug comments. -/
def Program.lines (debug : Bool) (p : Program) : List String :=
  Placed.linesFrom p.lineIndex debug 0 p.placed

example : Program.lines true
    [.statement (.gosub "r"), .statement (.goto "x"), .declare .routine "r", .statement .leave,
      .close, .declare .label "x"] =
    ["set rReturn 2", "jump 3 always # gosub r", "jump 4 always # goto x",
      "set @counter rReturn # return from r # subroutine r"] := by
  decide +kernel

namespace Statement

theorem length_words {index : Declared → String → Nat} (s : Statement) (routine : Option String)
    (before : Nat) :
    (s.words index routine before).length = s.size := by
  cases s with
  | jumpIf label operator operands => rcases operands with _ | ⟨a, _ | ⟨b, rest⟩⟩ <;> rfl
  | _ => rfl

/-- A jump on a comparison begins with its index and its operator. -/
theorem exists_words_jumpIf (index : Declared → String → Nat) (routine : Option String)
    (before : Nat) (label operator : String) (operands : List Token) :
    ∃ rest, (jumpIf label operator operands).words index routine before =
      ["jump" :: toString (index .label label) :: operator :: rest] := by
  rcases operands with _ | ⟨a, _ | ⟨b, others⟩⟩
  · exact ⟨_, rfl⟩
  · exact ⟨_, rfl⟩
  · exact ⟨_, rfl⟩

theorem size_bounds (s : Statement) : 1 ≤ s.size ∧ s.size ≤ 2 := by
  cases s <;> simp [size]

@[simp] theorem total_nil : total [] = 0 := rfl

@[simp] theorem total_cons (s : Statement) (ss : List Statement) :
    total (s :: ss) = s.size + total ss :=
  rfl

theorem total_append (ss ts : List Statement) : total (ss ++ ts) = total ss + total ts := by
  induction ss with
  | nil => simp
  | cons s ss ih => simp [ih, Nat.add_assoc]

end Statement

namespace Placed

variable {index : Declared → String → Nat} {debug : Bool}

private theorem length_lines_false (before : Nat) (x : Placed) :
    (x.lines index false before).length = x.statement.size := by
  simp [lines, Statement.length_words]

theorem length_linesFrom (before : Nat) (xs : List Placed) :
    (linesFrom index false before xs).length = Statement.total (xs.map statement) := by
  induction xs generalizing before with
  | nil => rfl
  | cons x xs ih => simp [linesFrom, length_lines_false, ih]

theorem linesFrom_append (before : Nat) (xs ys : List Placed) :
    linesFrom index debug before (xs ++ ys) =
      linesFrom index debug before xs ++
        linesFrom index debug (before + Statement.total (xs.map statement)) ys := by
  induction xs generalizing before with
  | nil => simp [linesFrom]
  | cons x xs ih => simp [linesFrom, ih, Nat.add_assoc]

end Placed

namespace Program

variable {p : Program} {what : Declared} {name : String}

@[simp] theorem statements_declare (what : Declared) (name : String) (p : Program) :
    statements (.declare what name :: p) = statements p :=
  rfl

@[simp] theorem statements_close (p : Program) : statements (.close :: p) = statements p :=
  rfl

@[simp] theorem statements_statement (s : Statement) (p : Program) :
    statements (.statement s :: p) = s :: statements p :=
  rfl

@[simp] theorem offset_zero (p : Program) : p.offset 0 = 0 := by
  simp [offset]

@[simp] theorem offset_declare (what : Declared) (name : String) (p : Program) :
    offset (.declare what name :: p) = offset p :=
  rfl

@[simp] theorem offset_close (p : Program) : offset (.close :: p) = offset p :=
  rfl

@[simp] theorem offset_statement (s : Statement) (p : Program) (i : Nat) :
    offset (.statement s :: p) (i + 1) = s.size + p.offset i := by
  simp [offset]

@[simp] theorem entryIndex?_declare (what : Declared) (name : String) (what' : Declared)
    (name' : String) (p : Program) :
    entryIndex? what name (.declare what' name' :: p) =
      (entryIndex? what name p).or (if what' = what ∧ name' = name then some 0 else none) := by
  simp [entryIndex?]

@[simp] theorem entryIndex?_close (what : Declared) (name : String) (p : Program) :
    entryIndex? what name (.close :: p) = entryIndex? what name p := by
  simp [entryIndex?]

@[simp] theorem entryIndex?_statement (what : Declared) (name : String) (s : Statement)
    (p : Program) :
    entryIndex? what name (.statement s :: p) = (entryIndex? what name p).map (· + 1) := by
  simp [entryIndex?]

theorem mem_statements {s : Statement} : s ∈ p.statements ↔ .statement s ∈ p := by
  simp only [statements, List.mem_filterMap]
  constructor
  · rintro ⟨item, hm, h⟩
    cases item with
    | declare what name => cases h
    | close => cases h
    | statement s' =>
      cases h
      exact hm
  · intro hm
    exact ⟨_, hm, rfl⟩

/-- A part of a program is written as an element of its text. -/
theorem exists_element_of_mem {catalog : Catalog} {known : String → Prop} {es : List Element}
    (hp : List.Forall₂ (Item.Written catalog known) p es) {item : Item} (h : item ∈ p) :
    ∃ e ∈ es, item.Written catalog known e := by
  induction hp with
  | nil => cases h
  | cons hw _ ih =>
    rcases List.mem_cons.mp h with rfl | h
    · exact ⟨_, List.mem_cons_self, hw⟩
    · obtain ⟨e, he, hw⟩ := ih h
      exact ⟨e, List.mem_cons_of_mem _ he, hw⟩

/-- A name has a place exactly if it is declared. -/
theorem isSome_entryIndex?_iff :
    (p.entryIndex? what name).isSome = true ↔ p.Declares what name := by
  induction p with
  | nil => simp [entryIndex?, Declares]
  | cons item p ih =>
    unfold Declares at ih ⊢
    cases item with
    | declare what' name' =>
      by_cases hd : what' = what ∧ name' = name
      · obtain ⟨rfl, rfl⟩ := hd
        simp
      · have hd' : ¬ (what = what' ∧ name = name') := fun h ↦ hd ⟨h.1.symm, h.2.symm⟩
        simp [hd, hd', ih]
    | close => simp [ih]
    | statement s => simp [ih]

/-- A name that is declared stands for a line. -/
theorem exists_entryIndex? (h : p.Declares what name) :
    ∃ i, p.entryIndex? what name = some i ∧ p.lineIndex what name = p.offset i := by
  obtain ⟨i, hi⟩ := Option.isSome_iff_exists.mp (isSome_entryIndex?_iff.mpr h)
  exact ⟨i, hi, by simp [lineIndex, hi]⟩

theorem map_statement_placedFrom (routine note : Option String) (p : Program) :
    (placedFrom routine note p).map Placed.statement = p.statements := by
  fun_induction placedFrom routine note p with
  | case1 => rfl
  | case2 routine note name p ih => exact ih
  | case3 routine note name p ih => exact ih
  | case4 routine note p ih => exact ih
  | case5 routine note s p ih => simp [ih]

/-- A routine that is open was declared. -/
theorem declares_of_mem_placedFrom {routine note : Option String} {x : Placed} {r : String}
    (hx : x ∈ placedFrom routine note p) (hr : x.routine = some r) :
    routine = some r ∨ p.Declares .routine r := by
  fun_induction placedFrom routine note p with
  | case1 => cases hx
  | case2 routine note name p ih => exact (ih hx).imp_right (List.mem_cons_of_mem _)
  | case3 routine note name p ih =>
    rcases ih hx with h | h
    · cases h
      exact .inr List.mem_cons_self
    · exact .inr (List.mem_cons_of_mem _ h)
  | case4 routine note p ih =>
    rcases ih hx with h | h
    · cases h
    · exact .inr (List.mem_cons_of_mem _ h)
  | case5 routine note s p ih =>
    rcases List.mem_cons.mp hx with rfl | hx
    · exact .inl hr
    · exact (ih hx).imp_right (List.mem_cons_of_mem _)

theorem mem_statements_of_getElem? {i : Nat} {x : Placed} (hx : p.placed[i]? = some x) :
    x.statement ∈ p.statements := by
  rw [← map_statement_placedFrom none none p]
  exact List.mem_map_of_mem (List.mem_of_getElem? hx)

theorem offset_eq (p : Program) (i : Nat) :
    p.offset i = Statement.total ((p.placed.take i).map Placed.statement) := by
  rw [offset, ← map_statement_placedFrom none none p, ← List.map_take]
  rfl

theorem offset_succ {i : Nat} {x : Placed} (hx : p.placed[i]? = some x) :
    p.offset (i + 1) = p.offset i + x.statement.size := by
  rw [offset_eq, offset_eq, List.take_add_one, hx, List.map_append, Statement.total_append]
  rfl

theorem length_linesFrom_take (p : Program) (i : Nat) :
    (Placed.linesFrom p.lineIndex false 0 (p.placed.take i)).length = p.offset i := by
  rw [Placed.length_linesFrom, offset_eq]

/-- The first lines of a program are those of its first statements. -/
theorem take_lines (p : Program) (i : Nat) :
    (p.lines false).take (p.offset i) = Placed.linesFrom p.lineIndex false 0 (p.placed.take i) := by
  rw [lines]
  conv_lhs => rw [← List.take_append_drop i p.placed]
  rw [Placed.linesFrom_append, ← length_linesFrom_take, List.take_left]

/-- The lines of a statement come after those of the statements before it. -/
theorem getElem?_lines {i k : Nat} {x : Placed} (hx : p.placed[i]? = some x)
    (hk : k < x.statement.size) :
    (p.lines false)[p.offset i + k]? =
      ((x.statement.words p.lineIndex x.routine (p.offset i))[k]?).map " ".intercalate := by
  have hsplit : p.placed = p.placed.take i ++ x :: p.placed.drop (i + 1) := by
    obtain ⟨hi, rfl⟩ := List.getElem?_eq_some_iff.mp hx
    rw [← List.drop_eq_getElem_cons hi, List.take_append_drop]
  have hlines : p.lines false = Placed.linesFrom p.lineIndex false 0 (p.placed.take i) ++
      (x.lines p.lineIndex false (p.offset i) ++
        Placed.linesFrom p.lineIndex false (p.offset i + x.statement.size)
          (p.placed.drop (i + 1))) := by
    rw [lines]
    conv_lhs => rw [hsplit]
    rw [Placed.linesFrom_append, Placed.linesFrom, Nat.zero_add, ← offset_eq]
  rw [hlines, List.getElem?_append_right (by rw [length_linesFrom_take]; omega),
    length_linesFrom_take, Nat.add_sub_cancel_left,
    List.getElem?_append_left (by rwa [Placed.length_lines_false]), Placed.lines]
  exact List.getElem?_map

/-- There are no lines behind those of the last statement. -/
theorem getElem?_lines_of_none {i : Nat} (hx : p.placed[i]? = none) :
    (p.lines false)[p.offset i]? = none := by
  have hall : p.placed.take i = p.placed := List.take_of_length_le (List.getElem?_eq_none_iff.mp hx)
  rw [List.getElem?_eq_none_iff, ← length_linesFrom_take, hall]
  exact Nat.le_refl _

end Program

end MlogAsm
