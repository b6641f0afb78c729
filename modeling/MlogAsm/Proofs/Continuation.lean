import MlogAsm.Proofs.LineBreak
import MlogAsm.Proofs.SurveyOutline

/-!
# Continuation

What is found in a text that continues another one. Every name of the second part stands for a line
further down and wins over a name of the first part, and a name that was declared in the first part
is declared once more in the second.
-/

namespace MlogAsm

/-- What a key stands for among the entries whose keys pass a check. -/
theorem lookup_filter_fst {α β : Type} [DecidableEq α] (p : α → Bool) (entries : List (α × β))
    (key : α) :
    (entries.filter fun entry ↦ p entry.1).lookup key =
      if p key = true then entries.lookup key else none := by
  induction entries with
  | nil => simp
  | cons entry entries ih =>
    obtain ⟨other, value⟩ := entry
    by_cases hkey : key = other
    · subst hkey
      by_cases hp : p key = true <;> simp [hp, ih]
    · have hne : (key == other) = false := beq_eq_false_iff_ne.mpr hkey
      by_cases hp : p other = true <;> simp [List.lookup_cons, hp, ih, hne]

namespace SymbolTable

/-- The table with every name standing for a line further down. -/
def moved (k : Int) (t : SymbolTable) : SymbolTable :=
  ⟨t.entries.map fun entry ↦ (entry.1, k + entry.2)⟩

/-- The names of two tables, of which those of the second one win. -/
def overriddenBy (t u : SymbolTable) : SymbolTable :=
  ⟨u.entries ++ t.entries.filter fun entry ↦ !u.contains entry.1⟩

private theorem contains_insert (t : SymbolTable) (name other : String) (index : Int) :
    (t.insert name index).contains other = (other == name || t.contains other) := by
  unfold contains
  rw [get?_insert]
  by_cases h : other = name <;> simp [h]

private theorem moved_insert (k : Int) (t : SymbolTable) (name : String) (index : Int) :
    (t.insert name index).moved k = (t.moved k).insert name (k + index) := by
  simp [moved, insert, List.filter_map, Function.comp_def]

theorem get?_moved (k : Int) (t : SymbolTable) (name : String) :
    (t.moved k).get? name = (t.get? name).map (k + ·) := by
  unfold get? moved
  induction t.entries with
  | nil => rfl
  | cons entry entries ih =>
    rw [List.map_cons, List.lookup_cons, List.lookup_cons, ih]
    split <;> rfl

@[simp] theorem contains_moved (k : Int) (t : SymbolTable) (name : String) :
    (t.moved k).contains name = t.contains name := by
  simp [contains, get?_moved]

/-- A name that is declared in the second table wins at once. -/
private theorem overriddenBy_insert (t u : SymbolTable) (name : String) (index : Int) :
    t.overriddenBy (u.insert name index) = (t.overriddenBy u).insert name index := by
  unfold overriddenBy
  have hfilter (entries : List (String × Int)) :
      (entries.filter fun entry ↦ !(u.insert name index).contains entry.1) =
        (entries.filter fun entry ↦ !u.contains entry.1).filter (·.1 != name) := by
    rw [List.filter_filter]
    congr 1
    funext entry
    rw [contains_insert, Bool.not_or]
    rfl
  rw [hfilter]
  simp [insert]

theorem get?_overriddenBy (t u : SymbolTable) (name : String) :
    (t.overriddenBy u).get? name = (u.get? name).or (t.get? name) := by
  have hfilter := lookup_filter_fst (fun name ↦ !u.contains name) t.entries name
  unfold overriddenBy
  rw [get?, List.lookup_append, hfilter, contains]
  change (u.get? name).or _ = _
  cases hu : u.get? name with
  | none => rfl
  | some index => rfl

@[simp] theorem contains_overriddenBy (t u : SymbolTable) (name : String) :
    (t.overriddenBy u).contains name = (t.contains name || u.contains name) := by
  unfold contains
  rw [get?_overriddenBy, Option.isSome_or, Bool.or_comm]

@[simp] theorem overriddenBy_empty (t : SymbolTable) : t.overriddenBy empty = t := by
  simp [overriddenBy, contains, empty, get?]

@[simp] theorem moved_empty (k : Int) : empty.moved k = empty :=
  rfl

end SymbolTable

/-- A redeclaration some lines further down. -/
def Redeclaration.shift (lines : Nat) (r : Redeclaration) : Redeclaration :=
  { r with line := r.line + lines }

namespace Symbols

/-- What is found in a text that continues another one: the symbols of both parts, with the
redeclarations that are met in the second. -/
def continuedBy (s t : Symbols) (warnings : List Redeclaration) : Symbols where
  labels := s.labels.overriddenBy (t.labels.moved s.size)
  routines := s.routines.overriddenBy (t.routines.moved s.size)
  vars := s.vars ++ t.vars.filter fun name ↦ !s.vars.contains name
  size := s.size + t.size
  warnings := s.warnings ++ warnings

theorem table_continuedBy (s t : Symbols) (warnings : List Redeclaration) (what : Declared) :
    (s.continuedBy t warnings).table what =
      (s.table what).overriddenBy ((t.table what).moved s.size) := by
  cases what <;> rfl

@[simp] theorem continuedBy_empty (s : Symbols) : s.continuedBy .empty [] = s := by
  simp [continuedBy, empty]

private theorem continuedBy_addLines (s t : Symbols) (warnings : List Redeclaration) (n : Int) :
    (s.continuedBy t warnings).addLines n = s.continuedBy (t.addLines n) warnings := by
  simp [continuedBy, addLines, Int.add_assoc]

private theorem continuedBy_addVariable (s t : Symbols) (warnings : List Redeclaration)
    (name : String) :
    (s.continuedBy t warnings).addVariable name = s.continuedBy (t.addVariable name) warnings := by
  unfold addVariable continuedBy
  by_cases ht : name ∈ t.vars
  · by_cases hs : name ∈ s.vars <;> simp [ht, hs]
  · by_cases hs : name ∈ s.vars <;> simp [ht, hs]

private theorem continuedBy_addTargets (s t : Symbols) (warnings : List Redeclaration)
    (lines chars : Nat) (ts : List Token) :
    (s.continuedBy t warnings).addTargets (ts.map (Token.shift lines chars)) =
      s.continuedBy (t.addTargets ts) warnings := by
  induction ts generalizing t with
  | nil => rfl
  | cons u ts ih =>
    rw [List.map_cons, addTargets_cons, addTargets_cons, ← ih]
    change (if u.kind = .name then (s.continuedBy t warnings).addVariable u.value else _).addTargets
      _ = _
    split
    · rw [continuedBy_addVariable]
    · rfl

private theorem contains_table_declare (s : Symbols) (what : Declared) (name : String) (line : Nat)
    (what' : Declared) (name' : String) :
    ((s.declare what name line).table what').contains name' = true ↔
      (what', name') = (what, name) ∨ (s.table what').contains name' = true := by
  unfold SymbolTable.contains
  rw [get?_table_declare, Prod.mk.injEq]
  by_cases h : what' = what ∧ name' = name <;> simp [h]

theorem warnings_declare (s : Symbols) (what : Declared) (name : String) (line : Nat) :
    (s.declare what name line).warnings =
      s.warnings ++ if (s.table what).contains name = true then [⟨what, name, line⟩] else [] := by
  unfold declare
  by_cases h : (s.table what).contains name = true <;> cases what <;> simp [h]

/-- A declaration in the second part is one more redeclaration if the name is known in either
part. -/
private theorem continuedBy_declare (s t : Symbols) (warnings : List Redeclaration)
    (what : Declared) (name : String) (line line' : Nat) :
    (s.continuedBy t warnings).declare what name line =
      s.continuedBy (t.declare what name line')
        (warnings ++
          if (s.table what).contains name = true ∨ (t.table what).contains name = true then
            [⟨what, name, line⟩] else []) := by
  have hknown : ((s.continuedBy t warnings).table what).contains name =
      ((s.table what).contains name || (t.table what).contains name) := by
    simp [table_continuedBy]
  unfold declare
  rw [hknown]
  cases what with
  | label =>
    simp only [continuedBy, SymbolTable.moved_insert, SymbolTable.overriddenBy_insert,
      Bool.or_eq_true]
    split <;> simp
  | routine =>
    simp only [continuedBy, SymbolTable.moved_insert, SymbolTable.overriddenBy_insert,
      Bool.or_eq_true]
    split <;> simp

end Symbols

namespace Element

/-- What an element declares. -/
def declaration? : Element → Option (Declared × String)
  | declare what name _ => some (what, name)
  | close => none
  | clause _ _ => none

/-- The names that elements declare, in order. -/
def declared (es : List Element) : List (Declared × String) :=
  es.filterMap declaration?

/-- The redeclaration that an element is, behind others. -/
def redeclaration? (earlier : List Element) : Element → Option Redeclaration
  | declare what name line =>
    if (what, name) ∈ declared earlier then some ⟨what, name, line⟩ else none
  | close => none
  | clause _ _ => none

/-- The redeclarations among elements that stand behind others, in order. -/
def redeclared (earlier : List Element) : List Element → List Redeclaration
  | [] => []
  | e :: es => (e.redeclaration? earlier).toList ++ redeclared (e :: earlier) es

end Element

private theorem Instruction.arranged?_map_shift (i : Instruction) (lines chars : Nat)
    (operands : List Token) :
    i.arranged? (operands.map (Token.shift lines chars)) =
      (i.arranged? operands).map fun x ↦ (x.1, x.2.map (Token.shift lines chars)) := by
  cases i with
  | operation op => rfl
  | group g =>
    cases operands with
    | nil => rfl
    | cons pick operands =>
      simp only [arranged?, List.map_cons, Option.map_map]
      rfl
  | control c => rfl

theorem Slot.targets_map_shift (slots : List Slot) (lines chars : Nat) (args : List Token) :
    targets slots (args.map (Token.shift lines chars)) =
      (targets slots args).map (Token.shift lines chars) := by
  unfold targets
  rw [List.zip_map_right, List.filter_map, List.map_map, List.map_map]
  rfl

namespace Survey.Gathers

variable {catalog : Catalog} {s t s' t' : Symbols} {es es' : List Element}

theorem append (h : Gathers catalog s es t) (h' : Gathers catalog t es' t') :
    Gathers catalog s (es ++ es') t' := by
  induction h with
  | done => exact h'
  | declare _ ih => exact .declare (ih h')
  | close _ ih => exact .close (ih h')
  | clause hl ha ht hd _ ih => exact .clause hl ha ht hd (ih h')

/-- The names of a table are those that were declared. -/
theorem contains_table (h : Gathers catalog s es t) (what : Declared) (name : String) :
    (t.table what).contains name = true ↔
      (s.table what).contains name = true ∨ (what, name) ∈ Element.declared es := by
  induction h with
  | done => simp [Element.declared]
  | declare _ ih =>
    rw [ih, Symbols.contains_table_declare, or_assoc, or_left_comm, ← List.mem_cons]
    rfl
  | close _ ih => exact ih
  | clause _ _ _ _ _ ih =>
    rw [Symbols.table_addTargets, Symbols.table_addLines] at ih
    exact ih

/-- The redeclarations that are found are those among the elements. -/
theorem warnings_eq (h : Gathers catalog s es t) {earlier : List Element}
    (he : ∀ what name,
      (s.table what).contains name = true ↔ (what, name) ∈ Element.declared earlier) :
    t.warnings = s.warnings ++ Element.redeclared earlier es := by
  induction h generalizing earlier with
  | done => rw [Element.redeclared, List.append_nil]
  | @declare s t what name line es _ ih =>
    have he' : ∀ what' name', ((s.declare what name line).table what').contains name' = true ↔
        (what', name') ∈ Element.declared (.declare what name line :: earlier) := by
      intro what' name'
      rw [Symbols.contains_table_declare, he, ← List.mem_cons]
      rfl
    rw [ih he', Symbols.warnings_declare, Element.redeclared, Element.redeclaration?,
      ← List.append_assoc]
    simp only [he]
    split <;> rfl
  | close _ ih => exact ih he
  | @clause s t lead operands args slots instruction es _ _ _ _ _ ih =>
    have he' : ∀ what name,
        (((s.addLines instruction.emits).addTargets (Slot.targets slots args)).table what).contains
          name = true ↔ (what, name) ∈ Element.declared (.clause lead operands :: earlier) := by
      intro what name
      rw [Symbols.table_addTargets, Symbols.table_addLines]
      exact he what name
    rw [ih he', Symbols.addTargets_eq]
    rfl

/-- What is found in elements is found in them further down too, behind what was found before. A
name counts as declared if it was declared before. -/
theorem continuedBy (h : Gathers catalog t es t') (lines chars : Nat)
    {warnings : List Redeclaration} {earlier : List Element}
    (he : ∀ what name,
      (s.table what).contains name = true ∨ (t.table what).contains name = true ↔
        (what, name) ∈ Element.declared earlier) :
    Gathers catalog (s.continuedBy t warnings) (es.map (Element.shift lines chars))
      (s.continuedBy t'
        (warnings ++ (Element.redeclared earlier es).map (Redeclaration.shift lines))) := by
  induction h generalizing warnings earlier with
  | done =>
    rw [Element.redeclared]
    simp only [List.map_nil, List.append_nil]
    exact .done
  | @declare t t' what name line es _ ih =>
    have he' : ∀ what' name', (s.table what').contains name' = true ∨
        ((t.declare what name line).table what').contains name' = true ↔
          (what', name') ∈ Element.declared (.declare what name line :: earlier) := by
      intro what' name'
      rw [Symbols.contains_table_declare, or_left_comm, he, ← List.mem_cons]
      rfl
    refine .declare ?_
    rw [Symbols.continuedBy_declare s t warnings what name _ line, Element.redeclared,
      Element.redeclaration?]
    simp only [he]
    have h := @ih (warnings ++
      if (what, name) ∈ Element.declared earlier then [⟨what, name, line + lines⟩] else []) _ he'
    rw [List.append_assoc] at h
    split
    · next hd => simpa [hd, Redeclaration.shift] using h
    · next hd => simpa [hd] using h
  | close _ ih => exact .close (ih he)
  | @clause t t' lead operands args slots instruction es hl ha ht hd _ ih =>
    have ha' : instruction.arranged? (operands.map (Token.shift lines chars)) =
        some (slots, args.map (Token.shift lines chars)) := by
      rw [Instruction.arranged?_map_shift, ha]
      rfl
    refine .clause hl ha' ?_ ?_ ?_
    · rw [Slot.targets_map_shift, List.forall_mem_map]
      exact ht
    · rw [← List.map_drop, List.forall_mem_map]
      exact hd
    · rw [Symbols.continuedBy_addLines, Slot.targets_map_shift, Symbols.continuedBy_addTargets]
      refine ih fun what name ↦ ?_
      rw [Symbols.table_addTargets, Symbols.table_addLines]
      exact he what name

end Survey.Gathers
end MlogAsm
