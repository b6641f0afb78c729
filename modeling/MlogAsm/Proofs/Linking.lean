import MlogAsm.Proofs.Language
import MlogAsm.Proofs.ProgramJoin
import MlogAsm.Proofs.SurveyLines

/-!
# Linking

Two texts that can be assembled can be assembled as one, if the first leaves no routine open and no
name is declared in both. The code of the second part is then moved as a whole: what it jumps to and
where its calls return to is further down by the lines of the first.
-/

namespace MlogAsm

/-- An instruction of a program that begins `k` lines further down. -/
def CodeInstruction.relocate (k : Int) : CodeInstruction → CodeInstruction
  | words ws => words ws
  | jump target condition => jump (k + target) condition
  | storeReturn routine address => storeReturn routine (k + address)
  | goBack routine => goBack routine

/-- A line of a program that begins `k` lines further down. -/
def CodeLine.relocate (k : Int) (line : CodeLine) : CodeLine :=
  { line with instruction := line.instruction.relocate k }

@[simp] theorem CodeLine.relocate_zero : relocate 0 = id := by
  funext line
  obtain ⟨instruction, notes⟩ := line
  cases instruction <;> simp [relocate, CodeInstruction.relocate]

/-- Every name of some symbols stands for a line `k` lines further down in others. -/
def Symbols.Relocates (k : Int) (s t : Symbols) : Prop :=
  ∀ what name index, (s.table what).get? name = some index →
    (t.table what).get? name = some (k + index)

section Symbols

variable {s t : Symbols} {warnings : List Redeclaration}

/-- The names of the second part of a text are found behind the lines of the first. -/
theorem Symbols.relocates_second : t.Relocates s.size (s.continuedBy t warnings) := by
  intro what name index h
  rw [table_continuedBy, SymbolTable.get?_overriddenBy, SymbolTable.get?_moved, h]
  rfl

/-- The names of the first part stay where they are, unless they are declared once more. -/
theorem Symbols.relocates_first
    (h : ∀ what name, (s.table what).contains name = true →
      ¬ (t.table what).contains name = true) :
    s.Relocates 0 (s.continuedBy t warnings) := by
  intro what name index hs
  have ht : (t.table what).get? name = none := by
    have hc := h what name (by simp [SymbolTable.contains, hs])
    simpa [SymbolTable.contains] using hc
  rw [table_continuedBy, SymbolTable.get?_overriddenBy, SymbolTable.get?_moved, ht, hs,
    Int.zero_add]
  rfl

end Symbols

section Code

variable {k : Nat} {s t : Symbols}

private theorem Statement.code?_shift (lines chars : Nat) (ctx : Context) (st : Statement) :
    (st.shift lines chars).code? ctx = st.code? ctx := by
  cases st <;> simp [shift, code?, Function.comp_def, Token.shift]

/-- The code of a statement is moved with the names that it uses and with its place. -/
private theorem Statement.code?_relocate (h : s.Relocates k t) {st : Statement} {debug : Bool}
    {routine : Option String} {before : Nat} {lines : List CodeLine}
    (hl : st.code? ⟨s, debug, routine, before⟩ = some lines) :
    st.code? ⟨t, debug, routine, (k + before : Nat)⟩ = some (lines.map (CodeLine.relocate k)) := by
  cases st with
  | plain words slots operands =>
    cases hl
    rfl
  | jumpAlways label | jumpIf label operator operands | goto label =>
    obtain ⟨index, hi, rfl⟩ := Option.map_eq_some_iff.mp hl
    exact Option.map_eq_some_iff.mpr ⟨k + index, h .label label index hi, rfl⟩
  | gosub callee =>
    simp only [code?] at hl ⊢
    split at hl
    · cases hl
    · next hself =>
      rw [if_neg hself]
      obtain ⟨index, hi, rfl⟩ := Option.map_eq_some_iff.mp hl
      refine Option.map_eq_some_iff.mpr ⟨k + index, h .routine callee index hi, ?_⟩
      simp [CodeLine.relocate, CodeInstruction.relocate, Context.notes, Int.add_assoc]
  | leave =>
    obtain ⟨callee, hr, rfl⟩ := Option.map_eq_some_iff.mp hl
    exact Option.map_eq_some_iff.mpr ⟨callee, hr, rfl⟩

private theorem CodeLine.map_relocate_annotateLast (k : Int) (note : String)
    (lines : List CodeLine) :
    (annotateLast note lines).map (relocate k) = annotateLast note (lines.map (relocate k)) := by
  fun_induction annotateLast note lines with
  | case1 => rfl
  | case2 => rfl
  | case3 line lines hne ih =>
    cases lines with
    | nil => exact (hne rfl).elim
    | cons next lines =>
      rw [List.map_cons, ih]
      rfl

private theorem CodeLine.map_relocate_noting (k : Int) (note : Option String)
    (lines : List CodeLine) :
    (noting note lines).map (relocate k) = noting note (lines.map (relocate k)) := by
  cases note with
  | none => rfl
  | some note => exact map_relocate_annotateLast k note lines

namespace Placed

/-- The code of statements is moved with the names that they use and with their place. -/
private theorem codeFrom?_relocate (h : s.Relocates k t) {before : Nat} {xs : List Placed}
    {code : List CodeLine} (hc : codeFrom? s before xs = some code) :
    codeFrom? t (k + before) xs = some (code.map (CodeLine.relocate k)) := by
  induction xs generalizing before code with
  | nil =>
    cases hc
    rfl
  | cons x xs ih =>
    obtain ⟨lines, rest, hl, hrest, rfl⟩ := codeFrom?_cons_eq_some_iff.mp hc
    have hrest' := ih hrest
    rw [← Nat.add_assoc] at hrest'
    refine codeFrom?_cons_eq_some_iff.mpr ⟨_, _, Statement.code?_relocate h hl, hrest', ?_⟩
    rw [List.map_append, CodeLine.map_relocate_noting]

private theorem codeFrom?_shift (lines chars before : Nat) (xs : List Placed) :
    codeFrom? s before (xs.map (shift lines chars)) = codeFrom? s before xs := by
  induction xs generalizing before with
  | nil => rfl
  | cons x xs ih =>
    rw [List.map_cons, codeFrom?, codeFrom?, shift]
    simp only [Statement.code?_shift, Statement.size_shift, ih]

/-- Statements have code where those before have, and it stands behind theirs. -/
private theorem codeFrom?_append {before : Nat} {xs ys : List Placed} {code code' : List CodeLine}
    (hx : codeFrom? s before xs = some code)
    (hy : codeFrom? s (before + code.length) ys = some code') :
    codeFrom? s before (xs ++ ys) = some (code ++ code') := by
  induction xs generalizing before code with
  | nil =>
    cases hx
    exact hy
  | cons x xs ih =>
    obtain ⟨lines, rest, hl, hrest, rfl⟩ := codeFrom?_cons_eq_some_iff.mp hx
    rw [List.length_append, CodeLine.length_noting, Statement.length_of_code? hl,
      ← Nat.add_assoc] at hy
    rw [List.append_assoc]
    exact codeFrom?_cons_eq_some_iff.mpr ⟨lines, _, hl, ih hrest hy, rfl⟩

end Placed

/-- A note that was left from before changes no instruction. -/
private theorem Program.exists_codeFrom?_placedFrom {before : Nat} {routine note : Option String}
    {p : Program} {code : List CodeLine} (note' : Option String)
    (h : Placed.codeFrom? s before (p.placedFrom routine note) = some code) :
    ∃ code', Placed.codeFrom? s before (p.placedFrom routine note') = some code' ∧
      code'.map CodeLine.instruction = code.map CodeLine.instruction := by
  fun_induction placedFrom routine note p generalizing note' with
  | case1 => exact ⟨code, h, rfl⟩
  | case2 routine note name p ih => exact ⟨code, h, rfl⟩
  | case3 routine note name p ih => exact ⟨code, h, rfl⟩
  | case4 routine note p ih => exact ih note' h
  | case5 routine note st p ih =>
    obtain ⟨lines, rest, hl, hrest, rfl⟩ := Placed.codeFrom?_cons_eq_some_iff.mp h
    refine ⟨_, Placed.codeFrom?_cons_eq_some_iff.mpr ⟨lines, rest, hl, hrest, rfl⟩, ?_⟩
    simp only [List.map_append, CodeLine.map_instruction_noting]

/-- Programs one behind the other have the code of both, with that of the second moved behind that
of the first. -/
theorem Program.exists_linked_code {catalog : Catalog} {known : String → Prop} {p q : Program}
    {es : List Element} {u : Symbols} {code code' : List CodeLine}
    (hp : List.Forall₂ (Item.Written catalog known) p es)
    (hclosed : Element.openRoutine none es = none) (hs : s.Relocates 0 u)
    (ht : t.Relocates code.length u) (hcode : Placed.codeFrom? s 0 p.placed = some code)
    (hcode' : Placed.codeFrom? t 0 q.placed = some code') (lines chars : Nat) :
    ∃ linked, Placed.codeFrom? u 0 (placed (p ++ q.shift lines chars)) = some linked ∧
      linked.map CodeLine.instruction =
        code.map CodeLine.instruction ++
          code'.map fun line ↦ line.instruction.relocate code.length := by
  have hfirst : Placed.codeFrom? u 0 p.placed = some code := by
    simpa using Placed.codeFrom?_relocate (k := 0) hs hcode
  have hmoved := Placed.codeFrom?_relocate ht hcode'
  have ⟨note, hplaced⟩ := exists_placedFrom_append hp (q.shift lines chars) none none
  have ⟨second, hsecond, hinstruction⟩ := exists_codeFrom?_placedFrom note hmoved
  refine ⟨code ++ second, ?_, ?_⟩
  · rw [placed, hplaced, hclosed, placedFrom_shift]
    refine Placed.codeFrom?_append hfirst ?_
    rw [Placed.codeFrom?_shift, Nat.add_comm]
    exact hsecond
  · rw [List.map_append, hinstruction, List.map_map]
    rfl

end Code

/-- The lines of an assembly that begins `k` lines further down. -/
def Assembly.relocatedLines (k : Nat) (a : Assembly) : List String :=
  a.code.map fun line ↦ (line.instruction.relocate k).render

theorem Assembly.lines_false (a : Assembly) :
    a.lines false = (a.code.map CodeLine.instruction).map CodeInstruction.render := by
  simp [lines, CodeLine.render, Function.comp_def]

/-- What is found in a text counts the lines that it gives. -/
theorem Assembly.size_eq_length {catalog : Catalog} {text : String} {a : Assembly} {p : Program}
    (hr : catalog.Regular) (hsym : Symbols.survey catalog text = .ok a.symbols)
    (hp : p.Reads catalog text) (hcode : Placed.codeFrom? a.symbols 0 p.placed = some a.code) :
    a.symbols.size = a.code.length := by
  have hg := (Symbols.survey_eq_ok_iff.mp hsym).2.size_eq (Program.reads_iff.mp hp).2 hr
  rw [hg, Placed.length_of_codeFrom? hcode, Program.placed, Program.map_statement_placedFrom]
  exact Int.zero_add _

/-- Two texts that can be assembled can be assembled with a line end between them, if the first
leaves no routine open and declares no label and no routine that the second declares. The lines of
the first stay as they are. Those of the second follow, and only what they jump to and where their
calls return to changes: it is further down by the number of lines of the first. -/
theorem assembly_links (first second : String) (a b : Assembly)
    (ha : Assembly.ofText first = .ok a) (hb : Assembly.ofText second = .ok b)
    (hclosed : Element.openRoutine none (elements first) = none)
    (hnames : List.Disjoint (Element.declared (elements first))
      (Element.declared (elements second))) :
    ∃ c, Assembly.ofText (first ++ "\n" ++ second) = .ok c ∧
      c.lines false = a.lines false ++ b.relocatedLines (a.lines false).length := by
  have hr := Catalog.standard_regular
  have hsa := (Assembly.ofTextWith_eq_ok_iff.mp ha).1
  have hsb := (Assembly.ofTextWith_eq_ok_iff.mp hb).1
  have ⟨p, hp, _, hpcode⟩ := Assembly.exists_program hr ha
  have ⟨q, hq, _, hqcode⟩ := Assembly.exists_program hr hb
  have hsize := Assembly.size_eq_length hr hsa hp hpcode
  have hsym := Symbols.survey_append_of_ok hsa hsb
  generalize List.map _ (Element.redeclared _ _) = warnings at hsym
  have hfirst : a.symbols.Relocates 0 (a.symbols.continuedBy b.symbols warnings) := by
    refine Symbols.relocates_first fun what name ↦ ?_
    rw [Symbols.contains_table_of_survey hsa, Symbols.contains_table_of_survey hsb]
    exact fun h h' ↦ hnames h h'
  have hsecond : b.symbols.Relocates a.code.length (a.symbols.continuedBy b.symbols warnings) := by
    rw [← hsize]
    exact Symbols.relocates_second
  have ⟨code, hcode, hinstruction⟩ := Program.exists_linked_code (Program.reads_iff.mp hp).2 hclosed
    hfirst hsecond hpcode hqcode (lineCount first) (first.toList.length + 1)
  refine ⟨_, (hp.append hq).ofTextWith_eq_ok hr hsym hcode, ?_⟩
  rw [Assembly.lines_false, hinstruction, List.map_append, ← Assembly.lines_false, List.map_map,
    Assembly.relocatedLines]
  simp [Assembly.lines, Function.comp_def]

/-- A call and jumps back in both parts. The first part ends with a label, which stands for the
first line of the second. -/
theorem assembly_links_calls :
    let first := "gosub r\ngoto done\nroutine r:\nset x 1\nreturn\nendroutine\ndone:"
    let second := "again: gosub s\njump again lessThan x 9\nend\nroutine s:\nset x 2\nreturn"
    ∃ c, Assembly.ofText (first ++ "\n" ++ second) = .ok c ∧
      c.lines false = ["set rReturn 2", "jump 3 always", "jump 5 always", "set x 1",
        "set @counter rReturn", "set sReturn 7", "jump 9 always", "jump 5 lessThan x 9", "end",
        "set x 2", "set @counter sReturn"] := by
  intro first second
  have hfirst : (Assembly.ofText first).map (Assembly.lines false) = .ok ["set rReturn 2",
      "jump 3 always", "jump 5 always", "set x 1", "set @counter rReturn"] := by decide +kernel
  have hsecond : (Assembly.ofText second).map (Assembly.relocatedLines 5) = .ok ["set sReturn 7",
      "jump 9 always", "jump 5 lessThan x 9", "end", "set x 2", "set @counter sReturn"] := by
    decide +kernel
  have hclosed : Element.openRoutine none (elements first) = none := by decide +kernel
  have hnames : ∀ x ∈ Element.declared (elements first),
      x ∉ Element.declared (elements second) := by decide +kernel
  cases ha : Assembly.ofText first with
  | error f =>
    rw [ha] at hfirst
    cases hfirst
  | ok a =>
    cases hb : Assembly.ofText second with
    | error f =>
      rw [hb] at hsecond
      cases hsecond
    | ok b =>
      rw [ha] at hfirst
      rw [hb] at hsecond
      have ⟨c, hc, hlines⟩ :=
        assembly_links first second a b ha hb hclosed fun x h h' ↦ hnames x h h'
      refine ⟨c, hc, ?_⟩
      rw [hlines, Except.ok.inj hfirst]
      exact congrArg (_ ++ ·) (Except.ok.inj hsecond)

end MlogAsm
