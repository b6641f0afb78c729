import MlogAsm.Proofs.Language
import MlogAsm.Proofs.Processor

/-!
# Return variables

Which lines store into the variable in which a routine keeps where it goes back to. It is a variable
like any other: a call stores into it, and so does a statement that names it where a result goes.
Nothing else does.
-/

namespace MlogAsm

/-- The words that stand in slots that are written. -/
def Slot.stored (slots : List Slot) (words : List String) : List String :=
  ((slots.zip words).filter fun entry ↦ entry.1.writes).map Prod.snd

private theorem Slot.stored_map_value (slots : List Slot) (operands : List Token) :
    stored slots (operands.map Token.value) = (targets slots operands).map Token.value := by
  unfold stored targets
  rw [List.zip_map_right, List.filter_map, List.map_map, List.map_map]
  rfl

namespace Instruction

/-- The word that a line of an instruction begins with. -/
def name : Instruction → String
  | operation op => op.name
  | group g => g.name
  | control c => c.name

/-- The words behind the name of an instruction that it stores into. -/
def stored : Instruction → List String → List String
  | operation op, words => Slot.stored op.args words
  | group g, pick :: words =>
    match g.members.find? (·.name == pick) with
    | some op => Slot.stored op.args words
    | none => []
  | group _, [] => []
  | control c, words => Slot.stored c.slots words

/-- The members of a group can be told by their names, and a computation has the name that its lines
begin with. -/
def WellNamed : Instruction → Prop
  | operation _ => True
  | group g => ∀ op ∈ g.members, g.members.find? (·.name == op.name) = some op
  | control c => c.form = .compute → c.name = "op"

instance : DecidablePred WellNamed
  | operation _ => .isTrue trivial
  | group g => inferInstanceAs (Decidable (∀ op ∈ g.members, _))
  | control c => inferInstanceAs (Decidable (c.form = .compute → c.name = "op"))

end Instruction

namespace Catalog

/-- The variables that a line with given words stores into. -/
def stored (catalog : Catalog) : List String → List String
  | [] => []
  | word :: words =>
    match catalog.instructions.find? (·.name == word) with
    | some instruction => instruction.stored words
    | none => []

/-- The instructions of the processor language can be told by their names. -/
private theorem standard_find?_name :
    ∀ instruction ∈ standard.instructions,
      standard.instructions.find? (·.name == instruction.name) = some instruction := by
  decide +kernel

private theorem standard_wellNamed :
    ∀ instruction ∈ standard.instructions, instruction.WellNamed := by
  decide +kernel

/-- A line that begins with the name of an instruction is a line of it. -/
private theorem standard_stored_name {kind : TokenKind} {instruction : Instruction}
    (h : standard.find? kind = some instruction) (words : List String) :
    standard.stored (instruction.name :: words) = instruction.stored words := by
  rw [stored, standard_find?_name _ (List.mem_of_find?_eq_some h)]

end Catalog

section Lines

variable {known : String → Prop}

/-- A line that is written as it runs stores into the targets of its statement. -/
private theorem Statement.Written.stored_plain {words : List String} {slots : List Slot}
    {operands ts : List Token} (h : (plain words slots operands).Written .standard known ts) :
    Catalog.standard.stored (words ++ operands.map Token.value) =
      (Slot.targets slots operands).map Token.value := by
  rw [← Slot.stored_map_value]
  cases h with
  | operation hl hf => exact Catalog.standard_stored_name hl _
  | @member lead pick group op operands hl hm hf =>
    have hop : op ∈ group.members := List.mem_of_find?_eq_some hm
    have hname : group.members.find? (·.name == op.name) = some op :=
      Catalog.standard_wellNamed _ (List.mem_of_find?_eq_some hl) op hop
    have hstored := Catalog.standard_stored_name hl (op.name :: operands.map Token.value)
    rw [Instruction.stored, hname] at hstored
    exact hstored
  | compute hl hc hf =>
    have hname := Catalog.standard_wellNamed _ (List.mem_of_find?_eq_some hl) hc
    have hstored := Catalog.standard_stored_name hl (operands.map Token.value)
    rw [Instruction.name, hname] at hstored
    exact hstored

private theorem CodeInstruction.stored_jump (target : Int) (condition : Condition) :
    Catalog.standard.stored (jump target condition).toWords = [] := by
  cases condition <;> rfl

private theorem CodeInstruction.stored_storeReturn (routine : String) (address : Int) :
    Catalog.standard.stored (storeReturn routine address).toWords = [returnVariable routine] :=
  rfl

private theorem CodeInstruction.stored_goBack (routine : String) :
    Catalog.standard.stored (goBack routine).toWords = ["@counter"] :=
  rfl

/-- Routines have their own return variables. -/
private theorem returnVariable_inj {r s : String} :
    returnVariable r = returnVariable s ↔ r = s := by
  simp [returnVariable]

private theorem eq_of_getElem?_singleton {line line' : CodeLine} {k : Nat}
    (h : [line][k]? = some line') :
    k = 0 ∧ line' = line := by
  rw [List.getElem?_singleton] at h
  split at h
  · next hk => exact ⟨hk, (Option.some.inj h).symm⟩
  · cases h

/-- Of the lines of a statement only the first one can store into a return variable. It does so if
the statement calls the routine, or names the variable where a result goes. -/
theorem Statement.Written.mem_stored_iff {s : Statement} {ts : List Token}
    (h : s.Written .standard known ts) {ctx : Context} {lines : List CodeLine}
    (hc : s.code? ctx = some lines) {k : Nat} {line : CodeLine} (hk : lines[k]? = some line)
    (r : String) :
    returnVariable r ∈ Catalog.standard.stored line.instruction.toWords ↔
      k = 0 ∧ (s = .gosub r ∨ ∃ t ∈ s.targets, t.value = returnVariable r) := by
  cases s with
  | plain words slots operands =>
    cases hc
    obtain ⟨rfl, rfl⟩ := eq_of_getElem?_singleton hk
    simp [CodeInstruction.toWords, h.stored_plain, targets]
  | jumpAlways label | goto label | jumpIf label operator operands =>
    obtain ⟨target, -, rfl⟩ := Option.map_eq_some_iff.mp hc
    obtain ⟨rfl, rfl⟩ := eq_of_getElem?_singleton hk
    simp [CodeInstruction.stored_jump, targets]
  | gosub callee =>
    simp only [code?] at hc
    split at hc
    · cases hc
    · obtain ⟨target, -, rfl⟩ := Option.map_eq_some_iff.mp hc
      cases k with
      | zero =>
        cases hk
        simp [CodeInstruction.stored_storeReturn, returnVariable_inj, targets, eq_comm]
      | succ k =>
        obtain ⟨-, rfl⟩ := eq_of_getElem?_singleton hk
        simp [CodeInstruction.stored_jump]
  | leave =>
    obtain ⟨callee, -, rfl⟩ := Option.map_eq_some_iff.mp hc
    obtain ⟨rfl, rfl⟩ := eq_of_getElem?_singleton hk
    simp [CodeInstruction.stored_goBack, returnVariable_ne_counter, targets]

end Lines

/-- Every line of code is one of the lines of a statement in its place. -/
theorem Placed.exists_of_getElem?_code {symbols : Symbols} {before : Nat} {xs : List Placed}
    {code : List CodeLine} (h : codeFrom? symbols before xs = some code) {j : Nat} {line : CodeLine}
    (hj : code[j]? = some line) :
    ∃ i x lines k line', xs[i]? = some x ∧
      (∃ ctx, x.statement.code? ctx = some lines) ∧ lines[k]? = some line' ∧
      line'.instruction = line.instruction ∧
      j = Statement.total ((xs.take i).map statement) + k := by
  induction xs generalizing before code j with
  | nil =>
    cases h
    cases hj
  | cons x xs ih =>
    have ⟨lines, rest, hl, hrest, hcode⟩ := codeFrom?_cons_eq_some_iff.mp h
    subst hcode
    have hlength := CodeLine.length_noting x.note lines
    by_cases hlt : j < lines.length
    · rw [List.getElem?_append_left (by omega)] at hj
      have hmap : (lines.map CodeLine.instruction)[j]? = some line.instruction := by
        rw [← CodeLine.map_instruction_noting x.note, List.getElem?_map, hj]
        rfl
      rw [List.getElem?_map] at hmap
      have ⟨line', hline, hinstruction⟩ := Option.map_eq_some_iff.mp hmap
      exact ⟨0, x, lines, j, line', rfl, ⟨_, hl⟩, hline, hinstruction, (Nat.zero_add j).symm⟩
    · rw [List.getElem?_append_right (by omega)] at hj
      have ⟨i, y, others, k, line', hy, hothers, hline, hinstruction, hindex⟩ := ih hrest hj
      refine ⟨i + 1, y, others, k, line', hy, hothers, hline, hinstruction, ?_⟩
      have hsize : lines.length = x.statement.size := Statement.length_of_code? hl
      rw [List.take_succ_cons, List.map_cons, Statement.total_cons]
      omega

/-- Where a line of an assembled program stores into the variable in which a routine keeps its
return. Every line is one of the lines of a statement. It stores into that variable exactly if it is
the first line of a call of this very routine, or the line of a statement that names the variable in
a slot that is written. -/
theorem stores_return_iff_called_or_named (text : String) (a : Assembly)
    (h : Assembly.ofText text = .ok a) :
    ∃ p, Program.Reads .standard text p ∧
      ∀ j line, a.code[j]? = some line →
        ∃ i x k, p.placed[i]? = some x ∧ k < x.statement.size ∧ j = p.offset i + k ∧
          ∀ r, returnVariable r ∈ Catalog.standard.stored line.instruction.toWords ↔
            k = 0 ∧ (x.statement = .gosub r ∨
              ∃ t ∈ x.statement.targets, t.value = returnVariable r) := by
  have ⟨p, hp, _, hcode⟩ := Assembly.exists_program Catalog.standard_regular h
  refine ⟨p, hp, fun j line hj ↦ ?_⟩
  have ⟨i, x, lines, k, line', hx, ⟨ctx, hlines⟩, hline, hinstruction, hindex⟩ :=
    Placed.exists_of_getElem?_code hcode hj
  have ⟨ts, _, hwritten⟩ := hp
  have ⟨e, _, hw⟩ := Program.exists_element_of_mem hwritten
    (Program.mem_statements.mp (Program.mem_statements_of_getElem? hx))
  have hk : k < x.statement.size := by
    rw [← Statement.length_of_code? hlines]
    exact (List.getElem?_eq_some_iff.mp hline).1
  refine ⟨i, x, k, hx, hk, ?_, fun r ↦ ?_⟩
  · rw [hindex, Program.offset_eq]
  · cases hw with
    | statement hw =>
      rw [← hinstruction]
      exact hw.mem_stored_iff hlines hline r

/-- A call and an assignment both store into the return variable of `r`, and the call of `s` does
not. -/
theorem stores_return_iff_called_or_named_both :
    let text := "gosub r\ngosub s\nset rReturn 0\nend\nroutine r:\nreturn\nroutine s:\nreturn"
    (Assembly.ofText text).map (fun a ↦ a.code.map fun line ↦
        Catalog.standard.stored line.instruction.toWords) =
      .ok [["rReturn"], [], ["sReturn"], [], ["rReturn"], [], ["@counter"], ["@counter"]] ∧
    ∃ a p, Assembly.ofText text = .ok a ∧ Program.Reads .standard text p ∧
      ∀ j line, a.code[j]? = some line →
        ∃ i x k, p.placed[i]? = some x ∧ k < x.statement.size ∧ j = p.offset i + k ∧
          ∀ r, returnVariable r ∈ Catalog.standard.stored line.instruction.toWords ↔
            k = 0 ∧ (x.statement = .gosub r ∨
              ∃ t ∈ x.statement.targets, t.value = returnVariable r) := by
  intro text
  have hstored : (Assembly.ofText text).map (fun a ↦ a.code.map fun line ↦
      Catalog.standard.stored line.instruction.toWords) =
    .ok [["rReturn"], [], ["sReturn"], [], ["rReturn"], [], ["@counter"], ["@counter"]] := by
    decide +kernel
  refine ⟨hstored, ?_⟩
  cases ha : Assembly.ofText text with
  | error f =>
    rw [ha] at hstored
    cases hstored
  | ok a =>
    have ⟨p, hp, hlines⟩ := stores_return_iff_called_or_named text a ha
    exact ⟨a, p, rfl, hp, hlines⟩

/-- Not only calls store into return variables: an assignment in the routine itself can. -/
theorem not_only_calls_store_returns :
    ¬ ∀ (text : String) (a : Assembly), Assembly.ofText text = .ok a →
      ∀ r, a.symbols.routines.contains r = true → ∀ line ∈ a.code,
        returnVariable r ∈ Catalog.standard.stored line.instruction.toWords →
          ∃ address, line.instruction = .storeReturn r address := by
  intro h
  have hcode : (Assembly.ofText "routine r:\nset rReturn 0\nreturn\nendroutine\ngosub r\n").map
      (fun a ↦ (a.symbols.routines.contains "r", a.code.map CodeLine.instruction)) =
    .ok (true, [.words ["set", "rReturn", "0"], .goBack "r", .storeReturn "r" 4,
      .jump 0 .always]) := by
    decide +kernel
  cases ha : Assembly.ofText "routine r:\nset rReturn 0\nreturn\nendroutine\ngosub r\n" with
  | error f =>
    rw [ha] at hcode
    cases hcode
  | ok a =>
    rw [ha] at hcode
    have ⟨hroutine, hinstructions⟩ := Prod.mk.inj (Except.ok.inj hcode)
    have ⟨line, rest, hlines, hline, _⟩ := List.map_eq_cons_iff.mp hinstructions
    have hmem : line ∈ a.code := by rw [hlines]; exact List.mem_cons_self
    have hstores : returnVariable "r" ∈ Catalog.standard.stored line.instruction.toWords := by
      rw [hline]
      decide
    have ⟨address, hcall⟩ := h _ a ha "r" hroutine line hmem hstores
    rw [hline] at hcall
    cases hcall

end MlogAsm
