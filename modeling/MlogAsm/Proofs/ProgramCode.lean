import MlogAsm.Proofs.Layout
import MlogAsm.Proofs.Program

/-!
# Programs and their assembly

The two walks over a text, seen from the program that the text spells. A survey finds the lines and
the variables of the program, and an emission gives the code of its statements in their places. Both
directions hold for regular catalogs, of which the processor language has one.
-/

namespace MlogAsm

/-- The number of lines that a statement of an instruction gives. -/
def Instruction.lineCount : Instruction → Int
  | control c => if c.form = .gosub then 2 else 1
  | _ => 1

/-- Only a computation looks for operands by its slots. -/
def Instruction.OwnOperands : Instruction → Prop
  | control c => c.form = .compute ∨ c.slots = []
  | _ => True

instance : DecidablePred Instruction.OwnOperands
  | .control c => inferInstanceAs (Decidable (c.form = .compute ∨ c.slots = []))
  | .operation _ => .isTrue trivial
  | .group _ => .isTrue trivial

/-- A catalog without surprises: what it declares is what happens. -/
structure Catalog.Regular (catalog : Catalog) : Prop where
  leadsNoValue : catalog.LeadsNoValue
  onlyLastOptional : catalog.EverySlots Slot.OnlyLastOptional
  writesVariables :
    catalog.EverySlots fun slots ↦ ∀ slot ∈ slots, slot.writes = true → slot.kind = .variable
  emits_eq : ∀ instruction ∈ catalog.instructions, instruction.emits = instruction.lineCount
  ownOperands : ∀ instruction ∈ catalog.instructions, instruction.OwnOperands

/-- The processor language is regular. -/
theorem Catalog.standard_regular : standard.Regular where
  leadsNoValue := standard_leadsNoValue
  onlyLastOptional := by unfold EverySlots; decide
  writesVariables := by unfold EverySlots; decide
  emits_eq := by decide
  ownOperands := by decide

/-- An instruction gives as many lines as its statements have. -/
theorem Instruction.length_of_emit {instruction : Instruction} {ctx : Context} {c d : Cursor}
    {lines : List CodeLine} (h : instruction.emit ctx c = .ok lines d) :
    (lines.length : Int) = instruction.lineCount := by
  cases instruction with
  | operation op =>
    obtain ⟨words, e, -, h⟩ := bind_eq_ok_iff.mp h
    obtain ⟨rfl, -⟩ := pure_eq_ok_iff.mp h
    rfl
  | group g =>
    obtain ⟨member, e, -, h⟩ := bind_eq_ok_iff.mp h
    obtain ⟨words, e, -, h⟩ := bind_eq_ok_iff.mp h
    obtain ⟨rfl, -⟩ := pure_eq_ok_iff.mp h
    rfl
  | control control =>
    simp only [emit, Control.emit] at h
    cases hc : control.form with
    | jump =>
      simp only [hc] at h
      obtain ⟨label, e, -, h⟩ := bind_eq_ok_iff.mp h
      obtain ⟨target, e, -, h⟩ := bind_eq_ok_iff.mp h
      obtain ⟨condition, e, -, h⟩ := bind_eq_ok_iff.mp h
      obtain ⟨rfl, -⟩ := pure_eq_ok_iff.mp h
      simp [lineCount, hc]
    | goto =>
      simp only [hc] at h
      obtain ⟨label, e, -, h⟩ := bind_eq_ok_iff.mp h
      obtain ⟨target, e, -, h⟩ := bind_eq_ok_iff.mp h
      obtain ⟨rfl, -⟩ := pure_eq_ok_iff.mp h
      simp [lineCount, hc]
    | gosub =>
      simp only [hc] at h
      obtain ⟨callee, e, -, h⟩ := bind_eq_ok_iff.mp h
      split at h
      · simp [bind_eq_ok_iff] at h
      · obtain ⟨target, e, -, h⟩ := bind_eq_ok_iff.mp h
        obtain ⟨rfl, -⟩ := pure_eq_ok_iff.mp h
        simp [lineCount, hc]
    | leave =>
      simp only [hc] at h
      cases hr : ctx.routine with
      | none => simp [hr] at h
      | some routine =>
        simp only [hr] at h
        obtain ⟨rfl, -⟩ := pure_eq_ok_iff.mp h
        simp [lineCount, hc]
    | compute =>
      simp only [hc] at h
      obtain ⟨operands, e, -, h⟩ := bind_eq_ok_iff.mp h
      obtain ⟨rfl, -⟩ := pure_eq_ok_iff.mp h
      simp [lineCount, hc]
    | undefined => simp [hc] at h

/-- There is code for an instruction. -/
def Instruction.HasCode : Instruction → Prop
  | control c => c.form ≠ .undefined
  | _ => True

instance : DecidablePred Instruction.HasCode
  | .control c => inferInstanceAs (Decidable (c.form ≠ .undefined))
  | .operation _ => .isTrue trivial
  | .group _ => .isTrue trivial

/-- A regular catalog with code for all its instructions. -/
structure Catalog.Complete (catalog : Catalog) : Prop extends catalog.Regular where
  hasCode : ∀ instruction ∈ catalog.instructions, instruction.HasCode

/-- The processor language is complete. -/
theorem Catalog.standard_complete : standard.Complete where
  toRegular := standard_regular
  hasCode := by decide

namespace Slot

variable {known : String → Prop} {slots : List Slot} {ts : List Token}

/-- A variable is a name or a system variable. -/
theorem Fits.of_variable {slot : Slot} {t : Token} (h : slot.Fits known t)
    (hk : slot.kind = .variable) : t.kind = .name ∨ t.kind = .sysvar := by
  unfold Fits at h
  rw [hk] at h
  split at h <;> simp_all

/-- What is written fits into a slot that is written. -/
theorem Fills.exists_fits_of_mem_targets (h : Fills known slots ts) {t : Token}
    (ht : t ∈ targets slots ts) : ∃ slot ∈ slots, slot.writes = true ∧ slot.Fits known t := by
  induction h with
  | empty => simp [targets] at ht
  | @fill slot u slots ts hf _ ih =>
    rw [Survey.targets_cons] at ht
    rcases List.mem_append.mp ht with ht | ht
    · by_cases hw : slot.writes = true
      · rw [if_pos hw] at ht
        obtain rfl := List.mem_singleton.mp ht
        exact ⟨slot, List.mem_cons_self, hw, hf⟩
      · simp [hw] at ht
    · obtain ⟨found, hm, hw, hf⟩ := ih ht
      exact ⟨found, List.mem_cons_of_mem slot hm, hw, hf⟩

/-- Operands are no declarations. -/
theorem Fills.isValue (h : Fills known slots ts) {t : Token} (ht : t ∈ ts) :
    t.kind.isValue = true := by
  induction h with
  | empty => cases ht
  | fill hf _ ih =>
    rcases List.mem_cons.mp ht with rfl | ht
    · exact hf.isValue
    · exact ih ht

end Slot

theorem TokenKind.isDeclaration_of_isValue {k : TokenKind} (h : k.isValue = true) :
    k.isDeclaration = false := by
  cases k <;> simp_all [isValue, isDeclaration]

namespace Statement

variable {catalog : Catalog} {known : String → Prop} {lead : Token} {operands : List Token}
  {s : Statement} {instruction : Instruction}

/-- An instruction declares as many lines as its statements give. -/
theorem Written.emits_eq (h : s.Written catalog known (lead :: operands)) (hr : catalog.Regular)
    (hl : catalog.find? lead.kind = some instruction) : instruction.emits = s.size := by
  rw [hr.emits_eq _ (List.mem_of_find?_eq_some hl)]
  cases h with
  | operation hl' hf | member hl' hm hf =>
    rw [hl] at hl'
    cases hl'
    rfl
  | compute hl' hc hf | jumpAlways hl' hc hn ha | jumpIf hl' hc hn ho hf | goto hl' hc hn
  | gosub hl' hc hn | leave hl' hc =>
    rw [hl] at hl'
    cases hl'
    simp [Instruction.lineCount, hc, size]

/-- The code of a statement has as many lines as the statement. -/
theorem length_of_code? {ctx : Context} {lines : List CodeLine} (h : s.code? ctx = some lines) :
    lines.length = s.size := by
  cases s with
  | plain words slots operands =>
    cases h
    rfl
  | jumpAlways label | jumpIf label operator operands | goto label | leave =>
    obtain ⟨target, -, rfl⟩ := Option.map_eq_some_iff.mp h
    rfl
  | gosub routine =>
    simp only [code?] at h
    split at h
    · cases h
    · obtain ⟨target, -, rfl⟩ := Option.map_eq_some_iff.mp h
      rfl

theorem slots_eq_nil_of_form (hr : catalog.Regular) {control : Control}
    (hl : catalog.find? lead.kind = some (.control control)) (hc : control.form ≠ .compute) :
    control.slots = [] := by
  rcases hr.ownOperands _ (List.mem_of_find?_eq_some hl) with h | h
  · exact absurd h hc
  · exact h

/-- A survey looks for targets where the statement has them. -/
theorem Written.targets_eq (h : s.Written catalog known (lead :: operands)) (hr : catalog.Regular)
    (hl : catalog.find? lead.kind = some instruction) {slots : List Slot} {args : List Token}
    (ha : instruction.arranged? operands = some (slots, args)) :
    Slot.targets slots args = s.targets := by
  cases h with
  | operation hl' hf | compute hl' hc hf =>
    rw [hl] at hl'
    cases hl'
    cases ha
    rfl
  | member hl' hm hf =>
    rw [hl] at hl'
    cases hl'
    simp only [Instruction.arranged?, hm] at ha
    cases ha
    rfl
  | jumpAlways hl' hc hn ha' | jumpIf hl' hc hn ho hf | goto hl' hc hn | gosub hl' hc hn
  | leave hl' hc =>
    rw [hl] at hl'
    cases hl'
    cases ha
    rw [slots_eq_nil_of_form hr hl (by simp [hc])]
    rfl

private theorem targets_of_fills {slots : List Slot} {args : List Token}
    (hf : Slot.Fills known slots args)
    (hw : ∀ slot ∈ slots, slot.writes = true → slot.kind = .variable) :
    ∀ t ∈ Slot.targets slots args, t.kind = .name ∨ t.kind = .sysvar := by
  intro t ht
  obtain ⟨slot, hm, hs, hfit⟩ := hf.exists_fits_of_mem_targets ht
  exact hfit.of_variable (hw slot hm hs)

/-- A statement of the grammar passes a survey. -/
private theorem Written.exists_arranged (h : s.Written catalog known (lead :: operands))
    (hr : catalog.Regular) :
    ∃ instruction slots args, catalog.find? lead.kind = some instruction ∧
      instruction.arranged? operands = some (slots, args) ∧
      (∀ t ∈ Slot.targets slots args, t.kind = .name ∨ t.kind = .sysvar) ∧
      ∀ t ∈ args, t.kind.isDeclaration = false := by
  have hval {slots : List Slot} {ts : List Token} (hf : Slot.Fills known slots ts) :
      ∀ t ∈ ts, t.kind.isDeclaration = false :=
    fun t ht ↦ TokenKind.isDeclaration_of_isValue (hf.isValue ht)
  cases h with
  | operation hl hf =>
    exact ⟨_, _, _, hl, rfl, targets_of_fills hf (hr.writesVariables.operation hl), hval hf⟩
  | member hl hm hf =>
    refine ⟨_, _, _, hl, ?_, targets_of_fills hf (hr.writesVariables.member hl hm), hval hf⟩
    simp [Instruction.arranged?, hm]
  | compute hl hc hf =>
    exact ⟨_, _, _, hl, rfl, targets_of_fills hf (hr.writesVariables.control hl), hval hf⟩
  | jumpAlways hl hc hn ha =>
    refine ⟨_, _, _, hl, rfl, ?_, by simp [hn, ha, TokenKind.isDeclaration]⟩
    simp [slots_eq_nil_of_form hr hl (by simp [hc]), Slot.targets]
  | jumpIf hl hc hn ho hf =>
    refine ⟨_, _, _, hl, rfl, ?_, ?_⟩
    · simp [slots_eq_nil_of_form hr hl (by simp [hc]), Slot.targets]
    · simpa [hn, ho, TokenKind.isDeclaration] using hval hf
  | goto hl hc hn =>
    refine ⟨_, _, _, hl, rfl, ?_, by simp [hn, TokenKind.isDeclaration]⟩
    simp [slots_eq_nil_of_form hr hl (by simp [hc]), Slot.targets]
  | gosub hl hc hn =>
    refine ⟨_, _, _, hl, rfl, ?_, by simp [hn, TokenKind.isDeclaration]⟩
    simp [slots_eq_nil_of_form hr hl (by simp [hc]), Slot.targets]
  | leave hl hc =>
    refine ⟨_, _, _, hl, rfl, ?_, by simp⟩
    simp [slots_eq_nil_of_form hr hl (by simp [hc]), Slot.targets]

end Statement

section Survey

variable {catalog : Catalog} {known : String → Prop} {p : Program} {es : List Element}
  {sym sym' : Symbols}

/-- The elements of a program pass a survey. -/
theorem Program.exists_gathers (hp : List.Forall₂ (Item.Written catalog known) p es)
    (hr : catalog.Regular) (sym : Symbols) : ∃ sym', Survey.Gathers catalog sym es sym' := by
  induction hp generalizing sym with
  | nil => exact ⟨sym, .done⟩
  | cons hi _ ih =>
    cases hi with
    | @declare what name line =>
      obtain ⟨sym', hg⟩ := ih (sym.declare what name line)
      exact ⟨sym', .declare hg⟩
    | close =>
      obtain ⟨sym', hg⟩ := ih sym
      exact ⟨sym', .close hg⟩
    | statement hw =>
      obtain ⟨instruction, slots, args, hl, ha, ht, hd⟩ := hw.exists_arranged hr
      obtain ⟨sym', hg⟩ :=
        ih ((sym.addLines instruction.emits).addTargets (Slot.targets slots args))
      exact ⟨sym', .clause hl ha ht (fun t h ↦ hd t (List.mem_of_mem_drop h)) hg⟩

/-- A survey gives a name the index of the line before which it was declared last. -/
theorem Survey.Gathers.get?_table (hg : Gathers catalog sym es sym')
    (hp : List.Forall₂ (Item.Written catalog known) p es) (hr : catalog.Regular)
    (what : Declared) (name : String) :
    (sym'.table what).get? name =
      ((p.entryIndex? what name).map fun i ↦ sym.size + (p.offset i : Int)).or
        ((sym.table what).get? name) := by
  induction hg generalizing p with
  | done =>
    cases hp
    simp [Program.entryIndex?]
  | @declare s s' what' name' line es _ ih =>
    cases hp with
    | cons hi hp =>
      cases hi
      rw [ih hp, Symbols.get?_table_declare, Symbols.size_declare, Program.entryIndex?_declare,
        Program.offset_declare]
      cases he : Program.entryIndex? what name _ with
      | some i => simp
      | none =>
        by_cases hd : what = what' ∧ name = name'
        · obtain ⟨rfl, rfl⟩ := hd
          simp
        · have hd' : ¬ (what' = what ∧ name' = name) := fun h ↦ hd ⟨h.1.symm, h.2.symm⟩
          simp [hd, hd']
  | close _ ih =>
    cases hp with
    | cons hi hp =>
      cases hi
      simpa using ih hp
  | clause hl _ _ _ _ ih =>
    cases hp with
    | cons hi hp =>
      cases hi with
      | statement hw =>
        rw [ih hp, Symbols.table_addTargets, Symbols.table_addLines, Symbols.size_addTargets,
          Symbols.size_addLines, hw.emits_eq hr hl, Program.entryIndex?_statement, Option.map_map]
        congr 2
        funext i
        simp only [Function.comp_apply, Program.offset_statement, Int.natCast_add]
        omega

/-- A survey counts the lines of the program. -/
theorem Survey.Gathers.size_eq (hg : Gathers catalog sym es sym')
    (hp : List.Forall₂ (Item.Written catalog known) p es) (hr : catalog.Regular) :
    sym'.size = sym.size + Statement.total p.statements := by
  induction hg generalizing p with
  | done =>
    cases hp
    simp [Program.statements]
  | declare _ ih =>
    cases hp with
    | cons hi hp =>
      cases hi
      simpa using ih hp
  | close _ ih =>
    cases hp with
    | cons hi hp =>
      cases hi
      simpa using ih hp
  | clause hl _ _ _ _ ih =>
    cases hp with
    | cons hi hp =>
      cases hi with
      | statement hw =>
        rw [ih hp, Symbols.size_addTargets, Symbols.size_addLines, hw.emits_eq hr hl,
          Program.statements_statement, Statement.total_cons]
        omega

/-- The variables after a statement are those before it and the names that it writes. -/
private theorem Symbols.mem_vars_addTargets (s : Symbols) (ts : List Token) (name : String) :
    name ∈ (s.addTargets ts).vars ↔
      name ∈ s.vars ∨ ∃ t ∈ ts, t.kind = .name ∧ t.value = name := by
  induction ts generalizing s with
  | nil => simp [addTargets]
  | cons t ts ih =>
    rw [addTargets_cons, ih]
    by_cases hk : t.kind = .name
    · have hadd : name ∈ (s.addVariable t.value).vars ↔ name ∈ s.vars ∨ t.value = name := by
        unfold addVariable
        by_cases hv : t.value ∈ s.vars
        · simp only [List.contains_iff_mem, hv, if_true]
          constructor
          · exact .inl
          · rintro (h | rfl)
            · exact h
            · exact hv
        · simp [hv, eq_comm (a := name)]
      simp [hk, hadd, or_assoc]
    · simp [hk]

/-- A survey makes variables of the names that the program writes. -/
theorem Survey.Gathers.mem_vars (hg : Gathers catalog sym es sym')
    (hp : List.Forall₂ (Item.Written catalog known) p es) (hr : catalog.Regular) (name : String) :
    name ∈ sym'.vars ↔ name ∈ sym.vars ∨ p.Writes name := by
  induction hg generalizing p with
  | done =>
    cases hp
    simp [Program.Writes, Program.statements]
  | declare _ ih =>
    cases hp with
    | cons hi hp =>
      cases hi
      rw [ih hp]
      simp [Program.Writes]
  | close _ ih =>
    cases hp with
    | cons hi hp =>
      cases hi
      rw [ih hp]
      simp [Program.Writes]
  | clause hl ha _ _ _ ih =>
    cases hp with
    | cons hi hp =>
      cases hi with
      | statement hw =>
        rw [ih hp, Symbols.mem_vars_addTargets, hw.targets_eq hr hl ha]
        simp [Program.Writes, or_assoc]

end Survey

namespace CodeLine

/-- Notes do not change instructions. -/
private theorem map_instruction_annotateLast (note : String) (lines : List CodeLine) :
    (annotateLast note lines).map instruction = lines.map instruction := by
  fun_induction annotateLast note lines with
  | case1 => rfl
  | case2 => rfl
  | case3 line lines _ ih => simp [ih]

theorem map_instruction_noting (note : Option String) (lines : List CodeLine) :
    (noting note lines).map instruction = lines.map instruction := by
  cases note with
  | none => rfl
  | some note => exact map_instruction_annotateLast note lines

end CodeLine

namespace Placed

/-- The code of statements in their places, with all its notes, if all their names can be
resolved. -/
def codeFrom? (symbols : Symbols) : Nat → List Placed → Option (List CodeLine)
  | _, [] => some []
  | before, x :: xs => do
    let lines ← x.statement.code? ⟨symbols, true, x.routine, before⟩
    let rest ← codeFrom? symbols (before + x.statement.size) xs
    return CodeLine.noting x.note lines ++ rest

/-- Statements have code if the first one has, and the others behind it. -/
theorem codeFrom?_cons_eq_some_iff {symbols : Symbols} {before : Nat} {x : Placed}
    {xs : List Placed} {code : List CodeLine} :
    codeFrom? symbols before (x :: xs) = some code ↔
      ∃ lines rest, x.statement.code? ⟨symbols, true, x.routine, before⟩ = some lines ∧
        codeFrom? symbols (before + x.statement.size) xs = some rest ∧
        code = CodeLine.noting x.note lines ++ rest := by
  simp [codeFrom?, Option.bind_eq_some_iff, eq_comm (a := code)]

/-- The code of statements has as many lines as the statements. -/
theorem length_of_codeFrom? {symbols : Symbols} {before : Nat} {xs : List Placed}
    {code : List CodeLine} (h : codeFrom? symbols before xs = some code) :
    code.length = Statement.total (xs.map statement) := by
  induction xs generalizing before code with
  | nil =>
    cases h
    rfl
  | cons x xs ih =>
    obtain ⟨lines, rest, hl, hrest, rfl⟩ := codeFrom?_cons_eq_some_iff.mp h
    rw [List.length_append, CodeLine.length_noting, Statement.length_of_code? hl, ih hrest]
    rfl

end Placed

section Emission

variable {catalog : Catalog} {symbols : Symbols} {s : Emission} {visits : List Visit}
  {ts : List Token} {p : Program}

/-- A text that gives code spells a program, and the code is that of the program. -/
theorem Emission.Visits.exists_program (hv : Visits catalog symbols s visits)
    (hd : s.debug = true) (hr : s.cursor.rest = ts.map .token)
    (ho : catalog.EverySlots Slot.OnlyLastOptional) :
    ∃ p : Program, List.Forall₂ (Item.Written catalog (· ∈ symbols.vars)) p (outline ts) ∧
      Placed.codeFrom? symbols s.emitted (p.placedFrom s.routine s.pending) =
        some (visits.flatMap Visit.lines) := by
  induction hv generalizing ts with
  | finished hnext =>
    obtain ⟨hnil, -⟩ := Reader.next_eq_ok_none_iff.mp hnext
    rw [hr] at hnil
    rw [List.map_eq_nil_iff.mp hnil, outline_nil]
    exact ⟨[], .nil, rfl⟩
  | newline hnext hk _ ih =>
    obtain ⟨us, rfl, rfl⟩ := Reader.next_of_rest_eq hr hnext
    rw [outline_newline hk]
    exact ih hd rfl
  | mark hnext hm _ ih =>
    obtain ⟨us, rfl, rfl⟩ := Reader.next_of_rest_eq hr hnext
    rcases marked?_eq_some_iff.mp hm with ⟨hk, rfl⟩ | ⟨hk, rfl⟩ | ⟨hk, rfl⟩
    · rw [outline_label hk]
      obtain ⟨p, hp, hcode⟩ := ih hd rfl
      exact ⟨_, .cons .declare hp, hcode⟩
    · rw [outline_routine hk]
      obtain ⟨p, hp, hcode⟩ := ih hd rfl
      exact ⟨_, .cons .declare hp, hcode⟩
    · rw [outline_endRoutine hk]
      obtain ⟨p, hp, hcode⟩ := ih hd rfl
      exact ⟨_, .cons .close hp, hcode⟩
  | @statement s c d t lines visits hnext hk he _ ih =>
    obtain ⟨us, rfl, rfl⟩ := Reader.next_of_rest_eq hr hnext
    obtain ⟨line, rest, rfl, hp, hover⟩ := exists_line us
    rw [outline_clause hk hp hover]
    obtain ⟨instruction, st, -, hw, hcode, -, -, ws, hws, hout⟩ :=
      Catalog.emitStatement_within (Cursor.within_past hk hp hover) (.inr ho) he
    obtain ⟨p, hp, hrest⟩ := ih hd hws
    rw [hout] at hp
    rw [Statement.length_of_code? hcode] at hrest
    refine ⟨.statement st :: p, .cons (.statement hw) hp, ?_⟩
    rw [context, hd] at hcode
    rw [List.flatMap_cons, noted, if_pos hd]
    exact Placed.codeFrom?_cons_eq_some_iff.mpr ⟨lines, _, hcode, hrest, rfl⟩

private theorem Emission.exists_visits_of_mark {s' : Emission} {t : Token} {c : Cursor}
    {code : List CodeLine} (hn : Reader.next s.cursor = .ok (some t) c)
    (hm : s.marked? t c = some s')
    (h : ∃ visits, Visits catalog symbols s' visits ∧ code = visits.flatMap Visit.lines) :
    ∃ visits, Visits catalog symbols s visits ∧ code = visits.flatMap Visit.lines := by
  obtain ⟨visits, hv, rfl⟩ := h
  exact ⟨_, .mark hn hm hv, rfl⟩

/-- A text that spells a program with code gives that code. The induction is on what is left of the
text, because blank lines leave no trace in the program. -/
theorem Program.exists_visits (hr : catalog.Regular) {code : List CodeLine}
    (hp : List.Forall₂ (Item.Written catalog (· ∈ symbols.vars)) p (outline ts))
    (hd : s.debug = true) (hc : s.cursor.rest = ts.map .token)
    (hcode : Placed.codeFrom? symbols s.emitted (p.placedFrom s.routine s.pending) = some code) :
    ∃ visits, Emission.Visits catalog symbols s visits ∧ code = visits.flatMap Visit.lines := by
  induction hlen : ts.length using Nat.strongRecOn generalizing s ts p code with
  | ind n ih =>
    subst hlen
    cases ts with
    | nil =>
      rw [outline_nil] at hp
      cases hp
      cases hcode
      exact ⟨[], .finished (Reader.next_eq_ok_none_iff.mpr ⟨hc, rfl⟩), rfl⟩
    | cons t ts =>
      have hn := Reader.next_eq_ok_some_iff.mpr ⟨_, hc, rfl⟩
      by_cases hk : t.kind.leads = true
      · obtain ⟨line, rest, rfl, hplain, ho⟩ := exists_line ts
        rw [outline_clause hk hplain ho] at hp
        cases hp with
        | cons hi hp =>
          cases hi with
          | @statement st _ _ hw =>
            obtain ⟨lines, code', hst, hcode', rfl⟩ := Placed.codeFrom?_cons_eq_some_iff.mp hcode
            have hlines : lines.length = st.size := Statement.length_of_code? hst
            have hctx : s.context symbols = ⟨symbols, true, s.routine, s.emitted⟩ := by
              rw [Emission.context, hd]
            rw [← hctx] at hst
            obtain ⟨d, he, -, us, hus, hout⟩ := Statement.Written.exists_emitStatement_eq_ok hw
              hr.onlyLastOptional hst (fun instruction hl ↦ by rw [hlines, hw.emits_eq hr hl])
              (Cursor.within_past hk hplain ho)
            -- Empty slots may have taken more line ends, so only the length says that this goes on.
            have hle := ((catalog.forward_emitStatement _ t).ok he).length_rest_le
            rw [← hout] at hp
            rw [← hlines] at hcode'
            have hlt : us.length < (t :: (line ++ rest)).length := by
              simpa [hus, Cursor.past] using Nat.lt_succ_of_le hle
            obtain ⟨visits, hv, rfl⟩ := ih _ hlt
              (s := ⟨s.debug, d, s.routine, none, s.emitted + lines.length⟩) hp hd hus hcode' rfl
            refine ⟨_, .statement hn hk he hv, ?_⟩
            rw [List.flatMap_cons, Emission.noted, if_pos hd]
      · rcases TokenKind.cases_of_not_leads hk with hk | hk | hk | hk
        · rw [outline_newline hk] at hp
          obtain ⟨visits, hv, rfl⟩ := ih ts.length (by simp)
            (s := { s with cursor := .past t (ts.map .token) }) hp hd rfl hcode rfl
          exact ⟨visits, .newline hn hk hv, rfl⟩
        · rw [outline_label hk] at hp
          cases hp with
          | cons hi hp =>
            cases hi
            exact Emission.exists_visits_of_mark hn
              (Emission.marked?_eq_some_iff.mpr (.inl ⟨hk, rfl⟩))
              (ih ts.length (by simp) hp hd rfl hcode rfl)
        · rw [outline_routine hk] at hp
          cases hp with
          | cons hi hp =>
            cases hi
            exact Emission.exists_visits_of_mark hn
              (Emission.marked?_eq_some_iff.mpr (.inr (.inl ⟨hk, rfl⟩)))
              (ih ts.length (by simp) hp hd rfl hcode rfl)
        · rw [outline_endRoutine hk] at hp
          cases hp with
          | cons hi hp =>
            cases hi
            exact Emission.exists_visits_of_mark hn
              (Emission.marked?_eq_some_iff.mpr (.inr (.inr ⟨hk, rfl⟩)))
              (ih ts.length (by simp) hp hd rfl hcode rfl)

end Emission
end MlogAsm
