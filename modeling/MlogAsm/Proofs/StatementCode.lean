import MlogAsm.Proofs.Reading

/-!
# The code of a statement

The lines that a statement gives in a context, as a function of the statement alone. The statement
that the emission reads is the one that the grammar finds on the line, and its lines are these. In
the other direction every statement of the grammar is read, provided that the catalog lets only last
slots stay empty.
-/

namespace MlogAsm

/-- The operands of a comparison, with the default in the place of a second one that is missing. -/
def Control.completed : List String → List String
  | [a] => [a, defaultOperand]
  | operands => operands

namespace Statement

/-- The lines of a statement in a context, if its names can be resolved there. -/
def code? (ctx : Context) : Statement → Option (List CodeLine)
  | plain words _ operands => some [⟨.words (words ++ operands.map Token.value), []⟩]
  | jumpAlways label =>
    (ctx.symbols.labels.get? label).map fun target ↦
      [⟨.jump target .always, ctx.notes ("jump to " ++ label)⟩]
  | jumpIf label operator operands =>
    (ctx.symbols.labels.get? label).map fun target ↦
      [⟨.jump target (.compare operator (Control.completed (operands.map Token.value))),
        ctx.notes ("jump to " ++ label)⟩]
  | goto label =>
    (ctx.symbols.labels.get? label).map fun target ↦
      [⟨.jump target .always, ctx.notes ("goto " ++ label)⟩]
  | gosub routine =>
    if ctx.routine = some routine then none
    else
      (ctx.symbols.routines.get? routine).map fun target ↦
        [⟨.storeReturn routine (ctx.emitted + 2), []⟩,
          ⟨.jump target .always, ctx.notes ("gosub " ++ routine)⟩]
  | leave =>
    ctx.routine.map fun routine ↦ [⟨.goBack routine, ctx.notes ("return from " ++ routine)⟩]

end Statement

@[simp] theorem Symbols.labelIndex_eq_ok_iff {s : Symbols} {name : String} {index : Int} :
    s.labelIndex name = .ok index ↔ s.labels.get? name = some index := by
  unfold labelIndex
  cases s.labels.get? name with
  | some i => simp
  | none =>
    dsimp only
    split <;> simp

@[simp] theorem Symbols.routineIndex_eq_ok_iff {s : Symbols} {name : String} {index : Int} :
    s.routineIndex name = .ok index ↔ s.routines.get? name = some index := by
  unfold routineIndex
  cases s.routines.get? name with
  | some i => simp
  | none =>
    dsimp only
    split <;> simp

section Inversion

variable {c d : Cursor}

/-- A name is read where it comes next. -/
theorem Control.readName_eq_ok_iff {control : Control} {what name : String} :
    control.readName what c = .ok name d ↔
      ∃ t, Reader.next c = .ok (some t) d ∧ t.kind = .name ∧ name = t.value := by
  unfold readName
  rw [bind_eq_ok_iff]
  constructor
  · rintro ⟨token, e, hn, h⟩
    generalize hf : token.filter (·.kind == .name) = found at h
    cases found with
    | none => exact absurd h (by simp [bind_eq_ok_iff])
    | some t =>
      obtain ⟨rfl, rfl⟩ := pure_eq_ok_iff.mp h
      obtain ⟨rfl, hk⟩ := Option.filter_eq_some_iff.mp hf
      exact ⟨t, hn, by simpa using hk, rfl⟩
  · rintro ⟨t, hn, hk, rfl⟩
    have hf : (some t).filter (·.kind == .name) = some t := by simp [hk]
    refine ⟨some t, d, hn, ?_⟩
    rw [hf]
    exact pure_eq_ok_iff.mpr ⟨rfl, rfl⟩

/-- When a jump is taken depends on the kind of the next word. -/
theorem Control.readCondition_eq_bind (control : Control) (vars : List String) :
    control.readCondition vars = (Reader.next >>= fun token : Option Token ↦
      if token.any (·.kind == .operator) then
        Slot.readAll vars control.definition comparedSlots >>= fun operands ↦
          pure (.compare (token.elim "" Token.value) (completed operands))
      else if token.any (·.kind == .always) then pure .always
      else Reader.lineOf token >>= fun line ↦
        throw ⟨.expectedComparison (Token.describe? token), line,
          some (.definition control.definition)⟩) := by
  unfold readCondition
  congr 1
  funext token
  rcases token with _ | ⟨kind, value, line, pos⟩
  · rfl
  · cases kind with
    | operator =>
      change (_ >>= _ : Reader Condition) = _ >>= _
      congr 1
      funext operands
      rcases operands with _ | ⟨a, _ | ⟨b, rest⟩⟩ <;> rfl
    | _ => rfl

/-- A condition is an operator with its operands, or the word that stands for none. -/
theorem Control.readCondition_eq_ok_iff {control : Control} {vars : List String}
    {condition : Condition} :
    control.readCondition vars c = .ok condition d ↔
      ∃ t e, Reader.next c = .ok (some t) e ∧
        ((t.kind = .operator ∧ ∃ operands, Slot.readEach vars comparedSlots e = .ok operands d ∧
            condition = .compare t.value (completed operands)) ∨
          (t.kind = .always ∧ e = d ∧ condition = .always)) := by
  unfold readCondition
  rw [bind_eq_ok_iff]
  constructor
  · rintro ⟨token, e, hn, h⟩
    split at h
    · next operator line pos =>
      obtain ⟨operands, f, hr, h⟩ := bind_eq_ok_iff.mp h
      refine ⟨_, e, hn, .inl ⟨rfl, operands, ?_, ?_⟩⟩
      · split at h <;> obtain ⟨-, rfl⟩ := pure_eq_ok_iff.mp h <;>
          simpa [Slot.readAll] using hr
      · split at h
        · exact (pure_eq_ok_iff.mp h).1.symm
        · next hone =>
          rw [← (pure_eq_ok_iff.mp h).1]
          unfold completed
          split
          · next a => exact absurd rfl (hone a)
          · rfl
    · next word line pos =>
      obtain ⟨rfl, rfl⟩ := pure_eq_ok_iff.mp h
      exact ⟨_, e, hn, .inr ⟨rfl, rfl, rfl⟩⟩
    · simp [bind_eq_ok_iff] at h
  · rintro ⟨⟨kind, value, line, pos⟩, e, hn, ⟨hk, operands, hr, rfl⟩ | ⟨hk, rfl, rfl⟩⟩
    · dsimp only at hk
      subst hk
      refine ⟨_, e, hn, bind_eq_ok_iff.mpr ⟨operands, d, by simpa [Slot.readAll] using hr, ?_⟩⟩
      unfold completed
      split <;> simp
    · dsimp only at hk
      subst hk
      exact ⟨_, e, hn, pure_eq_ok_iff.mpr ⟨rfl, rfl⟩⟩

end Inversion

/-- A token that is met inside a line, if it does not end it, is the next one of the line. -/
theorem Cursor.Within.next_some {c d : Cursor} {line : List Token} {rest : List Token} {t : Token}
    (hw : c.Within line (rest.map .token)) (hn : Reader.next c = .ok (some t) d)
    (hk : t.kind ≠ .newline) :
    ∃ left, line = t :: left ∧ d.Within left (rest.map .token) := by
  cases line with
  | nil =>
    obtain ⟨e, -, he | ⟨u, hu, he⟩⟩ := hw.next_nil
    · rw [he] at hn
      cases hn
    · rw [he] at hn
      cases hn
      exact absurd hu hk
  | cons u left =>
    rw [hw.next_cons] at hn
    cases hn
    exact ⟨left, rfl, hw.tail⟩

theorem Operation.emit_eq_ok_iff {op : Operation} {vars words : List String} {c d : Cursor} :
    op.emit vars c = .ok words d ↔
      ∃ operands, Slot.readEach vars op.args c = .ok operands d ∧ words = op.name :: operands := by
  unfold emit Slot.readAll
  simp only [bind_eq_ok_iff, Reader.describing_eq_ok_iff, pure_eq_ok_iff]
  constructor
  · rintro ⟨operands, e, hr, rfl, rfl⟩
    exact ⟨operands, hr, rfl⟩
  · rintro ⟨operands, hr, rfl⟩
    exact ⟨operands, d, hr, rfl, rfl⟩

/-- The slots of the statements of an instruction. -/
def Instruction.slotLists : Instruction → List (List Slot)
  | operation op => [op.args]
  | group g => g.members.map Operation.args
  | control c => [c.slots]

namespace Catalog

/-- A property holds of the slots of every statement. -/
def EverySlots (catalog : Catalog) (P : List Slot → Prop) : Prop :=
  ∀ instruction ∈ catalog.instructions, ∀ slots ∈ instruction.slotLists, P slots

variable {catalog : Catalog} {P : List Slot → Prop} {kind : TokenKind}

theorem EverySlots.operation (h : catalog.EverySlots P) {op : Operation}
    (hl : catalog.find? kind = some (.operation op)) : P op.args :=
  h _ (List.mem_of_find?_eq_some hl) _ (by simp [Instruction.slotLists])

theorem EverySlots.member (h : catalog.EverySlots P) {group : OperationGroup} {op : Operation}
    {pick : TokenKind} (hl : catalog.find? kind = some (.group group))
    (hm : group.member? pick = some op) : P op.args :=
  h _ (List.mem_of_find?_eq_some hl) _
    (List.mem_map.mpr ⟨op, List.mem_of_find?_eq_some hm, rfl⟩)

theorem EverySlots.control (h : catalog.EverySlots P) {control : Control}
    (hl : catalog.find? kind = some (.control control)) : P control.slots :=
  h _ (List.mem_of_find?_eq_some hl) _ (by simp [Instruction.slotLists])

end Catalog

section Soundness

variable {catalog : Catalog} {ctx : Context} {lead : Token} {c d : Cursor}
  {line rest : List Token} {lines : List CodeLine}

/-- What is read after a leading word is a statement of the grammar, and the lines are its lines. -/
def ReadsStatement (catalog : Catalog) (ctx : Context) (lead : Token) (line rest : List Token)
    (lines : List CodeLine) (d : Cursor) : Prop :=
  ∃ used left s, line = used ++ left ∧
    Statement.Written catalog (· ∈ ctx.symbols.vars) s (lead :: used) ∧
    s.code? ctx = some lines ∧ d.At left rest

private theorem Control.emit_jump_within {control : Control}
    (hl : catalog.find? lead.kind = some (.control control)) (hc : control.form = .jump)
    (hw : c.Within line (rest.map .token))
    (hv : NoValueLeads (outline rest) ∨ catalog.EverySlots Slot.OnlyLastOptional)
    (h : control.emit ctx c = .ok lines d) : ReadsStatement catalog ctx lead line rest lines d := by
  simp only [emit, hc] at h
  obtain ⟨label, e, hname, h⟩ := bind_eq_ok_iff.mp h
  obtain ⟨target, f, hres, h⟩ := bind_eq_ok_iff.mp h
  obtain ⟨condition, g, hcond, h⟩ := bind_eq_ok_iff.mp h
  obtain ⟨rfl, rfl⟩ := pure_eq_ok_iff.mp h
  obtain ⟨t, hn, hk, rfl⟩ := readName_eq_ok_iff.mp hname
  obtain ⟨tail, rfl, hwt⟩ := hw.next_some hn (by simp [hk])
  obtain ⟨hget, rfl⟩ := Reader.resolve_eq_ok_iff.mp hres
  rw [Symbols.labelIndex_eq_ok_iff] at hget
  obtain ⟨u, f, hnu, ⟨hu, operands, hr, rfl⟩ | ⟨hu, rfl, rfl⟩⟩ := readCondition_eq_ok_iff.mp hcond
  · obtain ⟨tail, rfl, hwu⟩ := hwt.next_some hnu (by simp [hu])
    obtain ⟨used, left, rfl, hf, rfl, hd⟩ :=
      Slot.readEach_within hwu (hv.imp_right fun _ ↦ by decide) hr
    exact ⟨t :: u :: used, left, _, rfl, .jumpIf hl hc hk hu hf,
      by simp [Statement.code?, hget], hd⟩
  · obtain ⟨tail, rfl, hwu⟩ := hwt.next_some hnu (by simp [hu])
    exact ⟨[t, u], tail, _, rfl, .jumpAlways hl hc hk hu, by simp [Statement.code?, hget], .inl hwu⟩

private theorem Control.emit_goto_within {control : Control}
    (hl : catalog.find? lead.kind = some (.control control)) (hc : control.form = .goto)
    (hw : c.Within line (rest.map .token)) (h : control.emit ctx c = .ok lines d) :
    ReadsStatement catalog ctx lead line rest lines d := by
  simp only [emit, hc] at h
  obtain ⟨label, e, hname, h⟩ := bind_eq_ok_iff.mp h
  obtain ⟨target, f, hres, h⟩ := bind_eq_ok_iff.mp h
  obtain ⟨rfl, rfl⟩ := pure_eq_ok_iff.mp h
  obtain ⟨t, hn, hk, rfl⟩ := readName_eq_ok_iff.mp hname
  obtain ⟨left, rfl, hwt⟩ := hw.next_some hn (by simp [hk])
  obtain ⟨hget, rfl⟩ := Reader.resolve_eq_ok_iff.mp hres
  rw [Symbols.labelIndex_eq_ok_iff] at hget
  exact ⟨[t], left, _, rfl, .goto hl hc hk, by simp [Statement.code?, hget], .inl hwt⟩

private theorem Control.emit_gosub_within {control : Control}
    (hl : catalog.find? lead.kind = some (.control control)) (hc : control.form = .gosub)
    (hw : c.Within line (rest.map .token)) (h : control.emit ctx c = .ok lines d) :
    ReadsStatement catalog ctx lead line rest lines d := by
  simp only [emit, hc] at h
  obtain ⟨routine, e, hname, h⟩ := bind_eq_ok_iff.mp h
  obtain ⟨t, hn, hk, rfl⟩ := readName_eq_ok_iff.mp hname
  obtain ⟨left, rfl, hwt⟩ := hw.next_some hn (by simp [hk])
  by_cases hself : ctx.routine = some t.value
  · simp [hself, bind_eq_ok_iff] at h
  · simp only [hself, if_false] at h
    obtain ⟨target, f, hres, h⟩ := bind_eq_ok_iff.mp h
    obtain ⟨rfl, rfl⟩ := pure_eq_ok_iff.mp h
    obtain ⟨hget, rfl⟩ := Reader.resolve_eq_ok_iff.mp hres
    rw [Symbols.routineIndex_eq_ok_iff] at hget
    exact ⟨[t], left, _, rfl, .gosub hl hc hk, by simp [Statement.code?, hself, hget], .inl hwt⟩

private theorem Control.emit_leave_within {control : Control}
    (hl : catalog.find? lead.kind = some (.control control)) (hc : control.form = .leave)
    (hw : c.Within line (rest.map .token)) (h : control.emit ctx c = .ok lines d) :
    ReadsStatement catalog ctx lead line rest lines d := by
  simp only [emit, hc] at h
  cases hr : ctx.routine with
  | none => simp [hr] at h
  | some routine =>
    simp only [hr] at h
    obtain ⟨rfl, rfl⟩ := pure_eq_ok_iff.mp h
    exact ⟨[], line, _, rfl, .leave hl hc, by simp [Statement.code?, hr], .inl hw⟩

private theorem Control.emit_compute_within {control : Control}
    (hl : catalog.find? lead.kind = some (.control control)) (hc : control.form = .compute)
    (hw : c.Within line (rest.map .token))
    (hv : NoValueLeads (outline rest) ∨ catalog.EverySlots Slot.OnlyLastOptional)
    (h : control.emit ctx c = .ok lines d) : ReadsStatement catalog ctx lead line rest lines d := by
  simp only [emit, hc, Slot.readAll] at h
  obtain ⟨operands, e, hr, h⟩ := bind_eq_ok_iff.mp h
  obtain ⟨rfl, rfl⟩ := pure_eq_ok_iff.mp h
  rw [Reader.describing_eq_ok_iff] at hr
  obtain ⟨used, left, rfl, hf, rfl, hd⟩ := Slot.readEach_within hw (hv.imp_right (·.control hl)) hr
  exact ⟨used, left, _, rfl, .compute hl hc hf, rfl, hd⟩

/-- What an instruction reads is a statement of the grammar. -/
private theorem Instruction.emit_within {instruction : Instruction}
    (hl : catalog.find? lead.kind = some instruction) (hw : c.Within line (rest.map .token))
    (hv : NoValueLeads (outline rest) ∨ catalog.EverySlots Slot.OnlyLastOptional)
    (h : instruction.emit ctx c = .ok lines d) :
    ReadsStatement catalog ctx lead line rest lines d := by
  cases instruction with
  | operation op =>
    obtain ⟨words, e, ho, h⟩ := bind_eq_ok_iff.mp h
    obtain ⟨rfl, rfl⟩ := pure_eq_ok_iff.mp h
    obtain ⟨operands, hr, rfl⟩ := Operation.emit_eq_ok_iff.mp ho
    obtain ⟨used, left, rfl, hf, rfl, hd⟩ :=
      Slot.readEach_within hw (hv.imp_right (·.operation hl)) hr
    exact ⟨used, left, _, rfl, .operation hl hf, rfl, hd⟩
  | group g =>
    obtain ⟨op, e, hs, h⟩ := bind_eq_ok_iff.mp h
    obtain ⟨words, f, ho, h⟩ := bind_eq_ok_iff.mp h
    obtain ⟨rfl, rfl⟩ := pure_eq_ok_iff.mp h
    obtain ⟨t, hn, hk, hm⟩ := OperationGroup.select_eq_ok_iff.mp hs
    obtain ⟨tail, rfl, hwt⟩ := hw.next_some hn hk
    obtain ⟨operands, hr, rfl⟩ := Operation.emit_eq_ok_iff.mp ho
    obtain ⟨used, left, rfl, hf, rfl, hd⟩ :=
      Slot.readEach_within hwt (hv.imp_right (·.member hl hm)) hr
    exact ⟨t :: used, left, _, rfl, .member hl hm hf, rfl, hd⟩
  | control control =>
    replace h : control.emit ctx c = .ok lines d := h
    cases hc : control.form with
    | jump => exact control.emit_jump_within hl hc hw hv h
    | goto => exact control.emit_goto_within hl hc hw h
    | gosub => exact control.emit_gosub_within hl hc hw h
    | leave => exact control.emit_leave_within hl hc hw h
    | compute => exact control.emit_compute_within hl hc hw hv h
    | undefined => simp [Control.emit, hc] at h

/-- A line that gives code is a statement of the grammar, it gives its lines, and they are as many
as its instruction declares. -/
theorem Catalog.emitStatement_within (hw : c.Within line (rest.map .token))
    (hv : NoValueLeads (outline rest) ∨ catalog.EverySlots Slot.OnlyLastOptional)
    (h : catalog.emitStatement ctx lead c = .ok lines d) :
    ∃ instruction s, catalog.find? lead.kind = some instruction ∧
      Statement.Written catalog (· ∈ ctx.symbols.vars) s (lead :: line) ∧
      s.code? ctx = some lines ∧ (lines.length : Int) = instruction.emits ∧
      d.Beyond (outline rest) := by
  unfold emitStatement at h
  cases hl : catalog.find? lead.kind with
  | none => simp [hl] at h
  | some instruction =>
    simp only [hl] at h
    obtain ⟨lines', e, hi, h⟩ := bind_eq_ok_iff.mp h
    obtain ⟨_, f, he, h⟩ := bind_eq_ok_iff.mp h
    split at h
    · next hn =>
      obtain ⟨rfl, rfl⟩ := pure_eq_ok_iff.mp h
      obtain ⟨used, left, s, rfl, hs, hcode, hd⟩ := Instruction.emit_within hl hw hv hi
      obtain ⟨rfl, hb⟩ := Reader.endLine_eq_ok hd he
      exact ⟨instruction, s, rfl, by simpa using hs, hcode, hn, hb⟩
    · simp at h

end Soundness

section Completeness

variable {catalog : Catalog} {ctx : Context} {lead : Token} {c : Cursor}
  {line rest : List Token} {lines : List CodeLine} {s : Statement}

/-- The instruction of a statement of the grammar reads its operands. -/
private theorem Statement.Written.exists_emit_eq_ok
    (hs : s.Written catalog (· ∈ ctx.symbols.vars) (lead :: line))
    (ho : catalog.EverySlots Slot.OnlyLastOptional) (hcode : s.code? ctx = some lines)
    (hw : c.Within line (rest.map .token)) :
    ∃ instruction d, catalog.find? lead.kind = some instruction ∧
      instruction.emit ctx c = .ok lines d ∧ d.At [] rest := by
  cases hs with
  | operation hl hf =>
    obtain ⟨d, hr, hd⟩ := Slot.exists_readEach_eq_ok hf (ho.operation hl) hw
    cases hcode
    refine ⟨_, d, hl, bind_eq_ok_iff.mpr ⟨_, d, ?_, pure_eq_ok_iff.mpr ⟨rfl, rfl⟩⟩, hd⟩
    exact Operation.emit_eq_ok_iff.mpr ⟨_, hr, rfl⟩
  | member hl hm hf =>
    obtain ⟨d, hr, hd⟩ := Slot.exists_readEach_eq_ok hf (ho.member hl hm) hw.tail
    cases hcode
    have hselect := OperationGroup.select_eq_ok_iff.mpr
      ⟨_, hw.next_cons, hw.plain _ List.mem_cons_self, hm⟩
    have hemit := Operation.emit_eq_ok_iff.mpr ⟨_, hr, rfl⟩
    refine ⟨_, d, hl, bind_eq_ok_iff.mpr ⟨_, _, hselect, ?_⟩, hd⟩
    exact bind_eq_ok_iff.mpr ⟨_, d, hemit, pure_eq_ok_iff.mpr ⟨rfl, rfl⟩⟩
  | @compute _ control _ hl hc hf =>
    obtain ⟨d, hr, hd⟩ := Slot.exists_readEach_eq_ok hf (ho.control hl) hw
    cases hcode
    refine ⟨_, d, hl, ?_, hd⟩
    simp only [Instruction.emit, Control.emit, hc, Slot.readAll]
    refine bind_eq_ok_iff.mpr ⟨_, d, Reader.describing_eq_ok_iff.mpr hr, ?_⟩
    exact pure_eq_ok_iff.mpr ⟨rfl, rfl⟩
  | jumpAlways hl hc hn ha =>
    obtain ⟨target, hget, rfl⟩ := Option.map_eq_some_iff.mp hcode
    refine ⟨_, _, hl, ?_, .inl hw.tail.tail⟩
    simp only [Instruction.emit, Control.emit, hc]
    refine bind_eq_ok_iff.mpr ⟨_, _, Control.readName_eq_ok_iff.mpr ⟨_, hw.next_cons, hn, rfl⟩, ?_⟩
    refine bind_eq_ok_iff.mpr ⟨target, _, Reader.resolve_eq_ok_iff.mpr ⟨by simp [hget], rfl⟩, ?_⟩
    refine bind_eq_ok_iff.mpr ⟨.always, _, Control.readCondition_eq_ok_iff.mpr
      ⟨_, _, hw.tail.next_cons, .inr ⟨ha, rfl, rfl⟩⟩, ?_⟩
    exact pure_eq_ok_iff.mpr ⟨rfl, rfl⟩
  | jumpIf hl hc hn hop hf =>
    obtain ⟨target, hget, rfl⟩ := Option.map_eq_some_iff.mp hcode
    obtain ⟨d, hr, hd⟩ := Slot.exists_readEach_eq_ok hf (by decide) hw.tail.tail
    refine ⟨_, d, hl, ?_, hd⟩
    simp only [Instruction.emit, Control.emit, hc]
    refine bind_eq_ok_iff.mpr ⟨_, _, Control.readName_eq_ok_iff.mpr ⟨_, hw.next_cons, hn, rfl⟩, ?_⟩
    refine bind_eq_ok_iff.mpr ⟨target, _, Reader.resolve_eq_ok_iff.mpr ⟨by simp [hget], rfl⟩, ?_⟩
    refine bind_eq_ok_iff.mpr ⟨_, d, Control.readCondition_eq_ok_iff.mpr
      ⟨_, _, hw.tail.next_cons, .inl ⟨hop, _, hr, rfl⟩⟩, ?_⟩
    exact pure_eq_ok_iff.mpr ⟨rfl, rfl⟩
  | goto hl hc hn =>
    obtain ⟨target, hget, rfl⟩ := Option.map_eq_some_iff.mp hcode
    refine ⟨_, _, hl, ?_, .inl hw.tail⟩
    simp only [Instruction.emit, Control.emit, hc]
    refine bind_eq_ok_iff.mpr ⟨_, _, Control.readName_eq_ok_iff.mpr ⟨_, hw.next_cons, hn, rfl⟩, ?_⟩
    refine bind_eq_ok_iff.mpr ⟨target, _, Reader.resolve_eq_ok_iff.mpr ⟨by simp [hget], rfl⟩, ?_⟩
    exact pure_eq_ok_iff.mpr ⟨rfl, rfl⟩
  | @gosub _ routine _ hl hc hn =>
    have hself : ctx.routine ≠ some routine.value := by
      intro hself
      simp [code?, hself] at hcode
    simp only [code?, hself, if_false] at hcode
    obtain ⟨target, hget, rfl⟩ := Option.map_eq_some_iff.mp hcode
    refine ⟨_, _, hl, ?_, .inl hw.tail⟩
    simp only [Instruction.emit, Control.emit, hc]
    refine bind_eq_ok_iff.mpr ⟨_, _, Control.readName_eq_ok_iff.mpr ⟨_, hw.next_cons, hn, rfl⟩, ?_⟩
    simp only [hself, if_false]
    refine bind_eq_ok_iff.mpr ⟨target, _, Reader.resolve_eq_ok_iff.mpr ⟨by simp [hget], rfl⟩, ?_⟩
    exact pure_eq_ok_iff.mpr ⟨rfl, rfl⟩
  | leave hl hc =>
    obtain ⟨routine, hr, rfl⟩ := Option.map_eq_some_iff.mp hcode
    refine ⟨_, c, hl, ?_, .inl hw⟩
    simp only [Instruction.emit, Control.emit, hc, hr]
    exact pure_eq_ok_iff.mpr ⟨rfl, rfl⟩

/-- A statement of the grammar that fills its line gives its lines, if they are as many as its
instruction declares. -/
theorem Statement.Written.exists_emitStatement_eq_ok
    (hs : s.Written catalog (· ∈ ctx.symbols.vars) (lead :: line))
    (ho : catalog.EverySlots Slot.OnlyLastOptional) (hcode : s.code? ctx = some lines)
    (hn : ∀ instruction, catalog.find? lead.kind = some instruction →
      (lines.length : Int) = instruction.emits)
    (hw : c.Within line (rest.map .token)) :
    ∃ d, catalog.emitStatement ctx lead c = .ok lines d ∧ d.Beyond (outline rest) := by
  obtain ⟨instruction, d, hl, hi, hd⟩ := hs.exists_emit_eq_ok ho hcode hw
  obtain ⟨e, he, hb⟩ := Reader.exists_endLine_eq_ok hd
  refine ⟨e, ?_, hb⟩
  simp only [Catalog.emitStatement, hl]
  refine bind_eq_ok_iff.mpr ⟨lines, d, hi, bind_eq_ok_iff.mpr ⟨(), e, he, ?_⟩⟩
  rw [if_pos (hn instruction hl)]
  exact pure_eq_ok_iff.mpr ⟨rfl, rfl⟩

end Completeness
end MlogAsm
