import MlogAsm.Proofs.Language

/-!
# Write targets

Which operands an emission takes for which slots, and that the variables of a program are the names
among those that it takes for slots that are written. A survey finds them by their places on the
line and checks no other operand, while an emission reads slot after slot. The two meet at the
elements of the text, each of which has its targets by the catalog alone.
-/

namespace MlogAsm

/-- The operands that were taken for slots, in order. -/
abbrev OperandLog := List (Slot × Token)

namespace OperandLog

/-- The operands that were taken for slots that are written. -/
def targets (log : OperandLog) : List Token :=
  (log.filter fun x ↦ x.1.writes).map Prod.snd

/-- The lexemes that were taken. -/
def lexemes (log : OperandLog) : List Lexeme :=
  log.map fun x ↦ .token x.2

theorem targets_append (log more : OperandLog) :
    targets (log ++ more) = targets log ++ targets more := by
  simp [targets]

private theorem lexemes_append (log more : OperandLog) :
    lexemes (log ++ more) = lexemes log ++ lexemes more := by
  simp [lexemes]

/-- The operands of a line have the targets of its slots. -/
private theorem targets_zip (slots : List Slot) (line : List Token) :
    targets (slots.zip line) = Slot.targets slots line :=
  rfl

theorem targets_eq_nil {log : OperandLog} (h : ∀ x ∈ log, x.1.writes = false) :
    targets log = [] := by
  unfold targets
  rw [List.map_eq_nil_iff, List.filter_eq_nil_iff]
  intro x hx
  simp [h x hx]

end OperandLog

/-- What is ahead of a cursor was ahead before. -/
private theorem Cursor.Passes.sublist_rest {c d : Cursor} (h : c.Passes d) :
    d.rest.Sublist c.rest := by
  obtain ⟨ts, hts⟩ := h.exists_tokens
  rw [hts]
  exact List.sublist_append_right _ _

namespace Slot

/-- Slots take their operands one after the other. An optional slot may stay empty. -/
inductive Takes (vars : List String) : List Slot → Cursor → OperandLog → Cursor → Prop where
  | done {c : Cursor} : Takes vars [] c [] c
  | operand {slot : Slot} {slots : List Slot} {t : Token} {c e d : Cursor} {log : OperandLog}
      (hn : Reader.next c = .ok (some t) e) (hr : slot.read vars c = .ok (some t.value) e)
      (hs : Takes vars slots e log d) : Takes vars (slot :: slots) c ((slot, t) :: log) d
  | empty {slot : Slot} {slots : List Slot} {c e d : Cursor} {log : OperandLog}
      (hr : slot.read vars c = .ok none e) (hs : Takes vars slots e log d) :
      Takes vars (slot :: slots) c log d

variable {vars : List String} {slots : List Slot} {c d : Cursor} {log : OperandLog}

/-- Slots that are read take operands. -/
private theorem exists_takes_of_readEach {operands : List String}
    (h : readEach vars slots c = .ok operands d) : ∃ log, Takes vars slots c log d := by
  induction slots generalizing c operands with
  | nil =>
    obtain ⟨-, rfl⟩ := pure_eq_ok_iff.mp h
    exact ⟨[], .done⟩
  | cons slot slots ih =>
    obtain ⟨operand, e, rest, hr, hs, -⟩ := readEach_cons_eq_ok_iff.mp h
    obtain ⟨log, hlog⟩ := ih hs
    rcases read_eq_ok_iff.mp hr with ⟨-, -, rfl⟩ | ⟨t, hn, ⟨-, -, rfl⟩ | ⟨-, rfl⟩⟩
    · exact ⟨log, .empty hr hlog⟩
    · exact ⟨log, .empty hr hlog⟩
    · exact ⟨(slot, t) :: log, .operand hn hr hlog⟩

private theorem Takes.mem_slots (h : Takes vars slots c log d) : ∀ x ∈ log, x.1 ∈ slots := by
  induction h with
  | done => simp
  | operand _ _ _ ih =>
    intro x hx
    rcases List.mem_cons.mp hx with rfl | hx
    · exact List.mem_cons_self
    · exact List.mem_cons_of_mem _ (ih x hx)
  | empty _ _ ih =>
    intro x hx
    exact List.mem_cons_of_mem _ (ih x hx)

/-- Operands are taken in the order of the text. -/
theorem Takes.sublist (h : Takes vars slots c log d) : (log.lexemes ++ d.rest).Sublist c.rest := by
  induction h with
  | done => exact List.Sublist.refl _
  | @operand _ _ t _ _ _ _ hn _ _ ih =>
    obtain ⟨tail, hrest, rfl⟩ := Reader.next_eq_ok_some_iff.mp hn
    rw [hrest]
    exact ih.cons_cons (.token t)
  | empty hr _ ih => exact ih.trans ((forward_read vars _).ok hr).sublist_rest

/-- An operand that is taken fits. -/
private theorem fits_of_read {slot : Slot} {t : Token} {value : String}
    (hn : Reader.next c = .ok (some t) d) (hr : slot.read vars c = .ok (some value) d) :
    slot.Fits (· ∈ vars) t := by
  rcases read_eq_ok_iff.mp hr with ⟨-, -, hv⟩ | ⟨u, hu, ⟨-, -, hv⟩ | ⟨hf, -⟩⟩
  · cases hv
  · cases hv
  · rw [hn] at hu
    cases hu
    exact hf

/-- Only at the end of the line a slot stays empty. -/
private theorem eq_nil_of_read_none {slot : Slot} {line : List Token} {rest : List Lexeme}
    (hw : c.Within line rest) (hr : slot.read vars c = .ok none d) :
    line = [] ∧ slot.optional = true := by
  cases line with
  | nil =>
    refine ⟨rfl, ?_⟩
    rcases read_eq_ok_iff.mp hr with ⟨-, ho, -⟩ | ⟨t, -, ⟨-, ho, -⟩ | ⟨-, hv⟩⟩
    · exact ho
    · exact ho
    · cases hv
  | cons t line =>
    have hn := hw.next_cons
    rcases read_eq_ok_iff.mp hr with ⟨hnone, -, -⟩ | ⟨u, hu, ⟨hk, -, -⟩ | ⟨-, hv⟩⟩
    · rw [hn] at hnone
      cases hnone
    · rw [hn] at hu
      cases hu
      exact absurd hk (hw.plain t List.mem_cons_self)
    · cases hv

/-- Within a line the slots take the tokens of the line, one each. -/
private theorem Takes.eq_zip (h : Takes vars slots c log d) (ho : OnlyLastOptional slots)
    {line rest : List Token} (hw : c.Within line (rest.map .token)) : log = slots.zip line := by
  induction h generalizing line with
  | done => rfl
  | operand hn hr _ ih =>
    have hvalue := (fits_of_read hn hr).isValue
    have hplain := TokenKind.ne_newline_of_leads (TokenKind.leads_of_isValue hvalue)
    obtain ⟨left, rfl, hleft⟩ := hw.next_some hn hplain
    rw [ih ho.tail hleft]
    rfl
  | empty hr hs =>
    obtain ⟨rfl, hoptional⟩ := eq_nil_of_read_none hw hr
    obtain rfl := ho.eq_nil hoptional
    cases hs
    rfl

end Slot

/-- The operands that an instruction takes behind the word that leads it. Names of labels and
routines stand in no slot. -/
inductive Instruction.Takes (ctx : Context) :
    Instruction → Cursor → OperandLog → Cursor → Prop where
  | operation {op : Operation} {c d : Cursor} {log : OperandLog}
      (hs : Slot.Takes ctx.symbols.vars op.args c log d) : Takes ctx (.operation op) c log d
  | member {g : OperationGroup} {op : Operation} {c e d : Cursor} {log : OperandLog}
      (hg : g.select c = .ok op e) (hs : Slot.Takes ctx.symbols.vars op.args e log d) :
      Takes ctx (.group g) c log d
  | compute {control : Control} {c d : Cursor} {log : OperandLog} (hc : control.form = .compute)
      (hs : Slot.Takes ctx.symbols.vars control.slots c log d) :
      Takes ctx (.control control) c log d
  | compare {control : Control} {label : String} {t : Token} {c e f d : Cursor} {log : OperandLog}
      (hc : control.form = .jump) (hl : control.readName "label" c = .ok label e)
      (hn : Reader.next e = .ok (some t) f) (hk : t.kind = .operator)
      (hs : Slot.Takes ctx.symbols.vars Control.comparedSlots f log d) :
      Takes ctx (.control control) c log d
  | always {control : Control} {label : String} {t : Token} {c e d : Cursor}
      (hc : control.form = .jump) (hl : control.readName "label" c = .ok label e)
      (hn : Reader.next e = .ok (some t) d) (hk : t.kind = .always) :
      Takes ctx (.control control) c [] d
  | unslotted {control : Control} {c d : Cursor} {lines : List CodeLine}
      (hc : control.form ≠ .compute) (hj : control.form ≠ .jump)
      (he : control.emit ctx c = .ok lines d) : Takes ctx (.control control) c [] d

namespace Instruction

variable {ctx : Context} {instruction : Instruction} {c d : Cursor} {log : OperandLog}

/-- An instruction that gives lines takes operands. -/
private theorem exists_takes_of_emit {lines : List CodeLine}
    (h : instruction.emit ctx c = .ok lines d) :
    ∃ log, instruction.Takes ctx c log d := by
  cases instruction with
  | operation op =>
    obtain ⟨words, e, ho, h⟩ := bind_eq_ok_iff.mp h
    obtain ⟨-, rfl⟩ := pure_eq_ok_iff.mp h
    obtain ⟨operands, hr, -⟩ := Operation.emit_eq_ok_iff.mp ho
    obtain ⟨log, hs⟩ := Slot.exists_takes_of_readEach hr
    exact ⟨log, .operation hs⟩
  | group g =>
    obtain ⟨op, e, hg, h⟩ := bind_eq_ok_iff.mp h
    obtain ⟨words, f, ho, h⟩ := bind_eq_ok_iff.mp h
    obtain ⟨-, rfl⟩ := pure_eq_ok_iff.mp h
    obtain ⟨operands, hr, -⟩ := Operation.emit_eq_ok_iff.mp ho
    obtain ⟨log, hs⟩ := Slot.exists_takes_of_readEach hr
    exact ⟨log, .member hg hs⟩
  | control control =>
    replace h : control.emit ctx c = .ok lines d := h
    by_cases hcompute : control.form = .compute
    · simp only [Control.emit, hcompute, Slot.readAll] at h
      obtain ⟨operands, e, hr, h⟩ := bind_eq_ok_iff.mp h
      obtain ⟨-, rfl⟩ := pure_eq_ok_iff.mp h
      obtain ⟨log, hs⟩ := Slot.exists_takes_of_readEach (Reader.describing_eq_ok_iff.mp hr)
      exact ⟨log, .compute hcompute hs⟩
    · by_cases hjump : control.form = .jump
      · simp only [Control.emit, hjump] at h
        obtain ⟨label, e, hl, h⟩ := bind_eq_ok_iff.mp h
        obtain ⟨target, f, hres, h⟩ := bind_eq_ok_iff.mp h
        obtain ⟨condition, g, hcond, h⟩ := bind_eq_ok_iff.mp h
        obtain ⟨-, rfl⟩ := pure_eq_ok_iff.mp h
        obtain ⟨-, rfl⟩ := Reader.resolve_eq_ok_iff.mp hres
        obtain ⟨t, i, hn, ⟨hk, operands, hr, -⟩ | ⟨hk, rfl, -⟩⟩ :=
          Control.readCondition_eq_ok_iff.mp hcond
        · obtain ⟨log, hs⟩ := Slot.exists_takes_of_readEach hr
          exact ⟨log, .compare hjump hl hn hk hs⟩
        · exact ⟨[], .always hjump hl hn hk⟩
      · exact ⟨[], .unslotted hcompute hjump h⟩

/-- Operands are taken in the order of the text. -/
theorem Takes.sublist (h : instruction.Takes ctx c log d) :
    (log.lexemes ++ d.rest).Sublist c.rest := by
  cases h with
  | operation hs | compute _ hs => exact hs.sublist
  | member hg hs => exact hs.sublist.trans ((OperationGroup.forward_select _).ok hg).sublist_rest
  | compare _ hl hn _ hs =>
    have hpass := ((Control.forward_readName _ _).ok hl).trans (Reader.forward_next.ok hn)
    exact hs.sublist.trans hpass.sublist_rest
  | always _ hl hn _ =>
    exact (((Control.forward_readName _ _).ok hl).trans (Reader.forward_next.ok hn)).sublist_rest
  | unslotted _ _ he => exact ((Control.forward_emit _ ctx).ok he).sublist_rest

end Instruction

/-- The operands that a clause writes to, by the slots of its instruction. -/
def Catalog.targets (catalog : Catalog) : Element → List Token
  | .clause lead operands =>
    ((catalog.find? lead.kind).bind (·.arranged? operands)).elim [] fun x ↦ Slot.targets x.1 x.2
  | _ => []

private theorem Catalog.targets_clause {catalog : Catalog} {lead : Token}
    {operands args : List Token} {instruction : Instruction} {slots : List Slot}
    (hl : catalog.find? lead.kind = some instruction)
    (ha : instruction.arranged? operands = some (slots, args)) :
    catalog.targets (.clause lead operands) = Slot.targets slots args := by
  rw [targets, hl, Option.bind_some, ha]
  rfl

/-- The operands that an instruction takes for written slots are the targets of its clause. -/
theorem Instruction.Takes.targets_eq {catalog : Catalog} (hr : catalog.Regular) {ctx : Context}
    {instruction : Instruction} {c d : Cursor} {log : OperandLog} {lead : Token}
    {line rest : List Token} (hl : catalog.find? lead.kind = some instruction)
    (hw : c.Within line (rest.map .token)) (h : instruction.Takes ctx c log d) :
    log.targets = catalog.targets (.clause lead line) := by
  cases h with
  | operation hs =>
    rw [hs.eq_zip (hr.onlyLastOptional.operation hl) hw, Catalog.targets_clause hl rfl,
      OperandLog.targets_zip]
  | @member g op _ _ _ _ hg hs =>
    obtain ⟨t, hn, hk, hm⟩ := OperationGroup.select_eq_ok_iff.mp hg
    obtain ⟨left, rfl, hleft⟩ := hw.next_some hn hk
    have harranged : (group g).arranged? (t :: left) = some (op.args, left) := by
      simp [arranged?, hm]
    rw [hs.eq_zip (hr.onlyLastOptional.member hl hm) hleft, Catalog.targets_clause hl harranged,
      OperandLog.targets_zip]
  | compute _ hs =>
    rw [hs.eq_zip (hr.onlyLastOptional.control hl) hw, Catalog.targets_clause hl rfl,
      OperandLog.targets_zip]
  | compare hc _ _ _ hs =>
    have hreads : ∀ slot ∈ Control.comparedSlots, slot.writes = false := by decide
    rw [OperandLog.targets_eq_nil fun x hx ↦ hreads _ (hs.mem_slots x hx),
      Catalog.targets_clause hl rfl, Statement.slots_eq_nil_of_form hr hl (by simp [hc])]
    rfl
  | always hc =>
    rw [Catalog.targets_clause hl rfl, Statement.slots_eq_nil_of_form hr hl (by simp [hc])]
    rfl
  | unslotted hc =>
    rw [Catalog.targets_clause hl rfl, Statement.slots_eq_nil_of_form hr hl hc]
    rfl

namespace Emission

variable {catalog : Catalog} {symbols : Symbols} {s : Emission} {log : OperandLog}

/-- The operands that an emission takes from a state to the end of the text. -/
inductive Takes (catalog : Catalog) (symbols : Symbols) : Emission → OperandLog → Prop where
  | finished {s : Emission} {c : Cursor} (hn : Reader.next s.cursor = .ok none c) :
      Takes catalog symbols s []
  | newline {s : Emission} {c : Cursor} {t : Token} {log : OperandLog}
      (hn : Reader.next s.cursor = .ok (some t) c) (hk : t.kind = .newline)
      (ht : Takes catalog symbols { s with cursor := c } log) : Takes catalog symbols s log
  | mark {s s' : Emission} {c : Cursor} {t : Token} {log : OperandLog}
      (hn : Reader.next s.cursor = .ok (some t) c) (hm : s.marked? t c = some s')
      (ht : Takes catalog symbols s' log) : Takes catalog symbols s log
  | statement {s : Emission} {c d e : Cursor} {t : Token} {instruction : Instruction}
      {lines : List CodeLine} {log more : OperandLog}
      (hn : Reader.next s.cursor = .ok (some t) c) (hk : t.kind.leads = true)
      (hl : catalog.find? t.kind = some instruction)
      (hi : instruction.Takes (s.context symbols) c log d) (hend : Reader.endLine d = .ok () e)
      (he : catalog.emitStatement (s.context symbols) t c = .ok lines e)
      (ht : Takes catalog symbols
        { s with cursor := e, pending := none, emitted := s.emitted + lines.length } more) :
      Takes catalog symbols s (log ++ more)

/-- An emission that succeeds takes operands. -/
theorem Visits.exists_takes {visits : List Visit} (hv : Visits catalog symbols s visits) :
    ∃ log, Takes catalog symbols s log := by
  induction hv with
  | finished hn => exact ⟨[], .finished hn⟩
  | newline hn hk _ ih =>
    obtain ⟨log, ht⟩ := ih
    exact ⟨log, .newline hn hk ht⟩
  | mark hn hm _ ih =>
    obtain ⟨log, ht⟩ := ih
    exact ⟨log, .mark hn hm ht⟩
  | @statement s c e t lines visits hn hk he _ ih =>
    obtain ⟨more, ht⟩ := ih
    have h := he
    unfold Catalog.emitStatement at h
    cases hl : catalog.find? t.kind with
    | none => simp [hl] at h
    | some instruction =>
      simp only [hl] at h
      obtain ⟨lines', d, hemit, h⟩ := bind_eq_ok_iff.mp h
      obtain ⟨_, f, hend, h⟩ := bind_eq_ok_iff.mp h
      obtain ⟨log, hi⟩ := Instruction.exists_takes_of_emit hemit
      have hf : f = e := by
        split at h
        · exact (pure_eq_ok_iff.mp h).2
        · simp at h
      subst hf
      exact ⟨log ++ more, .statement hn hk hl hi hend he ht⟩

private theorem cursor_of_marked? {s' : Emission} {t : Token} {c : Cursor}
    (h : s.marked? t c = some s') : s'.cursor = c := by
  rcases marked?_eq_some_iff.mp h with ⟨-, rfl⟩ | ⟨-, rfl⟩ | ⟨-, rfl⟩ <;> rfl

/-- Over a whole emission operands are taken in the order of the text. -/
theorem Takes.sublist (h : Takes catalog symbols s log) : log.lexemes.Sublist s.cursor.rest := by
  induction h with
  | finished => exact List.nil_sublist _
  | newline hn _ _ ih => exact ih.trans (Reader.forward_next.ok hn).sublist_rest
  | mark hn hm _ ih =>
    rw [cursor_of_marked? hm] at ih
    exact ih.trans (Reader.forward_next.ok hn).sublist_rest
  | @statement _ _ _ _ _ _ _ log more hn _ _ hi hend _ _ ih =>
    have hmore := ih.trans (Reader.forward_endLine.ok hend).sublist_rest
    rw [OperandLog.lexemes_append]
    exact ((hmore.append_left log.lexemes).trans hi.sublist).trans
      (Reader.forward_next.ok hn).sublist_rest

/-- Over a whole emission the operands that are taken for written slots are the targets of the
clauses. -/
theorem Takes.targets_eq (h : Takes catalog symbols s log) (hr : catalog.Regular)
    {ts : List Token} (hts : s.cursor.rest = ts.map .token) :
    log.targets = (outline ts).flatMap catalog.targets := by
  induction h generalizing ts with
  | finished hn =>
    obtain ⟨hnil, -⟩ := Reader.next_eq_ok_none_iff.mp hn
    rw [hts] at hnil
    rw [List.map_eq_nil_iff.mp hnil, outline_nil]
    rfl
  | newline hn hk _ ih =>
    obtain ⟨us, rfl, rfl⟩ := Reader.next_of_rest_eq hts hn
    rw [outline_newline hk]
    exact ih rfl
  | mark hn hm _ ih =>
    obtain ⟨us, rfl, rfl⟩ := Reader.next_of_rest_eq hts hn
    rcases marked?_eq_some_iff.mp hm with ⟨hk, rfl⟩ | ⟨hk, rfl⟩ | ⟨hk, rfl⟩
    · rw [outline_label hk]
      exact ih rfl
    · rw [outline_routine hk]
      exact ih rfl
    · rw [outline_endRoutine hk]
      exact ih rfl
  | @statement _ _ _ _ _ _ _ log more hn hk hl hi _ he _ ih =>
    obtain ⟨us, rfl, rfl⟩ := Reader.next_of_rest_eq hts hn
    obtain ⟨line, rest, rfl, hp, ho⟩ := exists_line us
    have hw := Cursor.within_past hk hp ho
    obtain ⟨-, -, -, -, -, -, -, ws, hws, hout⟩ :=
      Catalog.emitStatement_within hw (.inr hr.onlyLastOptional) he
    rw [OperandLog.targets_append, ih hws, hout, hi.targets_eq hr hl hw, outline_clause hk hp ho,
      List.flatMap_cons]

end Emission

/-- The names among tokens. -/
def Token.names (ts : List Token) : List String :=
  (ts.filter (·.kind == .name)).map value

namespace Symbols

/-- Which variables are made does not depend on anything but those there are. -/
private theorem vars_addTargets_congr {s s' : Symbols} (h : s.vars = s'.vars) (ts : List Token) :
    (s.addTargets ts).vars = (s'.addTargets ts).vars := by
  induction ts generalizing s s' with
  | nil => exact h
  | cons t ts ih =>
    rw [addTargets_cons, addTargets_cons]
    apply ih
    split
    · unfold addVariable
      rw [h]
      split
      · exact h
      · rfl
    · exact h

private theorem nodup_vars_addVariable {s : Symbols} (h : s.vars.Nodup) (name : String) :
    (s.addVariable name).vars.Nodup := by
  unfold addVariable
  split
  · exact h
  · next hnew =>
    rw [List.nodup_append]
    refine ⟨h, by simp, ?_⟩
    intro known hknown other hother
    rw [List.mem_singleton.mp hother]
    rintro rfl
    exact hnew (by simpa using hknown)

/-- No variable is listed twice. -/
theorem nodup_vars_addTargets {s : Symbols} (h : s.vars.Nodup) (ts : List Token) :
    (s.addTargets ts).vars.Nodup := by
  induction ts generalizing s with
  | nil => exact h
  | cons t ts ih =>
    rw [addTargets_cons]
    apply ih
    split
    · exact nodup_vars_addVariable h t.value
    · exact h

private theorem vars_addVariable {s : Symbols} {names : List String} (h : s.vars = names.eraseDups)
    (name : String) : (s.addVariable name).vars = (names ++ [name]).eraseDups := by
  have hmem : s.vars.contains name = true ↔ name ∈ names := by
    rw [h, List.contains_iff_mem, List.mem_eraseDups]
  rw [List.eraseDups_append]
  unfold addVariable
  by_cases hname : name ∈ names
  · rw [if_pos (hmem.mpr hname), h]
    simp [List.removeAll, hname]
  · rw [if_neg (mt hmem.mp hname), ← h]
    simp [List.removeAll, hname, List.eraseDups_cons]

/-- Variables are listed in the order of their first writing. -/
theorem vars_addTargets {s : Symbols} {names : List String} (h : s.vars = names.eraseDups)
    (ts : List Token) : (s.addTargets ts).vars = (names ++ Token.names ts).eraseDups := by
  induction ts generalizing s names with
  | nil =>
    rw [Token.names, List.filter_nil, List.map_nil, List.append_nil]
    exact h
  | cons t ts ih =>
    rw [addTargets_cons]
    by_cases hk : t.kind = .name
    · have hnames : Token.names (t :: ts) = t.value :: Token.names ts := by
        simp [Token.names, hk]
      rw [if_pos hk, ih (vars_addVariable h t.value), hnames, List.append_assoc]
      rfl
    · have hnames : Token.names (t :: ts) = Token.names ts := by
        simp [Token.names, hk]
      rw [if_neg hk, ih h, hnames]

end Symbols

namespace Survey.Gathers

variable {catalog : Catalog} {s s' : Symbols} {es : List Element}

/-- The variables that are found are the targets of the clauses. -/
theorem vars_eq (hg : Gathers catalog s es s') :
    s'.vars = (s.addTargets (es.flatMap catalog.targets)).vars := by
  induction hg with
  | done => rfl
  | declare _ ih =>
    rw [ih]
    exact Symbols.vars_addTargets_congr (Symbols.vars_declare _ _ _ _) _
  | close _ ih => exact ih
  | clause hl ha _ _ _ ih =>
    rw [ih, List.flatMap_cons, Catalog.targets_clause hl ha, addTargets_append]
    refine Symbols.vars_addTargets_congr (Symbols.vars_addTargets_congr ?_ _) _
    exact Symbols.vars_addLines _ _

/-- Only names and system variables are written. -/
theorem kind_of_mem_targets (hg : Gathers catalog s es s') :
    ∀ t ∈ es.flatMap catalog.targets, t.kind = .name ∨ t.kind = .sysvar := by
  induction hg with
  | done => simp
  | declare _ ih | close _ ih => exact ih
  | clause hl ha ht _ _ ih =>
    rw [List.flatMap_cons, Catalog.targets_clause hl ha]
    intro t hmem
    rcases List.mem_append.mp hmem with hmem | hmem
    · exact ht t hmem
    · exact ih t hmem

end Survey.Gathers

/-- The variables of a text that can be assembled are the names that its statements write to, each
one once, in the order of their first writing. The emission takes them for slots that are written,
in the order of the text, and what it takes for such a slot is a name or a system variable. Neither
system variables nor names in other slots become variables. -/
theorem variables_are_written_names (text : String) (a : Assembly)
    (h : Assembly.ofText text = .ok a) :
    a.symbols.vars.Nodup ∧
    (∃ log, Emission.Takes .standard a.symbols (.start true text) log) ∧
    ∀ log, Emission.Takes .standard a.symbols (.start true text) log →
      log.lexemes.Sublist (Lexeme.scan text) ∧
      (∀ t ∈ log.targets, t.kind = .name ∨ t.kind = .sysvar) ∧
      a.symbols.vars = (Token.names log.targets).eraseDups ∧
      ∀ name, name ∈ a.symbols.vars ↔
        ∃ x ∈ log, x.1.writes = true ∧ x.2.kind = .name ∧ x.2.value = name := by
  obtain ⟨hsurvey, hemit⟩ := Assembly.ofTextWith_eq_ok_iff.mp h
  obtain ⟨ts, hts, hg⟩ := Survey.exists_gathers_of_finish hsurvey
  obtain ⟨visits, hv, -⟩ := Emission.exists_visits_of_finish_eq_ok hemit
  refine ⟨?_, hv.exists_takes, fun log hlog ↦ ?_⟩
  · rw [hg.vars_eq]
    exact Symbols.nodup_vars_addTargets List.nodup_nil _
  · have htargets := hlog.targets_eq Catalog.standard_regular hts
    have hvars : a.symbols.vars = (Token.names log.targets).eraseDups := by
      rw [hg.vars_eq, htargets]
      exact @Symbols.vars_addTargets .empty [] rfl _
    refine ⟨hlog.sublist, ?_, hvars, fun name ↦ ?_⟩
    · rw [htargets]
      exact hg.kind_of_mem_targets
    · rw [hvars, List.mem_eraseDups]
      simp only [Token.names, OperandLog.targets, List.mem_map, List.mem_filter, beq_iff_eq]
      constructor
      · rintro ⟨t, ⟨⟨x, ⟨hx, hw⟩, rfl⟩, hk⟩, rfl⟩
        exact ⟨x, hx, hw, hk, rfl⟩
      · rintro ⟨x, hx, hw, hk, rfl⟩
        exact ⟨x.2, ⟨⟨x, ⟨hx, hw⟩, rfl⟩, hk⟩, rfl⟩

/-- Statements with several targets, of which one is a system variable and one is written before. -/
theorem variables_are_written_names_several :
    let text := "ulocate building c true x y f @u\nucontrol getBlock 1.0 2.0 x b\nop add r x y"
    let symbols : Symbols := ⟨.empty, .empty, ["x", "y", "f", "b", "r"], 3, []⟩
    let code : List CodeLine :=
      [⟨.words ["ulocate", "building", "c", "true", "x", "y", "f", "@u"], []⟩,
        ⟨.words ["ucontrol", "getBlock", "1.0", "2.0", "x", "b"], []⟩,
        ⟨.words ["op", "add", "r", "x", "y"], []⟩]
    Assembly.ofText text = .ok ⟨symbols, code⟩ ∧
      ∃ log, Emission.Takes .standard symbols (.start true text) log ∧
        ["x", "y", "f", "b", "r"] = (Token.names log.targets).eraseDups := by
  intro text symbols code
  have h : Assembly.ofText text = .ok ⟨symbols, code⟩ := by decide +kernel
  obtain ⟨-, ⟨log, hlog⟩, hall⟩ := variables_are_written_names text _ h
  exact ⟨h, log, hlog, (hall log hlog).2.2.1⟩

end MlogAsm
