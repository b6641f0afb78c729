import MlogAsm.Proofs.Language
import MlogAsm.Proofs.LineBreak
import MlogAsm.Proofs.Spelling

/-!
# Translation

The lines of an assembly are those of the program that its text spells. There is only one such
program, and it can be seen in the text: its operands stand there as they stand in the lines.
-/

namespace MlogAsm

namespace Statement

variable {catalog : Catalog} {known : String → Prop} {lead : Token} {operands : List Token}
  {s : Statement}

/-- The statement that tokens can spell, whether or not its operands fit. -/
def ofTokens? (catalog : Catalog) (lead : Token) (operands : List Token) : Option Statement :=
  match catalog.find? lead.kind, operands with
  | some (.operation op), _ => some (.plain [op.name] op.args operands)
  | some (.group group), pick :: rest =>
    (group.member? pick.kind).map fun op ↦ .plain [group.name, op.name] op.args rest
  | some (.control control), _ =>
    match control.form, operands with
    | .compute, _ => some (.plain ["op"] control.slots operands)
    | .jump, label :: condition :: compared =>
      some (if condition.kind = .always then .jumpAlways label.value
        else .jumpIf label.value condition.value compared)
    | .goto, label :: _ => some (.goto label.value)
    | .gosub, routine :: _ => some (.gosub routine.value)
    | .leave, _ => some .leave
    | _, _ => none
  | _, _ => none

/-- Tokens spell at most one statement. -/
private theorem Written.ofTokens?_eq (h : s.Written catalog known (lead :: operands)) :
    ofTokens? catalog lead operands = some s := by
  cases h with
  | operation hl hf => simp [ofTokens?, hl]
  | member hl hm hf => simp [ofTokens?, hl, hm]
  | compute hl hc hf | leave hl hc => simp [ofTokens?, hl, hc]
  | jumpAlways hl hc hn ha => simp [ofTokens?, hl, hc, ha]
  | jumpIf hl hc hn ho hf => simp [ofTokens?, hl, hc, ho]
  | goto hl hc hn | gosub hl hc hn => simp [ofTokens?, hl, hc]

end Statement

/-- The part of a program that an element can spell, whether or not its operands fit. -/
def Item.ofElement? (catalog : Catalog) : Element → Option Item
  | .declare what name _ => some (.declare what name)
  | .close => some .close
  | .clause lead operands => (Statement.ofTokens? catalog lead operands).map .statement

section Uniqueness

variable {catalog : Catalog} {known : String → Prop} {p q : Program} {text : String}

private theorem Item.Written.ofElement?_eq {item : Item} {e : Element}
    (h : item.Written catalog known e) :
    ofElement? catalog e = some item := by
  cases h with
  | declare | close => rfl
  | statement hw => rw [ofElement?, hw.ofTokens?_eq, Option.map_some]

private theorem Program.map_ofElement? {es : List Element}
    (hp : List.Forall₂ (Item.Written catalog known) p es) :
    es.map (Item.ofElement? catalog) = p.map some := by
  induction hp with
  | nil => rfl
  | cons hi _ ih => rw [List.map_cons, List.map_cons, hi.ofElement?_eq, ih]

/-- The parts of a program can be seen in the text that spells it. -/
private theorem Program.Reads.map_ofElement?_elements (hp : p.Reads catalog text) :
    (elements text).map (Item.ofElement? catalog) = p.map some := by
  obtain ⟨ts, hts, hp⟩ := hp
  rw [elements_of_scan hts]
  exact map_ofElement? hp

/-- A text spells at most one program. -/
theorem Program.Reads.unique (hp : p.Reads catalog text) (hq : q.Reads catalog text) : p = q :=
  List.map_injective_iff.mpr (fun _ _ ↦ Option.some.inj)
    (hp.map_ofElement?_elements.symm.trans hq.map_ofElement?_elements)

end Uniqueness

/-- The operands of a statement stand in its text as they are. -/
theorem Program.Reads.operands_at_pos {p : Program} {catalog : Catalog} {text : String}
    (h : p.Reads catalog text) {s : Statement} (hs : s ∈ p.statements) {t : Token}
    (ht : t ∈ s.operands) : t.value.toList <+: text.toList.drop t.pos := by
  obtain ⟨lead, operands, hw, hm⟩ := h.exists_written hs
  have hfills {slots : List Slot} {ts : List Token} (hf : Slot.Fills p.Writes slots ts)
      (ht : t ∈ ts) (hmem : t ∈ lead :: operands) : t.value.toList <+: text.toList.drop t.pos :=
    Lexeme.value_at_pos (hm t hmem) (TokenKind.isDeclaration_of_isValue (hf.isValue ht))
  cases hw with
  | operation _ hf | compute _ _ hf => exact hfills hf ht (List.mem_cons_of_mem _ ht)
  | member _ _ hf => exact hfills hf ht (List.mem_cons_of_mem _ (List.mem_cons_of_mem _ ht))
  | jumpIf _ _ _ _ hf =>
    exact hfills hf ht
      (List.mem_cons_of_mem _ (List.mem_cons_of_mem _ (List.mem_cons_of_mem _ ht)))
  | jumpAlways | goto | gosub | leave => cases ht

/-- A note is added to the line that stands last. -/
private theorem CodeLine.annotateLast_concat (note : String) (lines : List CodeLine)
    (line : CodeLine) :
    annotateLast note (lines ++ [line]) = lines ++ [line.annotate note] := by
  induction lines with
  | nil => rfl
  | cons first lines ih =>
    rw [List.cons_append, annotateLast, ih, List.cons_append]
    simp

private theorem appendLast_concat (suffix : String) (lines : List String) (line : String) :
    appendLast suffix (lines ++ [line]) = lines ++ [line ++ suffix] := by
  induction lines with
  | nil => rfl
  | cons first lines ih =>
    rw [List.cons_append, appendLast, ih, List.cons_append]
    simp

/-- Instructions as lines of which the last one has notes. -/
def CodeLine.notingLast (notes : List String) (front : List CodeInstruction)
    (last : CodeInstruction) : List CodeLine :=
  front.map (fun i ↦ ⟨i, []⟩) ++ [⟨last, notes⟩]

/-- The text of lines of which the last one has notes, with one more note behind them. -/
private theorem CodeLine.map_render_noting (debug : Bool) (note : Option String)
    (notes : List String) (front : List CodeInstruction) (last : CodeInstruction) :
    (noting note (notingLast notes front last)).map (render debug) =
      if debug then
        appendLast (String.join ((notes ++ note.toList).map (" # " ++ ·)))
          ((front ++ [last]).map CodeInstruction.render)
      else (front ++ [last]).map CodeInstruction.render := by
  have hnoting : noting note (notingLast notes front last) =
      notingLast (notes ++ note.toList) front last := by
    cases note with
    | none => simp [noting]
    | some note => simp [noting, notingLast, annotateLast_concat, annotate]
  rw [hnoting]
  cases debug with
  | false => simp [notingLast, render]
  | true => simp [notingLast, render, appendLast_concat]

section Lines

variable {p : Program} {symbols : Symbols}

/-- The code of a statement has the words of its lines, and its comment on the last one. -/
private theorem Statement.exists_notingLast_of_code? (hs : p.Surveyed symbols) {s : Statement}
    {routine : Option String} {before : Nat} {lines : List CodeLine}
    (h : s.code? ⟨symbols, true, routine, before⟩ = some lines) :
    ∃ front last, lines = CodeLine.notingLast (s.comment? routine).toList front last ∧
      (front ++ [last]).map CodeInstruction.toWords = s.words p.lineIndex routine before := by
  cases s with
  | plain words slots operands =>
    cases h
    exact ⟨[], _, rfl, rfl⟩
  | jumpAlways label | goto label =>
    obtain ⟨index, hi, rfl⟩ := Option.map_eq_some_iff.mp h
    rw [(hs.get?_labels_eq_some_iff.mp hi).2]
    exact ⟨[], _, rfl, rfl⟩
  | jumpIf label operator operands =>
    obtain ⟨index, hi, rfl⟩ := Option.map_eq_some_iff.mp h
    rw [(hs.get?_labels_eq_some_iff.mp hi).2]
    refine ⟨[], _, rfl, ?_⟩
    rcases operands with _ | ⟨a, _ | ⟨b, rest⟩⟩ <;> rfl
  | gosub callee =>
    simp only [code?] at h
    split at h
    · cases h
    · obtain ⟨index, hi, rfl⟩ := Option.map_eq_some_iff.mp h
      rw [(hs.get?_routines_eq_some_iff.mp hi).2]
      exact ⟨[_], _, rfl, rfl⟩
  | leave =>
    obtain ⟨callee, hr, rfl⟩ := Option.map_eq_some_iff.mp h
    rw [show routine = some callee from hr]
    exact ⟨[], _, rfl, rfl⟩

/-- The text of the code of statements in their places is their lines. -/
private theorem Placed.map_render_of_codeFrom? (hs : p.Surveyed symbols) (debug : Bool)
    {before : Nat} {xs : List Placed} {code : List CodeLine}
    (h : codeFrom? symbols before xs = some code) :
    code.map (CodeLine.render debug) = linesFrom p.lineIndex debug before xs := by
  induction xs generalizing before code with
  | nil =>
    cases h
    rfl
  | cons x xs ih =>
    obtain ⟨stLines, rest, hl, hrest, rfl⟩ := codeFrom?_cons_eq_some_iff.mp h
    obtain ⟨front, last, rfl, hwords⟩ := Statement.exists_notingLast_of_code? hs hl
    rw [List.map_append, linesFrom, ih hrest, CodeLine.map_render_noting, lines, comments, ← hwords,
      List.map_map]
    rfl

end Lines

/-- The lines of an assembly are those of its program. -/
theorem Assembly.exists_reads_lines_eq {text : String} {a : Assembly} (h : ofText text = .ok a) :
    ∃ p, Program.Reads .standard text p ∧ p.Resolved ∧ ∀ debug, a.lines debug = p.lines debug := by
  obtain ⟨p, hp, hs, hcode⟩ := exists_program Catalog.standard_regular h
  exact ⟨p, hp, (Placed.exists_codeFrom?_iff hs).mp ⟨_, hcode⟩,
    fun debug ↦ Placed.map_render_of_codeFrom? hs debug hcode⟩

/-- A text that can be assembled spells the program that can be seen in it. -/
theorem Assembly.reads_of_map_ofElement? {text : String} {a : Assembly} {p : Program}
    (h : ofText text = .ok a)
    (hp : (elements text).map (Item.ofElement? .standard) = p.map some) :
    p.Reads .standard text := by
  obtain ⟨q, hq, -, -⟩ := exists_reads_lines_eq h
  have he : p = q :=
    List.map_injective_iff.mpr (fun _ _ ↦ Option.some.inj)
      (hp.symm.trans hq.map_ofElement?_elements)
  rw [he]
  exact hq

/-- A text that can be assembled spells exactly one program, and its lines are the lines of that
program, with or without debug comments. They show operands as they stand in the text. -/
theorem assembly_lines_eq_program_lines (text : String) (a : Assembly)
    (h : Assembly.ofText text = .ok a) :
    ∃ p, Program.Reads .standard text p ∧ (∀ q, Program.Reads .standard text q → q = p) ∧
      p.Resolved ∧
      (∀ s ∈ p.statements, ∀ t ∈ s.operands, t.value.toList <+: text.toList.drop t.pos) ∧
      ∀ debug, a.lines debug = p.lines debug := by
  obtain ⟨p, hp, hres, hlines⟩ := Assembly.exists_reads_lines_eq h
  exact ⟨p, hp, fun q hq ↦ hq.unique hp, hres, fun s hs t ht ↦ hp.operands_at_pos hs ht, hlines⟩

/-- A call, a jump back, a comparison with nothing and a text with a space in it. -/
theorem assembly_lines_eq_program_lines_call :
    let text := "again: gosub r\njump again lessThan x 9\nend\n" ++
      "routine r:\nop add x x \"a b\"\njump done not x\ndone: return\n"
    let lines := ["set rReturn 2", "jump 4 always # gosub r # label again",
      "jump 0 lessThan x 9 # jump to again", "end", "op add x x \"a b\" # subroutine r",
      "jump 6 not x false # jump to done", "set @counter rReturn # return from r # label done"]
    (Assembly.ofText text).map (Assembly.lines true) = .ok lines ∧
      ∃ p, Program.Reads .standard text p ∧ p.lines true = lines := by
  intro text lines
  have hl : (Assembly.ofText text).map (Assembly.lines true) = .ok lines := by decide +kernel
  refine ⟨hl, ?_⟩
  cases ha : Assembly.ofText text with
  | error f =>
    rw [ha] at hl
    cases hl
  | ok a =>
    rw [ha] at hl
    obtain ⟨p, hp, -, -, -, hlines⟩ := assembly_lines_eq_program_lines text a ha
    exact ⟨p, hp, by rw [← hlines true, Except.ok.inj hl]⟩

end MlogAsm
