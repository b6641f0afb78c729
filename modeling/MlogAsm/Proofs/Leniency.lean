import MlogAsm.Proofs.ProgramCode

/-!
# Lenient surveys

A survey lets everything through that an emission lets through, whatever symbols the emission was
given. What an emission reads spells a program, and a program passes a survey.
-/

namespace MlogAsm

variable {catalog : Catalog} {symbols : Symbols} {text : String} {code : List CodeLine}

/-- An emission that succeeds has met no stray character. -/
theorem Emission.Visits.exists_tokens {s : Emission} {visits : List Visit}
    (hv : Visits catalog symbols s visits) : ∃ ts : List Token, s.cursor.rest = ts.map .token := by
  -- What is passed on a turn is tokens, and what is left after it is tokens by induction.
  have hpass {c d : Cursor} (h : c.Passes d) (hd : ∃ ts : List Token, d.rest = ts.map .token) :
      ∃ ts : List Token, c.rest = ts.map .token := by
    have ⟨us, hus⟩ := h.exists_tokens
    have ⟨ts, hts⟩ := hd
    exact ⟨us ++ ts, by rw [hus, hts, List.map_append]⟩
  induction hv with
  | finished hn => exact ⟨[], (Reader.next_eq_ok_none_iff.mp hn).1⟩
  | newline hn _ _ ih => exact hpass (Reader.forward_next.ok hn) ih
  | mark hn hm _ ih =>
    refine hpass (Reader.forward_next.ok hn) ?_
    rcases marked?_eq_some_iff.mp hm with ⟨-, rfl⟩ | ⟨-, rfl⟩ | ⟨-, rfl⟩
    · exact ih
    · exact ih
    · exact ih
  | statement hn _ he _ ih =>
    have hread := (catalog.forward_emitStatement _ _).ok he
    exact hpass ((Reader.forward_next.ok hn).trans hread) ih

/-- A text that gives code with some symbols spells a program with the variables of these. -/
theorem CodeLine.exists_program_of_emit (hr : catalog.Regular)
    (h : emit catalog symbols text = .ok code) :
    ∃ (ts : List Token) (p : Program), Lexeme.scan text = ts.map .token ∧
      List.Forall₂ (Item.Written catalog (· ∈ symbols.vars)) p (outline ts) ∧
      Placed.codeFrom? symbols 0 p.placed = some code := by
  have ⟨visits, hv, hcode⟩ := Emission.exists_visits_of_finish_eq_ok h
  have ⟨ts, hts⟩ := hv.exists_tokens
  have ⟨p, hp, hplaced⟩ := hv.exists_program rfl hts hr.onlyLastOptional
  exact ⟨ts, p, hts, hp, hplaced.trans (congrArg some hcode.symm)⟩

section Known

variable {known : String → Prop}

/-- A name fits into a slot for a variable only if it is known. -/
private theorem Slot.Fits.known_of_name {slot : Slot} {t : Token} (h : slot.Fits known t)
    (hk : slot.kind = .variable) (ht : t.kind = .name) : known t.value := by
  simpa [Fits, ht, hk] using h

/-- A statement writes to names that are known. -/
private theorem Statement.Written.known_of_mem_targets {s : Statement} {ts : List Token}
    (h : s.Written catalog known ts) (hr : catalog.Regular) {t : Token} (ht : t ∈ s.targets)
    (hk : t.kind = .name) : known t.value := by
  have hfills {slots : List Slot} {operands : List Token} (hf : Slot.Fills known slots operands)
      (hw : ∀ slot ∈ slots, slot.writes = true → slot.kind = .variable)
      (ht : t ∈ Slot.targets slots operands) : known t.value := by
    have ⟨slot, hm, hs, hfit⟩ := hf.exists_fits_of_mem_targets ht
    exact hfit.known_of_name (hw slot hm hs) hk
  cases h with
  | operation hl hf => exact hfills hf (hr.writesVariables.operation hl) ht
  | member hl hm hf => exact hfills hf (hr.writesVariables.member hl hm) ht
  | compute hl hc hf => exact hfills hf (hr.writesVariables.control hl) ht
  | jumpAlways | jumpIf | goto | gosub | leave => cases ht

/-- A program writes to names that are known. -/
theorem Program.known_of_writes {p : Program} {es : List Element}
    (hp : List.Forall₂ (Item.Written catalog known) p es) (hr : catalog.Regular) {name : String}
    (h : p.Writes name) : known name := by
  have ⟨s, hs, t, ht, hk, hv⟩ := h
  have ⟨e, _, hw⟩ := exists_element_of_mem hp (mem_statements.mp hs)
  cases hw with
  | statement hw =>
    rw [← hv]
    exact hw.known_of_mem_targets hr ht hk

end Known

/-- A text that gives lines with any symbols whatsoever passes a survey. The survey counts as many
lines, and finds no variable that was not among the symbols. -/
theorem survey_of_emission (text : String) (symbols : Symbols) (debug : Bool) (lines : List String)
    (h : (CodeLine.emit .standard symbols text).map (List.map (CodeLine.render debug)) =
      .ok lines) :
    ∃ found, Symbols.survey .standard text = .ok found ∧ found.size = lines.length ∧
      ∀ name ∈ found.vars, name ∈ symbols.vars := by
  cases he : CodeLine.emit .standard symbols text with
  | error f =>
    rw [he] at h
    cases h
  | ok code =>
    rw [he] at h
    cases h
    have hr := Catalog.standard_regular
    have ⟨ts, p, hts, hp, hcode⟩ := CodeLine.exists_program_of_emit hr he
    have ⟨found, hg⟩ := Program.exists_gathers hp hr .empty
    refine ⟨found, Survey.finish_eq_ok_of_gathers hg hts, ?_, ?_⟩
    · rw [hg.size_eq hp hr, List.length_map, Placed.length_of_codeFrom? hcode, Program.placed,
        Program.map_statement_placedFrom]
      exact Int.zero_add _
    · intro name hname
      rcases (hg.mem_vars hp hr name).mp hname with hempty | hwrites
      · cases hempty
      · exact Program.known_of_writes hp hr hwrites

/-- The symbols may be those of another text: here `a` is declared nowhere, and stands for a line
before the first. -/
theorem survey_of_emission_foreign :
    let text := "set x 1\ngoto a\nop add @counter x x"
    let symbols : Symbols := ⟨.ofList [("a", -7)], .empty, ["y", "x"], 99, []⟩
    (CodeLine.emit .standard symbols text).map (List.map (CodeLine.render false)) =
        .ok ["set x 1", "jump -7 always", "op add @counter x x"] ∧
      ∃ found, Symbols.survey .standard text = .ok found ∧ found.size = 3 ∧
        ∀ name ∈ found.vars, name ∈ ["y", "x"] := by
  intro text symbols
  have h : (CodeLine.emit .standard symbols text).map (List.map (CodeLine.render false)) =
      .ok ["set x 1", "jump -7 always", "op add @counter x x"] := by decide +kernel
  exact ⟨h, survey_of_emission text symbols false _ h⟩

end MlogAsm
