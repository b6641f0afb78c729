import MlogAsm.Assembly
import MlogAsm.Proofs.Coupling

/-!
# Walks over coupled texts

Both walks over a program take the same turns in two texts that are coupled. A survey finds symbols
that belong together, and with these an emission gives the same instructions. Where the words are
the same, the notes are too, as far as they are wanted.
-/

namespace MlogAsm

/-- A line with its notes, or without. -/
def CodeLine.kept (debug : Bool) (line : CodeLine) : CodeLine :=
  { line with notes := if debug then line.notes else [] }

@[simp] theorem CodeLine.map_kept_true (lines : List CodeLine) : lines.map (kept true) = lines :=
  List.map_id lines

@[simp] theorem CodeLine.kept_without_notes (debug : Bool) (instruction : CodeInstruction) :
    CodeLine.kept debug ⟨instruction, []⟩ = ⟨instruction, []⟩ := by
  simp [kept]

private theorem CodeLine.map_kept_false_annotateLast (note : String) (lines : List CodeLine) :
    (annotateLast note lines).map (kept false) = lines.map (kept false) := by
  fun_induction annotateLast note lines with
  | case1 => rfl
  | case2 => rfl
  | case3 line lines _ ih => rw [List.map_cons, ih, List.map_cons]

namespace Sides

variable {S : Sides} {debug : Bool}

/-- The code of two programs: the same instructions, and the same notes if the words are the same
and notes are wanted in both. -/
structure SameCode (S : Sides) (debug : Bool) (code code' : List CodeLine) : Prop where
  instructions : code'.map CodeLine.instruction = code.map CodeLine.instruction
  kept : S.verbatim → code' = code.map (CodeLine.kept debug)

namespace SameCode

variable {code code' more more' : List CodeLine}

theorem length_eq (h : S.SameCode debug code code') : code'.length = code.length := by
  simpa using congrArg List.length h.instructions

theorem nil : S.SameCode debug [] [] :=
  ⟨rfl, fun _ ↦ rfl⟩

/-- A line without notes. -/
private theorem bare (instruction : CodeInstruction) :
    S.SameCode debug [⟨instruction, []⟩] [⟨instruction, []⟩] :=
  ⟨rfl, fun _ ↦ by simp⟩

theorem append (h : S.SameCode debug code code') (hm : S.SameCode debug more more') :
    S.SameCode debug (code ++ more) (code' ++ more') where
  instructions := by rw [List.map_append, List.map_append, h.instructions, hm.instructions]
  kept hv := by rw [List.map_append, h.kept hv, hm.kept hv]

/-- A line with a note on it, where notes are wanted. -/
theorem noted {ctx ctx' : Context} (hd : ctx.debug = true) (instruction : CodeInstruction)
    {note note' : String} (hn : S.verbatim → note' = note) :
    S.SameCode ctx'.debug [⟨instruction, ctx.notes note⟩] [⟨instruction, ctx'.notes note'⟩] where
  instructions := rfl
  kept hv := by simp [CodeLine.kept, Context.notes, hd, hn hv]

/-- Lines behind a declaration that is noted on the last of them. -/
theorem noting (h : S.SameCode debug code code') {note note' : Option String}
    (hn : S.verbatim → note' = note) :
    S.SameCode debug (CodeLine.noting note code)
      (if debug then CodeLine.noting note' code' else code') where
  instructions := by
    cases debug <;> simp [CodeLine.map_instruction_noting, h.instructions]
  kept hv := by
    rw [h.kept hv, hn hv]
    cases debug with
    | true => simp
    | false => cases note <;> simp [CodeLine.noting, CodeLine.map_kept_false_annotateLast]

end SameCode
end Sides

section Statements

variable {C : Coupling} {ctx ctx' : Context} {catalog : Catalog}

/-- A control instruction gives the same lines in both runs. -/
theorem Control.coupled_emit (hctx : C.Contexts ctx ctx') {control : Control}
    (ho : C.Steady ∨ Slot.OnlyLastOptional control.slots)
    (hcode : C.Steady ∨ control.form ≠ .undefined) :
    C.Together (C.Cursors (Instruction.control control).place)
      (fun a b c d ↦ C.SameCode ctx'.debug a b ∧ C.Somewhere c d)
      (control.emit ctx) (control.emit ctx') := by
  unfold emit
  cases hform : control.form with
  | jump =>
    simp only [Instruction.place, hform, true_or, if_true]
    refine (control.coupled_readName (by decide) _).bind fun label label' ↦ ?_
    rintro c d ⟨⟨t, u, htu, hk, rfl, rfl⟩, h⟩
    refine (Reader.coupled_resolve (hctx.knows.label htu hk)).bind (fun target target' ↦ ?_) c d h
    rintro c d ⟨rfl, h⟩
    refine (control.coupled_readCondition hctx.knows).bind
      (fun condition condition' ↦ .pure ?_) c d h
    rintro c d ⟨rfl, h⟩
    exact ⟨.noted hctx.debug _ fun hv ↦ by rw [C.value_eq htu (.inl hv)], h⟩
  | goto =>
    simp only [Instruction.place, hform, or_true, if_true]
    refine (control.coupled_readName (by decide) _).bind fun label label' ↦ ?_
    rintro c d ⟨⟨t, u, htu, hk, rfl, rfl⟩, h⟩
    refine (Reader.coupled_resolve (hctx.knows.label htu hk)).bind
      (fun target target' ↦ .pure ?_) c d h
    rintro c d ⟨rfl, h⟩
    exact ⟨.noted hctx.debug _ fun hv ↦ by rw [C.value_eq htu (.inl hv)], _, h⟩
  | gosub =>
    simp only [Instruction.place, hform, reduceCtorEq, or_self, if_false]
    refine (control.coupled_readName (by decide) _).bind fun callee callee' ↦ ?_
    rintro c d ⟨⟨t, u, htu, hk, rfl, hcallee⟩, h⟩
    obtain rfl : callee' = t.value := by rw [hcallee, C.value_eq htu (.inr (by rw [hk]; rfl))]
    rw [hctx.routine_eq, hctx.emitted_eq]
    split
    · have hfail : C.Together (C.Cursors .inside) (fun (_ _ : PUnit) _ _ ↦ False)
          (Reader.fail .selfCall) (Reader.fail .selfCall) :=
        fun c d h ↦ Reader.coupled_fail (.refl _ _) (C.line_eq h (by decide))
      exact hfail.bind (fun _ _ _ _ hfalse ↦ hfalse.elim) c d h
    · refine (Reader.coupled_resolve (hctx.knows.routine _)).bind
        (fun target target' ↦ .pure ?_) c d h
      rintro c d ⟨rfl, h⟩
      have hstore : C.SameCode ctx'.debug [⟨.storeReturn t.value (ctx.emitted + 2), []⟩]
          [⟨.storeReturn t.value (ctx.emitted + 2), []⟩] := .bare _
      exact ⟨hstore.append (.noted hctx.debug _ fun _ ↦ rfl), _, h⟩
  | leave =>
    dsimp only
    rw [hctx.routine_eq]
    cases ctx.routine with
    | none =>
      exact fun c d h ↦ Reader.coupled_fail (.refl _ _) (C.line_eq h (Instruction.place_ne_front _))
    | some routine => exact .pure fun c d h ↦ ⟨.noted hctx.debug _ fun _ ↦ rfl, _, h⟩
  | compute =>
    simp only [Instruction.place, hform, reduceCtorEq, or_self, if_false]
    refine (Slot.coupled_readAll hctx.knows _ ho).bind fun operands operands' ↦ .pure ?_
    rintro c d ⟨rfl, h⟩
    exact ⟨.bare _, h⟩
  | undefined =>
    rcases hcode with hsteady | hcode
    · exact .throw hsteady.noCode
    · exact absurd hform hcode

/-- An instruction gives the same lines in both runs. -/
theorem Instruction.coupled_emit (hctx : C.Contexts ctx ctx') (hs : C.Steady ∨ catalog.WellMade)
    {kind : TokenKind} {instruction : Instruction} (hl : catalog.find? kind = some instruction) :
    C.Together (C.Cursors instruction.place)
      (fun a b c d ↦ C.SameCode ctx'.debug a b ∧ C.Somewhere c d)
      (instruction.emit ctx) (instruction.emit ctx') := by
  cases instruction with
  | operation op =>
    have ho := hs.imp_right fun h ↦ h.onlyLastOptional.operation hl
    refine (op.coupled_emit hctx.knows ho).bind fun words words' ↦ .pure ?_
    rintro c d ⟨rfl, h⟩
    exact ⟨.bare _, h⟩
  | group g =>
    refine g.coupled_select.bind fun member member' ↦ ?_
    rintro c d ⟨rfl, ⟨pick, hm⟩, h⟩
    have ho := hs.imp_right fun h ↦ h.onlyLastOptional.member hl hm
    refine (member'.coupled_emit hctx.knows ho).bind (fun words words' ↦ .pure ?_) c d h
    rintro c d ⟨rfl, h⟩
    exact ⟨.bare _, h⟩
  | control control =>
    exact control.coupled_emit hctx (hs.imp_right fun h ↦ h.onlyLastOptional.control hl)
      (hs.imp_right fun h ↦ h.hasCode _ (List.mem_of_find?_eq_some hl))

/-- Behind the word that leads an instruction the runs stand where it expects them. -/
private theorem Coupling.cursors_place (hs : C.Uniform ∨ catalog.WellMade) {kind : TokenKind}
    (hk : kind.leads = true) {instruction : Instruction}
    (hl : catalog.find? kind = some instruction) {c d : Cursor}
    (h : C.Cursors (LinePlace.front.after kind) c d) : C.Cursors instruction.place c d := by
  rcases hs with huniform | hmade
  · exact huniform h (LinePlace.after_ne_front hk) instruction.place_ne_front
  · rwa [← Catalog.token_of_find? hl, hmade.placesTargets _ (List.mem_of_find?_eq_some hl)] at h

/-- A statement gives the same lines in both runs. -/
theorem Catalog.coupled_emitStatement (hctx : C.Contexts ctx ctx')
    (hs : C.Steady ∨ catalog.WellMade) {t u : Token} (htu : C.Tokens .front t u)
    (hk : t.kind.leads = true) :
    C.Together (C.Cursors (LinePlace.front.after t.kind))
      (fun a b c d ↦ C.SameCode ctx'.debug a b ∧ C.Cursors .front c d)
      (catalog.emitStatement ctx t) (catalog.emitStatement ctx' u) := by
  unfold emitStatement
  rw [C.kind_eq htu]
  cases hl : catalog.find? t.kind with
  | none =>
    exact fun c d h ↦ Reader.coupled_fail (C.sameCause_describe htu _ fun _ _ ↦ rfl)
      (C.line_eq h (LinePlace.after_ne_front hk))
  | some instruction =>
    intro c d h
    have hplace := C.cursors_place (hs.imp_left fun h ↦ fun hcd _ _ ↦ h.cursors hcd) hk hl h
    refine ((Instruction.coupled_emit hctx hs hl).attach Instruction.length_of_emit).bind
      (fun lines lines' ↦ ?_) c d hplace
    rintro c d ⟨hlength, hlines, h⟩
    refine Reader.coupled_endLine.bind (fun _ _ ↦ ?_) c d h
    rw [hlines.length_eq]
    split
    · exact .pure fun c d h ↦ ⟨hlines, h⟩
    · next hne =>
      rcases hs with hsteady | hmade
      · have hvalue : u.value = t.value := C.value_eq htu (.inr (LinePlace.namesLabel_front hk))
        rw [hvalue]
        exact fun c d h ↦ Reader.coupled_fail (.refl _ _) (hsteady.line_eq h)
      · exact absurd (hlength.trans (hmade.emits_eq _ (List.mem_of_find?_eq_some hl)).symm) hne

end Statements

section Surveys

variable {C : Coupling} {R : Symbols → Symbols → Prop} {catalog : Catalog}

/-- Symbols that belong together still do when both programs declare the same. -/
structure Sides.Declares (S : Sides) (R : Symbols → Symbols → Prop) : Prop where
  addVariable : ∀ {s t} (name : String), R s t → R (s.addVariable name) (t.addVariable name)
  addLines : ∀ {s t} (count : Int), R s t → R (s.addLines count) (t.addLines count)
  label : ∀ {s t} {a b : Token} (line : Nat), S.Tokens .front a b → a.kind = .label → R s t →
    R (s.declare .label a.value line) (t.declare .label b.value (line + S.lines))
  routine : ∀ {s t} (name : String) (line : Nat), R s t →
    R (s.declare .routine name line) (t.declare .routine name (line + S.lines))

namespace Survey

/-- The cursors of two surveys belong together, and so do the symbols that they have found. -/
structure Both (P : Cursor → Cursor → Prop) (R : Symbols → Symbols → Prop) (s t : Survey) :
    Prop where
  cursor : P s.cursor t.cursor
  symbols : R s.symbols t.symbols

/-- Cursors that move together do so within surveys. -/
theorem coupled_read {α β : Type} {P : Cursor → Cursor → Prop} {Q : α → β → Cursor → Cursor → Prop}
    {m : Reader α} {n : Reader β} (h : C.Together P Q m n) :
    C.Together (Both P R) (fun a b ↦ Both (Q a b) R) (read m) (read n) := by
  intro s t hst
  have hmatch := h s.cursor t.cursor hst.cursor
  unfold read
  generalize m s.cursor = x, n t.cursor = y at hmatch ⊢
  cases hmatch with
  | ok hq => exact .ok ⟨hq, hst.symbols⟩
  | error he => exact .error he
  | excused he => exact .excused he

/-- The same operand is recorded, or refused. -/
private theorem coupled_recordOperand (hR : C.Declares R) (owner : String) (slot : Slot)
    {t u : Token} (htu : C.Tokens .inside t u) :
    C.Together (Both (C.Cursors .inside) R) (fun _ _ ↦ Both (C.Cursors .inside) R)
      (recordOperand owner slot t) (recordOperand owner slot u) := by
  unfold recordOperand
  rw [C.kind_eq htu]
  split
  · split
    · next hk =>
      rw [C.value_eq htu (.inr (by rw [hk]; rfl))]
      exact .modify fun s s' h ↦ ⟨h.cursor, hR.addVariable t.value h.symbols⟩
    · split
      · refine coupled_read fun c d h ↦ ?_
        exact Reader.coupled_fail
          (C.sameCause_describe htu (.unwritable · owner) fun _ _ ↦ rfl) (C.line_eq h (by decide))
      · exact .pure fun s s' h ↦ h
  · exact .pure fun s s' h ↦ h

/-- The operands of a line are recorded in the same way. -/
private theorem coupled_recordEach (hR : C.Declares R) (owner : String) (slots : List Slot) :
    C.Together (Both (C.Cursors .inside) R) (fun _ _ ↦ Both C.Somewhere R)
      (recordEach owner slots) (recordEach owner slots) := by
  induction slots with
  | nil => exact .pure fun s t h ↦ ⟨⟨_, h.cursor⟩, h.symbols⟩
  | cons slot slots ih =>
    have hnext : C.Together (C.Cursors .inside) (C.Pulled .inside) Reader.next Reader.next :=
      fun c d h ↦ C.next h nofun
    refine (coupled_read hnext).bind fun a b ↦ ?_
    rintro s s' ⟨hpulled, hsymbols⟩
    generalize hc : s.cursor = c, hd : s'.cursor = d at hpulled
    cases hpulled with
    | @word t u _ _ h =>
      subst hc hd
      have hcursors := h.cursors
      dsimp only
      rw [C.kind_eq h.tokens]
      split
      · exact .ok ⟨⟨_, hcursors⟩, hsymbols⟩
      · next hk =>
        rw [LinePlace.after_inside hk] at hcursors
        exact ((coupled_recordOperand hR owner slot h.tokens).bind fun _ _ ↦ ih) s s'
          ⟨hcursors, hsymbols⟩
    | ended h =>
      subst hc hd
      cases b with
      | none => exact .ok ⟨⟨_, h.cursors⟩, hsymbols⟩
      | some u =>
        dsimp only
        rw [if_pos (h.isLineEnd u rfl)]
        exact .ok ⟨⟨_, h.cursors⟩, hsymbols⟩

/-- A statement is surveyed in the same way. -/
private theorem coupled_statement (hR : C.Declares R) (hs : C.Uniform ∨ catalog.WellMade)
    {t u : Token} (htu : C.Tokens .front t u) (hk : t.kind.leads = true) :
    C.Together (Both (C.Cursors (LinePlace.front.after t.kind)) R)
      (fun _ _ ↦ Both (C.Cursors .front) R) (statement catalog t) (statement catalog u) := by
  unfold statement
  rw [C.kind_eq htu, C.value_eq htu (.inr (LinePlace.namesLabel_front hk))]
  cases hl : catalog.find? t.kind with
  | none =>
    refine coupled_read fun c d h ↦ ?_
    exact Reader.coupled_fail (C.sameCause_describe htu _ fun _ _ ↦ rfl)
      (C.line_eq h (LinePlace.after_ne_front hk))
  | some instruction =>
    refine Lockstep.bind (Q := fun _ _ ↦ Both (C.Cursors instruction.place) R)
      (.modify fun s s' h ↦ ⟨C.cursors_place hs hk hl h.cursor, hR.addLines _ h.symbols⟩)
      fun _ _ ↦ ?_
    have ho := hs.imp_right fun h ↦ h.ownOperands _ (List.mem_of_find?_eq_some hl)
    refine (coupled_read (Instruction.coupled_layout ho)).bind fun slots slots' ↦ ?_
    rintro s s' ⟨⟨rfl, h | ⟨rfl, h⟩⟩, hsymbols⟩
    · exact ((coupled_recordEach hR t.value (throughLastWrite slots')).bind
        fun _ _ ↦ coupled_read Reader.coupled_skipLine) s s' ⟨h, hsymbols⟩
    · exact coupled_read Reader.coupled_skipLine s s' ⟨h, hsymbols⟩

/-- What a word begins is surveyed in the same way. -/
theorem coupled_element (hR : C.Declares R) (hs : C.Uniform ∨ catalog.WellMade) (t u : Token) :
    C.Together (Both (C.Word .front t u) R) (fun _ _ ↦ Both (C.Cursors .front) R)
      (element catalog t) (element catalog u) := by
  rintro s s' ⟨h, hsymbols⟩
  have hcursors := h.cursors
  have hkind := C.kind_eq h.tokens
  by_cases hl : t.kind.leads = true
  · rw [element_of_leads hl, element_of_leads (hkind ▸ hl)]
    exact coupled_statement hR hs h.tokens hl s s' ⟨hcursors, hsymbols⟩
  · unfold element
    rw [hkind]
    rcases TokenKind.cases_of_not_leads hl with hk | hk | hk | hk
    · rw [hk] at hcursors ⊢
      exact .ok ⟨hcursors, hsymbols⟩
    · rw [hk] at hcursors ⊢
      refine .ok ⟨hcursors, ?_⟩
      dsimp only
      rw [h.line_eq]
      exact hR.label _ h.tokens hk hsymbols
    · have hvalue := C.value_eq h.tokens (.inr (by rw [hk]; rfl))
      rw [hk] at hcursors ⊢
      refine .ok ⟨hcursors, ?_⟩
      dsimp only
      rw [h.line_eq, hvalue]
      exact hR.routine _ _ hsymbols
    · rw [hk] at hcursors ⊢
      exact .ok ⟨hcursors, hsymbols⟩

end Survey

/-- Both walks go on together from one line to the next, unless nothing is left for either. -/
def Coupling.Walks (C : Coupling) : Prop :=
  ∀ {c d}, C.Cursors .front c d → c.rest = [] ∧ d.rest = [] ∨
    Matched C.lenient C.Faults (C.Pulled .front) (Reader.next c) (Reader.next d)

/-- One more line end declares nothing. -/
private theorem Survey.finish_of_ended {s : Survey} {last : Option Token} {c d : Cursor}
    (h : C.Ended last c d) (hn : Reader.next s.cursor = .ok last d) :
    finish catalog s = .ok s.symbols := by
  cases last with
  | none => exact finish_of_rest_nil (Reader.next_eq_ok_none_iff.mp hn).1
  | some u =>
    have he : element catalog u ⟨d, s.symbols⟩ = .ok () ⟨d, s.symbols⟩ := by
      simp only [element, h.isLineEnd u rfl]
      exact pure_eq_ok_iff.mpr ⟨rfl, rfl⟩
    rw [finish_of_element hn he, finish_of_rest_nil h.rest_eq]

/-- Surveys that stand at the same place find the same in the rest of two texts. -/
theorem Survey.coupled_finish (hw : C.Walks) (hR : C.Declares R)
    (hs : C.Uniform ∨ catalog.WellMade) {s t : Survey} (h : Both (C.Cursors .front) R s t) :
    Outcomes C.lenient C.Faults R (finish catalog s) (finish catalog t) := by
  -- An induction on what is left of the first text; each round is a token and what it begins.
  induction hlen : s.cursor.rest.length using Nat.strongRecOn generalizing s t with
  | ind n ih =>
    subst hlen
    obtain ⟨hcursors, hsymbols⟩ := h
    rcases hw hcursors with ⟨hc, hd⟩ | hnext
    · rw [finish_of_rest_nil hc, finish_of_rest_nil hd]
      exact .ok hsymbols
    · generalize hx : Reader.next s.cursor = x, hy : Reader.next t.cursor = y at hnext
      cases hnext with
      | error he =>
        rw [finish_of_next_error hx, finish_of_next_error hy]
        exact .error he
      | excused he =>
        rw [finish_of_next_error hx]
        exact .excused he
      | @ok _ _ c d hpulled =>
        cases hpulled with
        | @word a b _ _ h =>
          have helement := coupled_element hR hs a b ⟨c, s.symbols⟩ ⟨d, t.symbols⟩ ⟨h, hsymbols⟩
          generalize hx' : element catalog a ⟨c, s.symbols⟩ = x',
            hy' : element catalog b ⟨d, t.symbols⟩ = y' at helement
          cases helement with
          | error he =>
            rw [finish_of_element_error hx hx', finish_of_element_error hy hy']
            exact .error he
          | excused he =>
            rw [finish_of_element_error hx hx']
            exact .excused he
          | ok h =>
            rw [finish_of_element hx hx', finish_of_element hy hy']
            refine ih _ ?_ h rfl
            exact Nat.lt_of_le_of_lt ((forward_element catalog a).ok hx').length_rest_le
              (Reader.length_rest_lt_of_next hx)
        | ended h =>
          rw [finish_of_rest_nil (Reader.next_eq_ok_none_iff.mp hx).1, finish_of_ended h hy]
          exact .ok hsymbols

end Surveys

namespace Emission

variable {C : Coupling} {catalog : Catalog} {symbols symbols' : Symbols} {e e' : Emission}

/-- Two emissions stand at the same place. The first notes what it declares, the second may go
without. -/
structure Both (C : Coupling) (e e' : Emission) : Prop where
  cursor : C.Cursors .front e.cursor e'.cursor
  debug : e.debug = true
  routine_eq : e'.routine = e.routine
  emitted_eq : e'.emitted = e.emitted
  pending_eq : C.verbatim → e'.pending = e.pending

private theorem debug_passing (e : Emission) (t : Token) (c : Cursor) :
    (e.passing t c).debug = e.debug := by
  unfold passing marked?
  cases t.kind <;> rfl

private theorem Both.contexts (h : Both C e e') (hknows : C.Knows symbols symbols') :
    C.Contexts (e.context symbols) (e'.context symbols') where
  knows := hknows
  debug := h.debug
  routine_eq := h.routine_eq
  emitted_eq := congrArg Int.ofNat h.emitted_eq

/-- A word that leads no statement is passed in both texts. -/
theorem Both.passing (h : Both C e e') {t u : Token} {c d : Cursor} (hw : C.Word .front t u c d)
    (hk : ¬ t.kind.leads = true) : Both C (e.passing t c) (e'.passing u d) := by
  have hcursors := hw.cursors
  unfold Emission.passing marked?
  rw [C.kind_eq hw.tokens]
  rcases TokenKind.cases_of_not_leads hk with hk | hk | hk | hk
  · rw [hk] at hcursors ⊢
    exact { h with cursor := hcursors }
  · rw [hk] at hcursors ⊢
    refine { h with cursor := hcursors, pending_eq := fun hv ↦ ?_ }
    simp [C.value_eq hw.tokens (.inl hv)]
  · have hvalue := C.value_eq hw.tokens (.inr (by rw [hk]; rfl))
    rw [hk] at hcursors ⊢
    refine { h with cursor := hcursors, routine_eq := ?_, pending_eq := fun _ ↦ ?_ } <;>
      simp [hvalue]
  · rw [hk] at hcursors ⊢
    exact { h with cursor := hcursors, routine_eq := rfl }

/-- The lines of a statement get their notes in both texts. -/
theorem Both.noted (h : Both C e e') {lines lines' : List CodeLine}
    (hl : C.SameCode e'.debug lines lines') :
    C.SameCode e'.debug (e.noted lines) (e'.noted lines') := by
  unfold Emission.noted
  rw [h.debug, if_pos rfl]
  exact hl.noting h.pending_eq

/-- One more line end gives no lines. -/
private theorem finish_of_ended {last : Option Token} {c d : Cursor} (h : C.Ended last c d)
    (hn : Reader.next e.cursor = .ok last d) : finish catalog symbols e = .ok [] := by
  cases last with
  | none => exact finish_of_rest_nil (Reader.next_eq_ok_none_iff.mp hn).1
  | some u =>
    have hk : ¬ u.kind.leads = true := by
      rw [h.isLineEnd u rfl]
      decide
    rw [finish_of_not_leads hn hk, finish_of_rest_nil]
    rw [cursor_passing]
    exact h.rest_eq

/-- Emissions that stand at the same place give the same code for the rest of two texts. -/
theorem coupled_finish (hw : C.Walks) (hs : C.Steady ∨ catalog.WellMade)
    (hknows : C.Knows symbols symbols') (h : Both C e e') :
    Outcomes C.lenient C.Faults (C.SameCode e'.debug) (finish catalog symbols e)
      (finish catalog symbols' e') := by
  -- An induction on what is left of the first text, as for surveys.
  induction hlen : e.cursor.rest.length using Nat.strongRecOn generalizing e e' with
  | ind n ih =>
    subst hlen
    rcases hw h.cursor with ⟨hc, hd⟩ | hnext
    · rw [finish_of_rest_nil hc, finish_of_rest_nil hd]
      exact .ok .nil
    · generalize hx : Reader.next e.cursor = x, hy : Reader.next e'.cursor = y at hnext
      cases hnext with
      | error he =>
        rw [finish_of_next_error hx, finish_of_next_error hy]
        exact .error he
      | excused he =>
        rw [finish_of_next_error hx]
        exact .excused he
      | @ok _ _ c d hpulled =>
        cases hpulled with
        | @word t u _ _ hword =>
          have hlt := Reader.length_rest_lt_of_next hx
          by_cases hk : t.kind.leads = true
          · have hstatement := Catalog.coupled_emitStatement (h.contexts hknows) hs hword.tokens hk
              c d hword.cursors
            rw [finish_of_leads hx hk, finish_of_leads hy (C.kind_eq hword.tokens ▸ hk)]
            generalize hx' : catalog.emitStatement (e.context symbols) t c = x',
              catalog.emitStatement (e'.context symbols') u d = y' at hstatement ⊢
            cases hstatement with
            | error he => exact .error he
            | excused he => exact .excused he
            | @ok lines lines' c' d' hq =>
              obtain ⟨hlines, hcursors⟩ := hq
              have hle := ((catalog.forward_emitStatement _ t).ok hx').length_rest_le
              have hnext : Both C
                  { e with cursor := c', pending := none, emitted := e.emitted + lines.length }
                  { e' with
                    cursor := d', pending := none, emitted := e'.emitted + lines'.length } :=
                { h with
                  cursor := hcursors
                  emitted_eq := by simp only [h.emitted_eq, hlines.length_eq]
                  pending_eq := fun _ ↦ rfl }
              exact (ih _ (Nat.lt_of_le_of_lt hle hlt) hnext rfl).map fun rest rest' hcode ↦
                (h.noted hlines).append hcode
          · have hk' : ¬ u.kind.leads = true := by rwa [C.kind_eq hword.tokens]
            rw [finish_of_not_leads hx hk, finish_of_not_leads hy hk']
            have hrest := ih _ (by rwa [cursor_passing]) (h.passing hword hk) rfl
            rwa [debug_passing] at hrest
        | ended h =>
          rw [finish_of_rest_nil (Reader.next_eq_ok_none_iff.mp hx).1, finish_of_ended h hy]
          exact .ok .nil

end Emission

/-- Texts that are coupled are assembled alike, if the symbols that the surveys find belong together
and know the same. -/
theorem Coupling.ofTextWith {C : Coupling} (hw : C.Walks) {R : Symbols → Symbols → Prop}
    (hR : C.Declares R) (hempty : R .empty .empty) (hknows : ∀ {s t}, R s t → C.Knows s t)
    {catalog : Catalog} (hc : catalog.WellMade) {text other : String}
    (h : C.Cursors .front (Cursor.ofText text) (Cursor.ofText other)) :
    Outcomes C.lenient C.Faults
      (fun a b ↦ R a.symbols b.symbols ∧ C.SameCode true a.code b.code)
      (Assembly.ofTextWith catalog text) (Assembly.ofTextWith catalog other) := by
  have hsurvey : Outcomes C.lenient C.Faults R (Symbols.survey catalog text)
      (Symbols.survey catalog other) :=
    Survey.coupled_finish hw hR (.inr hc) ⟨h, hempty⟩
  refine hsurvey.bind fun s t hst ↦ ?_
  have hstart : Emission.Both C (.start true text) (.start true other) :=
    ⟨h, rfl, rfl, rfl, fun _ ↦ rfl⟩
  have hemit : Outcomes C.lenient C.Faults (C.SameCode true) (CodeLine.emit catalog s text)
      (CodeLine.emit catalog t other) :=
    Emission.coupled_finish hw (.inr hc) (hknows hst) hstart
  exact hemit.map (g := Assembly.mk t) fun code code' hcode ↦ ⟨hst, hcode⟩

section SameText

variable {lenient : Prop} {catalog : Catalog} {s t : Symbols}

/-- The two sides of one text. -/
def Sides.same (lenient : Prop) : Sides where
  lines := 0
  verbatim := True
  lenient := lenient
  Cursors _ c d := d = c
  Tokens _ t u := u = t
  Faults f g := g = f

private theorem Sides.same_next (place : LinePlace) (c : Cursor) :
    Matched lenient (same lenient).Faults ((same lenient).Pulled place) (Reader.next c)
      (Reader.next c) := by
  cases hn : Reader.next c with
  | error f d => exact .error rfl
  | ok token d =>
    cases token with
    | some t => exact .ok (.word ⟨rfl, rfl, rfl⟩)
    | none =>
      obtain ⟨hrest, rfl⟩ := Reader.next_eq_ok_none_iff.mp hn
      refine .ok (.ended ⟨nofun, hrest, rfl, fun _ hcause ↦ ?_⟩)
      rw [hcause rfl trivial]
      rfl

/-- A text is coupled with itself. -/
def Coupling.same (lenient : Prop) : Coupling where
  toSides := .same lenient
  kind_eq h := congrArg Token.kind h
  value_eq h _ := congrArg Token.value h
  line_eq h _ := congrArg Cursor.line h
  atLineEnd_eq h := congrArg Cursor.atLineEnd h
  front h _ := h
  next {place c d} h _ := by
    subst h
    exact Sides.same_next place _
  onLine h := by
    rw [h.eq_of_verbatim trivial]
    rfl
  withDefinition definition h := congrArg (Fault.withDefinition definition) h

private theorem Coupling.same_steady : (same lenient).Steady where
  cursors h := h
  noCode := rfl

private theorem Coupling.same_walks : (same lenient).Walks := by
  rintro c d ⟨⟩
  exact .inr (Sides.same_next .front c)

theorem Sides.Resolved.refl {S : Sides} (x : Except Cause Int) : S.Resolved x x := by
  cases x with
  | ok index => exact .ok index
  | error cause => exact .error (.refl S cause)

private theorem Sides.same_knows (s : Symbols) : (same lenient).Knows s s where
  vars _ h := h
  noOtherVars _ h := .inl h
  label h _ := h ▸ .refl _
  routine _ := .refl _

private theorem CodeLine.render_kept (debug : Bool) (line : CodeLine) :
    (line.kept debug).render true = line.render debug := by
  cases debug <;> simp [kept, render]

/-- With symbols that know the same, what is printed with or without comments is the code with all
its notes, of which as many are shown as are wanted. -/
theorem CodeLine.printed_of_knows (h : (Sides.same lenient).Knows s t) (debug : Bool)
    (text : String) :
    Outcomes lenient (Sides.same lenient).Faults
      (fun code lines ↦ lines = code.map (render debug))
      (emit catalog s text) (printed debug catalog t text) := by
  have hstart : Emission.Both (.same lenient) (.start true text) (.start debug text) :=
    ⟨rfl, rfl, rfl, rfl, fun _ ↦ rfl⟩
  have hfinish : Outcomes lenient _ _ (emit catalog s text) _ :=
    Emission.coupled_finish Coupling.same_walks (.inl Coupling.same_steady) h hstart
  refine hfinish.map_right fun code code' hcode ↦ ?_
  rw [hcode.kept trivial, List.map_map]
  exact List.map_congr_left fun line _ ↦ render_kept debug line

theorem CodeLine.printed_eq (debug : Bool) (catalog : Catalog) (symbols : Symbols)
    (text : String) :
    printed debug catalog symbols text =
      (emit catalog symbols text).map (List.map (render debug)) :=
  (printed_of_knows (Sides.same_knows symbols) debug text).eq_map

/-- An assembly as it is printed. -/
def Assembly.listing (debug : Bool) (a : Assembly) : Listing :=
  ⟨a.symbols, a.lines debug⟩

/-- To print a text is to assemble it and to print the assembly. -/
theorem Listing.ofTextWith_eq (debug : Bool) (catalog : Catalog) (text : String) :
    ofTextWith debug catalog text =
      (Assembly.ofTextWith catalog text).map (Assembly.listing debug) := by
  unfold ofTextWith Assembly.ofTextWith
  simp only [CodeLine.printed_eq]
  cases Symbols.survey catalog text with
  | error f => rfl
  | ok symbols =>
    simp only [bind, Except.bind]
    cases CodeLine.emit catalog symbols text <;> rfl

theorem Listing.ofText_eq (debug : Bool) (text : String) :
    ofText debug text = (Assembly.ofText text).map (Assembly.listing debug) :=
  ofTextWith_eq debug .standard text

end SameText

end MlogAsm
