import MlogAsm.Proofs.ProgramCode
import MlogAsm.Proofs.Pulling

/-!
# Statements on one line

What a statement reads is on one line, and where it fails the last lexeme that was pulled is to
blame: a stray character, or a token that cannot stand where it does. Only a statement that is cut
off by the end of the text has nothing to blame.
-/

namespace MlogAsm

/-- A token is the name behind a control instruction of one of some forms, which leads its
statement. -/
def Token.NamesTarget (catalog : Catalog) (forms : List ControlForm) (before : List Token)
    (t : Token) : Prop :=
  t.kind = .name ∧ ∃ lead control, before = [lead] ∧
    catalog.find? lead.kind = some (.control control) ∧ control.form ∈ forms

namespace Cause

/-- What a cause is about, in a statement with `before` before it while `routine` is open: a stray
character, a token in the wrong place, a name that stands for no target, the name of the open
routine in a call, or a return while no routine is open. -/
def Blames (catalog : Catalog) (routine : Option String) (before : List Token) :
    Cause → Lexeme → Prop
  | strayCharacter c, .stray c' _ _ => c' = c
  | unexpectedToken found, .token t | unwritable found _, .token t | misfitOperand _ found, .token t
  | unknownMember found _, .token t | expectedName _ found, .token t
  | expectedComparison found, .token t => t.describe = found
  | newlineAfterGroup _, .token t => t.kind = .newline
  | labelIsRoutine name, .token t | unknownLabel name, .token t =>
    t.NamesTarget catalog [.jump, .goto] before ∧ t.value = name
  | routineIsLabel name, .token t | unknownRoutine name, .token t =>
    t.NamesTarget catalog [.gosub] before ∧ t.value = name
  | selfCall, .token t => t.NamesTarget catalog [.gosub] before ∧ routine = some t.value
  | returnOutsideRoutine, .token t =>
    before = [] ∧ routine = none ∧
      ∃ control, catalog.find? t.kind = some (.control control) ∧ control.form = .leave
  | _, _ => False

/-- Something is missing at the end of the text. -/
def MeetsEnd : Cause → Prop
  | missingOperand _ | missingMember => True
  | expectedName _ found | expectedComparison found => found = Token.describe? none
  | _ => False

/-- Nothing is blamed for a broken catalog. -/
theorem Blames.category_mem {catalog : Catalog} {routine : Option String} {before : List Token}
    {cause : Cause} {l : Lexeme} (h : cause.Blames catalog routine before l) :
    cause.category ∈ [.lexical, .structural, .resolution, .semantic] := by
  cases cause with
  | lineCount | noCode => cases l <;> exact h.elim
  | _ => simp [category]

theorem MeetsEnd.category_eq {cause : Cause} (h : cause.MeetsEnd) :
    cause.category = .structural := by
  cases cause with
  | missingOperand | missingMember | expectedName | expectedComparison => rfl
  | _ => exact h.elim

/-- The message says that the text ended. -/
theorem MeetsEnd.exists_message {cause : Cause} (h : cause.MeetsEnd) :
    ∃ front, cause.message = front ++ "got EOF" := by
  cases cause with
  | missingOperand expected =>
    have hcut : " or variable, got EOF" = " or variable, " ++ "got EOF" := by decide
    refine ⟨"expected " ++ expected ++ " or variable, ", ?_⟩
    rw [String.append_assoc, ← hcut]
    rfl
  | missingMember =>
    have hcut : "expected sub-instruction name, got EOF" =
      "expected sub-instruction name, " ++ "got EOF" := by decide
    exact ⟨_, hcut⟩
  | expectedName what found =>
    have hcut : ", got " ++ found = ", " ++ "got EOF" := by
      rw [show found = "EOF" from h]
      decide
    refine ⟨"expected " ++ what ++ ", ", ?_⟩
    rw [String.append_assoc, ← hcut, ← String.append_assoc]
    rfl
  | expectedComparison found =>
    have hcut : "expected comparison, got " ++ found = "expected comparison, " ++ "got EOF" := by
      rw [show found = "EOF" from h]
      decide
    exact ⟨_, hcut⟩
  | _ => exact h.elim

end Cause

section Places

/-- A turn of a walk over a program: the lexemes from its first word on, and the routine that is
open. -/
structure Turn where
  catalog : Catalog
  routine : Option String
  lexemes : List Lexeme

variable {turn : Turn}

/-- A cursor has pulled tokens of a line from the beginning of a turn on: `before`, and `token` as
the last. At the end of the text that is none. -/
inductive Cursor.Took (turn : Turn) (before : List Token) : Option Token → Cursor → Prop where
  | token {t : Token} {c : Cursor} (hls : turn.lexemes = before.map .token ++ .token t :: c.rest)
      (hline : ∀ u ∈ before, u.kind ≠ .newline) (hl : c.line = t.line)
      (he : c.atLineEnd = (t.kind == .newline)) : Took turn before (some t) c
  | ended {c : Cursor} (hls : turn.lexemes = before.map .token)
      (hline : ∀ u ∈ before, u.kind ≠ .newline) (hr : c.rest = []) (he : c.atLineEnd = true) :
      Took turn before none c

/-- The last that a cursor has pulled in a turn is a token of its line, or none. -/
def Cursor.Behind (turn : Turn) (token : Option Token) (c : Cursor) : Prop :=
  ∃ before, c.Took turn before token

/-- A cursor stands behind a token of the line that does not end it. -/
def Cursor.Inside (turn : Turn) (c : Cursor) : Prop :=
  ∃ t, t.kind ≠ .newline ∧ c.Behind turn (some t)

/-- A cursor stands behind the line. -/
def Cursor.Over (turn : Turn) (c : Cursor) : Prop :=
  ∃ token, c.Behind turn token ∧ ∀ t ∈ token, t.kind = .newline

/-- A cursor stands on the line or behind it. -/
def Cursor.Along (turn : Turn) (c : Cursor) : Prop :=
  c.Inside turn ∨ c.Over turn

private theorem Cursor.Behind.along {token : Option Token} {c : Cursor} (h : c.Behind turn token) :
    c.Along turn := by
  cases token with
  | none => exact .inr ⟨none, h, by simp⟩
  | some t =>
    by_cases hk : t.kind = .newline
    · exact .inr ⟨some t, h, by simpa using hk⟩
    · exact .inl ⟨t, hk, h⟩

/-- A fault is met on the line that a turn begins with: at the last lexeme that was pulled, which is
one of the line or its end, or else at the end of the text. -/
inductive Fault.MetOn (turn : Turn) (stop : Cursor) (f : Fault) : Prop where
  | blamed {before : List Token} {l : Lexeme}
      (hls : turn.lexemes = before.map .token ++ l :: stop.rest)
      (hline : ∀ u ∈ before, u.kind ≠ .newline)
      (hb : f.cause.Blames turn.catalog turn.routine before l) (hl : f.line = some l.line) :
      MetOn turn stop f
  | ended {before : List Token} (hls : turn.lexemes = before.map .token)
      (hline : ∀ u ∈ before, u.kind ≠ .newline) (he : f.cause.MeetsEnd) (hl : f.line = none) :
      MetOn turn stop f

theorem Fault.MetOn.withDefinition {stop : Cursor} {f : Fault} (h : f.MetOn turn stop)
    (definition : String) : (f.withDefinition definition).MetOn turn stop := by
  unfold Fault.withDefinition
  split
  · cases h with
    | blamed hls hline hb hl => exact .blamed hls hline hb hl
    | ended hls hline he hl => exact .ended hls hline he hl
  · exact h

end Places

section Reports

variable {σ α β : Type} {cursor : σ → Cursor} {turn : Turn}

/-- What comes of a step: a result with what is known of it, or a fault that is met on the line. -/
inductive Reported (cursor : σ → Cursor) (turn : Turn) (Q : α → σ → Prop) :
    EStateM.Result Fault σ α → Prop where
  | ok {a : α} {s : σ} (h : Q a s) : Reported cursor turn Q (.ok a s)
  | error {f : Fault} {s : σ} (h : f.MetOn turn (cursor s)) : Reported cursor turn Q (.error f s)

/-- A step keeps to the line from every state with `P`, and leaves `Q`. -/
def Reports (cursor : σ → Cursor) (turn : Turn) (P : σ → Prop) (Q : α → σ → Prop)
    (m : EStateM Fault σ α) : Prop :=
  ∀ s, P s → Reported cursor turn Q (m s)

namespace Reports

variable {P P' : σ → Prop} {Q Q' : α → σ → Prop} {R : β → σ → Prop} {m : EStateM Fault σ α}

theorem pure {a : α} (h : ∀ s, P s → Q a s) : Reports cursor turn P Q (pure a) :=
  fun s hs ↦ .ok (h s hs)

theorem modify {f : σ → σ} {Q : PUnit → σ → Prop} (h : ∀ s, P s → Q ⟨⟩ (f s)) :
    Reports cursor turn P Q (modify f : EStateM Fault σ PUnit) :=
  fun s hs ↦ .ok (h s hs)

theorem bind {f : α → EStateM Fault σ β} (hm : Reports cursor turn P Q m)
    (hf : ∀ a, Reports cursor turn (Q a) R (f a)) : Reports cursor turn P R (m >>= f) := by
  intro s hs
  have h := hm s hs
  change Reported cursor turn R (EStateM.bind m f s)
  unfold EStateM.bind
  generalize m s = x at h ⊢
  cases h with
  | ok hq => exact hf _ _ hq
  | error he => exact .error he

/-- More may be known before, and less may be wanted after. -/
theorem imp (hm : Reports cursor turn P Q m) (hp : ∀ s, P' s → P s)
    (hq : ∀ a s, Q a s → Q' a s) : Reports cursor turn P' Q' m := by
  intro s hs
  have h := hm s (hp s hs)
  generalize m s = x at h ⊢
  cases h with
  | ok h => exact .ok (hq _ _ h)
  | error he => exact .error he

/-- What is known of every result of a step. -/
theorem attach {G : α → Prop} (hm : Reports cursor turn P Q m)
    (hg : ∀ {s s' : σ} {a : α}, m s = .ok a s' → G a) :
    Reports cursor turn P (fun a s ↦ G a ∧ Q a s) m := by
  intro s hs
  have h := hm s hs
  generalize hx : m s = x at h ⊢
  cases h with
  | ok h => exact .ok ⟨hg hx, h⟩
  | error he => exact .error he

end Reports
end Reports

namespace Reader

variable {α : Type} {turn : Turn}

/-- The next lexeme of the line is pulled behind those before it. -/
private theorem reports_next_took {before : List Token} {t : Token} (ht : t.kind ≠ .newline) :
    Reports id turn (fun c ↦ c.Took turn before (some t))
      (fun token c ↦ c.Took turn (before ++ [t]) token) next := by
  rintro ⟨rest, line, ended⟩ h
  cases h with
  | token hls hline hl he =>
    have hline : ∀ u ∈ before ++ [t], u.kind ≠ .newline :=
      List.forall_mem_append.mpr ⟨hline, by simpa using ht⟩
    have hls : turn.lexemes = (before ++ [t]).map .token ++ rest := by simpa using hls
    cases rest with
    | nil => exact .ok (.ended (by simpa using hls) hline rfl rfl)
    | cons l rest =>
      cases l with
      | token u => exact .ok (.token hls hline rfl rfl)
      | stray ch line pos => exact .error (.blamed hls hline rfl rfl)

private theorem reports_next :
    Reports id turn (Cursor.Inside turn) (fun token c ↦ c.Behind turn token) next := by
  rintro c ⟨t, ht, before, h⟩
  exact (reports_next_took ht).imp (fun _ h ↦ h) (fun _ _ h ↦ ⟨_, h⟩) c h

/-- The last token pulled is blamed. -/
private theorem reports_fail_took {before : List Token} {t : Token} {cause : Cause}
    {Q : α → Cursor → Prop} (h : cause.Blames turn.catalog turn.routine before (.token t)) :
    Reports id turn (fun c ↦ c.Took turn before (some t)) Q (fail cause) := by
  intro c hc
  cases hc with
  | token hls hline hl he =>
    rw [fail_eq, hl]
    exact .error (.blamed hls hline h rfl)

private theorem reports_fail {t : Token} {cause : Cause} {Q : α → Cursor → Prop}
    (h : ∀ before, cause.Blames turn.catalog turn.routine before (.token t)) :
    Reports id turn (fun c ↦ c.Behind turn (some t)) Q (fail cause) := by
  rintro c ⟨before, hc⟩
  exact reports_fail_took (h before) c hc

/-- The last pull is blamed, which was a token or the end of the text. -/
private theorem reports_blame {token : Option Token} {cause : Cause} {hint : Option Hint}
    {Q : α → Cursor → Prop}
    (hsome : ∀ t ∈ token, ∀ before, cause.Blames turn.catalog turn.routine before (.token t))
    (hnone : token = none → cause.MeetsEnd) :
    Reports id turn (fun c ↦ c.Behind turn token) Q
      (lineOf token >>= fun line ↦ throw ⟨cause, line, hint⟩) := by
  rintro c ⟨before, hc⟩
  change Reported id turn Q (.error ⟨cause, token.map fun _ ↦ c.line, hint⟩ c)
  cases hc with
  | token hls hline hl he =>
    exact .error (.blamed hls hline (hsome _ rfl before) (congrArg some hl))
  | ended hls hline hr he => exact .error (.ended hls hline (hnone rfl) rfl)

private theorem reports_describing {P : Cursor → Prop} {Q : α → Cursor → Prop} {m : Reader α}
    (h : Reports id turn P Q m) (definition : String) :
    Reports id turn P Q (describing definition m) := by
  intro c hc
  have hm := h c hc
  unfold describing
  generalize m c = x at hm ⊢
  cases hm with
  | ok hq => exact .ok hq
  | error he => exact .error (he.withDefinition definition)

/-- A name that cannot be resolved is blamed, if it was pulled last. -/
private theorem reports_resolve {before : List Token} {t : Token} {result : Except Cause α}
    (ht : t.kind = .name)
    (h : ∀ cause, result = .error cause →
      cause.Blames turn.catalog turn.routine before (.token t)) :
    Reports id turn (fun c ↦ c.Took turn before (some t)) (fun _ c ↦ c.Inside turn)
      (resolve result) := by
  cases result with
  | ok a => exact .pure fun c hc ↦ ⟨t, by simp [ht], before, hc⟩
  | error cause => exact reports_fail_took (h cause rfl)

private theorem atLineEnd_of_inside {c : Cursor} (h : c.Inside turn) : c.atLineEnd = false := by
  obtain ⟨t, ht, before, h⟩ := h
  cases h with
  | token hls hline hl he => rw [he, beq_eq_false_iff_ne.mpr ht]

private theorem atLineEnd_of_over {c : Cursor} (h : c.Over turn) : c.atLineEnd = true := by
  obtain ⟨token, ⟨before, h⟩, hk⟩ := h
  cases h with
  | token hls hline hl he => rw [he, hk _ rfl, beq_self_eq_true]
  | ended hls hline hr he => exact he

/-- The end of a line is pulled, unless the line is over. -/
private theorem reports_endLine :
    Reports id turn (Cursor.Along turn) (fun _ c ↦ c.Over turn) endLine := by
  intro c hc
  rw [endLine_eq_bind]
  dsimp only
  rcases hc with hc | hc
  · rw [atLineEnd_of_inside hc]
    refine reports_next.bind (fun token ↦ ?_) c hc
    cases token with
    | none => exact .pure fun c h ↦ ⟨none, h, by simp⟩
    | some t =>
      dsimp only [Option.elim]
      split
      · next hk => exact .pure fun c h ↦ ⟨some t, h, by simpa using hk⟩
      · exact reports_fail fun _ ↦ rfl
  · rw [atLineEnd_of_over hc]
    exact .ok hc

private theorem reports_skipLine :
    Reports id turn (Cursor.Along turn) (fun _ c ↦ c.Over turn) skipLine := by
  intro c hc
  induction hlen : c.rest.length using Nat.strongRecOn generalizing c with
  | ind n ih =>
    subst hlen
    rcases hc with hc | hc
    · have hnext : Reported id turn (fun token d ↦ d.Behind turn token) (next c) :=
        reports_next c hc
      rw [skipLine_of_inside (atLineEnd_of_inside hc)]
      generalize hx : next c = x at hnext ⊢
      cases hnext with
      | error he => exact .error he
      | @ok token d hd =>
        cases token with
        | none => exact .ok ⟨none, hd, by simp⟩
        | some t =>
          dsimp only
          split
          · have hblame (before : List Token) : Cause.Blames turn.catalog turn.routine before
                (.unexpectedToken t.describe) (.token t) := rfl
            exact reports_fail hblame d hd
          · exact ih _ (length_rest_lt_of_next hx) d hd.along rfl
    · rw [skipLine_of_atLineEnd (atLineEnd_of_over hc)]
      exact .ok hc

end Reader

section Statements

variable {turn : Turn}

/-- An operand that is read is on the line. Only one that may be left out can be missing. -/
private theorem Slot.reports_read (vars : List String) (slot : Slot) :
    Reports id turn (Cursor.Inside turn)
      (fun _ c ↦ c.Inside turn ∨ slot.optional = true ∧ c.Over turn) (slot.read vars) := by
  refine Reader.reports_next.bind fun token ↦ ?_
  cases token with
  | none =>
    dsimp only
    split
    · next ho => exact .pure fun c h ↦ .inr ⟨ho, none, h, by simp⟩
    · rintro c ⟨before, hc⟩
      cases hc with
      | ended hls hline hr he => exact .error (.ended hls hline trivial rfl)
  | some t =>
    dsimp only
    split
    · next ho => exact .pure fun c h ↦ .inr ⟨ho.2, some t, h, by simpa using ho.1⟩
    · split
      · next ha =>
        have hk : t.kind ≠ .newline := by
          intro hk
          rw [hk, accepts_newline] at ha
          cases ha
        exact .pure fun c h ↦ .inl ⟨t, hk, h⟩
      · exact Reader.reports_fail fun _ ↦ rfl

private theorem Slot.reports_readEach (vars : List String) {slots : List Slot}
    (ho : OnlyLastOptional slots) :
    Reports id turn (Cursor.Inside turn) (fun _ c ↦ c.Along turn) (readEach vars slots) := by
  induction slots with
  | nil => exact .pure fun c h ↦ .inl h
  | cons slot slots ih =>
    refine (slot.reports_read vars).bind fun operand ↦ ?_
    rintro c (h | ⟨hopt, h⟩)
    · refine (ih ho.tail).bind (fun operands ↦ ?_) c h
      exact .pure fun _ h ↦ h
    · rw [ho.eq_nil hopt]
      exact .ok (.inr h)

private theorem Slot.reports_readAll (vars : List String) (definition : String) {slots : List Slot}
    (ho : OnlyLastOptional slots) :
    Reports id turn (Cursor.Inside turn) (fun _ c ↦ c.Along turn)
      (readAll vars definition slots) :=
  Reader.reports_describing (reports_readEach vars ho) definition

private theorem Operation.reports_emit (vars : List String) {op : Operation}
    (ho : Slot.OnlyLastOptional op.args) :
    Reports id turn (Cursor.Inside turn) (fun _ c ↦ c.Along turn) (op.emit vars) :=
  (Slot.reports_readAll vars op.definition ho).bind fun _ ↦ .pure fun _ h ↦ h

private theorem OperationGroup.reports_select (group : OperationGroup) :
    Reports id turn (Cursor.Inside turn)
      (fun op c ↦ (∃ kind, group.member? kind = some op) ∧ c.Inside turn) group.select := by
  refine Reader.reports_next.bind fun token ↦ ?_
  cases token with
  | none =>
    rintro c ⟨before, hc⟩
    cases hc with
    | ended hls hline hr he => exact .error (.ended hls hline trivial rfl)
  | some t =>
    dsimp only
    split
    · next hk => exact Reader.reports_fail fun _ ↦ hk
    · next hk =>
      cases hm : group.member? t.kind with
      | none =>
        rintro c ⟨before, hc⟩
        cases hc with
        | token hls hline hl he => exact .error (.blamed hls hline rfl (congrArg some hl))
      | some member => exact .pure fun c h ↦ ⟨⟨t.kind, hm⟩, t, hk, h⟩

private theorem Instruction.reports_layout (i : Instruction) :
    Reports id turn (Cursor.Inside turn) (fun _ c ↦ c.Inside turn) i.layout := by
  cases i with
  | operation op => exact .pure fun _ h ↦ h
  | group g => exact g.reports_select.bind fun _ ↦ .pure fun _ h ↦ h.2
  | control c => exact .pure fun _ h ↦ h

/-- A name that is read was pulled last, right behind the word that leads the statement. -/
private theorem Control.reports_readName (control : Control) (what : String) {lead : Token}
    (hlead : lead.kind ≠ .newline) :
    Reports id turn (fun c ↦ c.Took turn [] (some lead))
      (fun name c ↦ ∃ t, t.kind = .name ∧ t.value = name ∧ c.Took turn [lead] (some t))
      (control.readName what) := by
  refine (Reader.reports_next_took hlead).bind fun token ↦ ?_
  by_cases hk : ∃ t, token = some t ∧ t.kind = .name
  · obtain ⟨t, rfl, hk⟩ := hk
    simp only [Option.filter, hk, beq_self_eq_true, if_true]
    exact .pure fun c h ↦ ⟨t, hk, rfl, h⟩
  · have hfilter : token.filter (·.kind == .name) = none := by
      rw [Option.filter_eq_none_iff]
      intro t ht
      simpa using fun hname ↦ hk ⟨t, ht, hname⟩
    rw [hfilter]
    refine (Reader.reports_blame (fun t ht before ↦ ?_) fun hnone ↦ ?_).imp (fun c h ↦ ⟨_, h⟩)
      fun _ _ h ↦ h
    · rw [Option.mem_def.mp ht]
      rfl
    · rw [hnone]
      rfl

private theorem Control.reports_readCondition (control : Control) (vars : List String) :
    Reports id turn (Cursor.Inside turn) (fun _ c ↦ c.Along turn)
      (control.readCondition vars) := by
  rw [readCondition_eq_bind]
  refine Reader.reports_next.bind fun token ↦ ?_
  split
  · next ho =>
    have hinside : ∀ c : Cursor, c.Behind turn token → c.Inside turn := by
      intro c hc
      cases token with
      | none => cases ho
      | some t =>
        refine ⟨t, ?_, hc⟩
        intro hk
        simp [hk] at ho
    refine .bind ((Slot.reports_readAll vars _ (by decide)).imp hinside fun _ _ h ↦ h) ?_
    exact fun operands ↦ .pure fun _ h ↦ h
  · split
    · exact .pure fun _ h ↦ h.along
    · refine Reader.reports_blame (fun t ht before ↦ ?_) fun hnone ↦ ?_
      · rw [Option.mem_def.mp ht]
        rfl
      · rw [hnone]
        rfl

private theorem Symbols.blames_of_labelIndex {s : Symbols} {before : List Token} {t : Token}
    (ht : t.NamesTarget turn.catalog [.jump, .goto] before) {cause : Cause}
    (h : s.labelIndex t.value = .error cause) :
    cause.Blames turn.catalog turn.routine before (.token t) := by
  unfold labelIndex at h
  split at h
  · cases h
  · split at h <;> cases h <;> exact ⟨ht, rfl⟩

private theorem Symbols.blames_of_routineIndex {s : Symbols} {before : List Token} {t : Token}
    (ht : t.NamesTarget turn.catalog [.gosub] before) {cause : Cause}
    (h : s.routineIndex t.value = .error cause) :
    cause.Blames turn.catalog turn.routine before (.token t) := by
  unfold routineIndex at h
  split at h
  · cases h
  · split at h <;> cases h <;> exact ⟨ht, rfl⟩

/-- The word that leads a statement was pulled last, and nothing before it. -/
theorem Cursor.Took.inside {lead : Token} {c : Cursor} (h : c.Took turn [] (some lead))
    (hlead : lead.kind ≠ .newline) : c.Inside turn :=
  ⟨lead, hlead, [], h⟩

private theorem Control.reports_emit {ctx : Context} (hr : turn.routine = ctx.routine)
    {control : Control} {lead : Token} (hl : turn.catalog.find? lead.kind = some (.control control))
    (hlead : lead.kind ≠ .newline) (hc : turn.catalog.Complete) :
    Reports id turn (fun c ↦ c.Took turn [] (some lead)) (fun _ c ↦ c.Along turn)
      (control.emit ctx) := by
  have htarget (forms : List ControlForm) {t : Token} (ht : t.kind = .name)
      (hform : control.form ∈ forms) : t.NamesTarget turn.catalog forms [lead] :=
    ⟨ht, lead, control, rfl, hl, hform⟩
  unfold emit
  cases hform : control.form with
  | jump =>
    refine (control.reports_readName _ hlead).bind fun label ↦ ?_
    rintro c ⟨t, ht, rfl, h⟩
    have hname := htarget [.jump, .goto] ht (by simp [hform])
    refine (Reader.reports_resolve ht fun _ ↦ Symbols.blames_of_labelIndex hname).bind
      (fun target ↦ ?_) c h
    exact (control.reports_readCondition _).bind fun condition ↦ .pure fun _ h ↦ h
  | goto =>
    refine (control.reports_readName _ hlead).bind fun label ↦ ?_
    rintro c ⟨t, ht, rfl, h⟩
    have hname := htarget [.jump, .goto] ht (by simp [hform])
    refine (Reader.reports_resolve ht fun _ ↦ Symbols.blames_of_labelIndex hname).bind
      (fun target ↦ ?_) c h
    exact .pure fun _ h ↦ .inl h
  | gosub =>
    refine (control.reports_readName _ hlead).bind fun routine ↦ ?_
    rintro c ⟨t, ht, rfl, h⟩
    have hname := htarget [.gosub] ht (by simp [hform])
    dsimp only
    split
    · next hself =>
      have hfail : Reports id turn (fun c ↦ c.Took turn [lead] (some t)) (fun _ _ ↦ False)
          (Reader.fail .selfCall : Reader PUnit) :=
        Reader.reports_fail_took ⟨hname, hr.trans hself⟩
      exact hfail.bind (fun _ _ hfalse ↦ hfalse.elim) c h
    · refine (Reader.reports_resolve ht fun _ ↦ Symbols.blames_of_routineIndex hname).bind
        (fun target ↦ ?_) c h
      exact .pure fun _ h ↦ .inl h
  | leave =>
    dsimp only
    cases hopen : ctx.routine with
    | none => exact Reader.reports_fail_took ⟨rfl, hr.trans hopen, control, hl, hform⟩
    | some routine => exact .pure fun c h ↦ .inl (h.inside hlead)
  | compute =>
    refine ((Slot.reports_readAll _ _ (hc.onlyLastOptional.control hl)).imp
      (fun _ h ↦ h.inside hlead) fun _ _ h ↦ h).bind fun operands ↦ ?_
    exact .pure fun _ h ↦ h
  | undefined => exact absurd hform (hc.hasCode _ (List.mem_of_find?_eq_some hl))

private theorem Instruction.reports_emit {ctx : Context} (hr : turn.routine = ctx.routine)
    {instruction : Instruction} {lead : Token}
    (hl : turn.catalog.find? lead.kind = some instruction) (hlead : lead.kind ≠ .newline)
    (hc : turn.catalog.Complete) :
    Reports id turn (fun c ↦ c.Took turn [] (some lead)) (fun _ c ↦ c.Along turn)
      (instruction.emit ctx) := by
  cases instruction with
  | operation op =>
    refine ((op.reports_emit _ (hc.onlyLastOptional.operation hl)).imp
      (fun _ h ↦ h.inside hlead) fun _ _ h ↦ h).bind fun words ↦ ?_
    exact .pure fun _ h ↦ h
  | group g =>
    refine (g.reports_select.imp (fun _ h ↦ h.inside hlead) fun _ _ h ↦ h).bind fun member ↦ ?_
    rintro c ⟨⟨pick, hm⟩, h⟩
    refine (member.reports_emit _ (hc.onlyLastOptional.member hl hm)).bind (fun words ↦ ?_) c h
    exact .pure fun _ h ↦ h
  | control control => exact control.reports_emit hr hl hlead hc

/-- A statement that succeeds takes its line, and one that fails does so on its line. -/
theorem Catalog.reports_emitStatement (hc : turn.catalog.Complete) {ctx : Context}
    (hr : turn.routine = ctx.routine) {lead : Token} (hlead : lead.kind ≠ .newline) :
    Reports id turn (fun c ↦ c.Took turn [] (some lead)) (fun _ c ↦ c.Over turn)
      (turn.catalog.emitStatement ctx lead) := by
  unfold emitStatement
  cases hl : turn.catalog.find? lead.kind with
  | none => exact Reader.reports_fail_took rfl
  | some instruction =>
    refine ((instruction.reports_emit hr hl hlead hc).attach Instruction.length_of_emit).bind
      fun lines ↦ ?_
    rintro c ⟨hlength, h⟩
    refine Reader.reports_endLine.bind (fun _ ↦ ?_) c h
    rw [if_pos (hlength.trans (hc.emits_eq _ (List.mem_of_find?_eq_some hl)).symm)]
    exact .pure fun _ h ↦ h

namespace Survey

variable {α : Type}

private theorem reports_read {P : Cursor → Prop} {Q : α → Cursor → Prop} {m : Reader α}
    (h : Reports id turn P Q m) :
    Reports cursor turn (fun s ↦ P s.cursor) (fun a s ↦ Q a s.cursor) (read m) := by
  intro s hs
  have hm := h s.cursor hs
  unfold read
  generalize m s.cursor = x at hm ⊢
  cases hm with
  | ok hq => exact .ok hq
  | error he => exact .error he

private theorem reports_recordOperand (owner : String) (slot : Slot) (t : Token) :
    Reports cursor turn (fun s ↦ s.cursor.Behind turn (some t))
      (fun _ s ↦ s.cursor.Behind turn (some t)) (recordOperand owner slot t) := by
  unfold recordOperand
  split
  · split
    · exact .modify fun _ h ↦ h
    · split
      · exact reports_read (Reader.reports_fail fun _ ↦ rfl)
      · exact .pure fun _ h ↦ h
  · exact .pure fun _ h ↦ h

private theorem reports_recordEach (owner : String) (slots : List Slot) :
    Reports cursor turn (fun s ↦ s.cursor.Inside turn) (fun _ s ↦ s.cursor.Along turn)
      (recordEach owner slots) := by
  induction slots with
  | nil => exact .pure fun _ h ↦ .inl h
  | cons slot slots ih =>
    refine (reports_read Reader.reports_next).bind fun token ↦ ?_
    cases token with
    | none => exact .pure fun _ h ↦ h.along
    | some t =>
      dsimp only
      split
      · exact .pure fun _ h ↦ h.along
      · next hk =>
        refine (reports_recordOperand owner slot t).bind fun _ ↦ ?_
        exact ih.imp (fun s h ↦ ⟨t, hk, h⟩) fun _ _ h ↦ h

/-- A statement that passes takes its line, and one that does not fails on its line. -/
theorem reports_statement {lead : Token} (hlead : lead.kind ≠ .newline) :
    Reports cursor turn (fun s ↦ s.cursor.Took turn [] (some lead))
      (fun _ s ↦ s.cursor.Over turn) (statement turn.catalog lead) := by
  unfold statement
  split
  · exact reports_read (Reader.reports_fail_took rfl)
  · next instruction _ =>
    refine Reports.bind (Q := fun _ s ↦ s.cursor.Inside turn)
      (.modify fun s h ↦ h.inside hlead) fun _ ↦ ?_
    refine (reports_read instruction.reports_layout).bind fun slots ↦ ?_
    exact (reports_recordEach _ _).bind fun _ ↦ reports_read Reader.reports_skipLine

end Survey
end Statements

end MlogAsm
