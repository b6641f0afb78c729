import MlogAsm.Proofs.Lossless
import MlogAsm.Proofs.SurveyOutline

/-!
# Pulling

A stream of tokens is used in one way only: its next lexeme is pulled, and its line and whether a
line is over are looked at. Every operation on a stream can be taken apart into such steps, so it
comes with a log of what its pulls have met. All that is known of a stream after any operations in a
row follows from their log.
-/

namespace MlogAsm

section Pulls

variable {σ α β : Type}

/-- An outcome with another fault in place of the one it has. -/
def mapFault (g : Fault → Fault) : EStateM.Result Fault σ α → EStateM.Result Fault σ α
  | .ok a s => .ok a s
  | .error f s => .error (g f) s

/-- The state in which a step has ended, with a result or with a fault. -/
def stateAfter : EStateM.Result Fault σ α → σ
  | .ok _ s => s
  | .error _ s => s

/-- What a step has ended with. -/
def outcomeOf : EStateM.Result Fault σ α → Except Fault α
  | .ok a _ => .ok a
  | .error f _ => .error f

/-- What a pull gives: a token, nothing at the end of the text, or a fault at a stray character. -/
abbrev Answer := Except Fault (Option Token)

/-- A step `m` on a state with a cursor in it, run from the state `s`, ends with `r`, and its pulls
have given the answers `log`. Nothing but the line of the cursor and its being at the end of a line
is looked at, and nothing but `pull` moves it. -/
inductive Pulls (cursor : σ → Cursor) (pull : EStateM Fault σ (Option Token)) :
    {α : Type} → EStateM Fault σ α → σ → List Answer → EStateM.Result Fault σ α →
      Prop where
  | pure {α : Type} (a : α) (s : σ) : Pulls cursor pull (pure a) s [] (.ok a s)
  | throw {α : Type} (f : Fault) (s : σ) :
      Pulls cursor pull (throw f : EStateM Fault σ α) s [] (.error f s)
  | look {α : Type} {g : Nat → Bool → EStateM Fault σ α} {s : σ} {log : List Answer}
      {r : EStateM.Result Fault σ α}
      (h : Pulls cursor pull (g (cursor s).line (cursor s).atLineEnd) s log r) :
      Pulls cursor pull (fun s ↦ g (cursor s).line (cursor s).atLineEnd s) s log r
  | store {f : σ → σ} (hf : ∀ s, cursor (f s) = cursor s) (s : σ) :
      Pulls cursor pull (modify f) s [] (.ok ⟨⟩ (f s))
  | pull (s : σ) : Pulls cursor pull pull s [outcomeOf (pull s)] (pull s)
  | bind_ok {α β : Type} {m : EStateM Fault σ α} {f : α → EStateM Fault σ β} {s t : σ} {a : α}
      {log more : List Answer} {r : EStateM.Result Fault σ β}
      (hm : Pulls cursor pull m s log (.ok a t)) (hf : Pulls cursor pull (f a) t more r) :
      Pulls cursor pull (m >>= f) s (log ++ more) r
  | bind_error {α β : Type} {m : EStateM Fault σ α} {f : α → EStateM Fault σ β} {s t : σ}
      {e : Fault} {log : List Answer} (hm : Pulls cursor pull m s log (.error e t)) :
      Pulls cursor pull (m >>= f) s log (.error e t)
  | rephrase {α : Type} {m : EStateM Fault σ α} {s : σ} {log : List Answer}
      {r : EStateM.Result Fault σ α} (g : Fault → Fault) (h : Pulls cursor pull m s log r) :
      Pulls cursor pull (fun s ↦ mapFault g (m s)) s log (mapFault g r)

/-- A step can be taken apart into pulls where it is run. -/
def Logged (cursor : σ → Cursor) (pull : EStateM Fault σ (Option Token)) (m : EStateM Fault σ α)
    (s : σ) : Prop :=
  ∃ log, Pulls cursor pull m s log (m s)

namespace Logged

variable {cursor : σ → Cursor} {pull : EStateM Fault σ (Option Token)} {s : σ}

theorem pure (a : α) : Logged cursor pull (pure a) s :=
  ⟨[], .pure a s⟩

theorem throw (f : Fault) : Logged cursor pull (throw f : EStateM Fault σ α) s :=
  ⟨[], .throw f s⟩

private theorem look {g : Nat → Bool → EStateM Fault σ α}
    (h : Logged cursor pull (g (cursor s).line (cursor s).atLineEnd) s) :
    Logged cursor pull (fun s ↦ g (cursor s).line (cursor s).atLineEnd s) s := by
  obtain ⟨log, hlog⟩ := h
  exact ⟨log, .look hlog⟩

theorem bind {m : EStateM Fault σ α} {f : α → EStateM Fault σ β} (hm : Logged cursor pull m s)
    (hf : ∀ a t, m s = .ok a t → Logged cursor pull (f a) t) :
    Logged cursor pull (m >>= f) s := by
  obtain ⟨log, hlog⟩ := hm
  change ∃ log, Pulls cursor pull (m >>= f) s log (EStateM.bind m f s)
  unfold EStateM.bind
  cases h : m s with
  | ok a t =>
    rw [h] at hlog
    obtain ⟨more, hmore⟩ := hf a t h
    exact ⟨log ++ more, .bind_ok hlog hmore⟩
  | error e t =>
    rw [h] at hlog
    exact ⟨log, .bind_error hlog⟩

theorem store {f : σ → σ} (hf : ∀ s, cursor (f s) = cursor s) :
    Logged cursor pull (modify f : EStateM Fault σ PUnit) s :=
  ⟨[], .store hf s⟩

private theorem ite {p : Prop} [Decidable p] {m n : EStateM Fault σ α}
    (hm : p → Logged cursor pull m s) (hn : ¬ p → Logged cursor pull n s) :
    Logged cursor pull (if p then m else n) s := by
  by_cases hp : p
  · rw [if_pos hp]
    exact hm hp
  · rw [if_neg hp]
    exact hn hp

end Logged
end Pulls

namespace Reader

variable {α : Type} {c : Cursor}

private theorem logged_next : Logged id next next c :=
  ⟨_, .pull c⟩

private theorem logged_fail (cause : Cause) : Logged id next (fail cause : Reader α) c :=
  .look (g := fun line _ ↦ throw ⟨cause, some line, none⟩) (.throw _)

private theorem logged_lineOf (token : Option Token) : Logged id next (lineOf token) c :=
  .look (g := fun line _ ↦ pure (token.map fun _ ↦ line)) (.pure _)

private theorem logged_endLine : Logged id next endLine c := by
  rw [endLine_eq_bind]
  refine .look (g := fun _ ended ↦ if ended then pure () else next >>= _) ?_
  refine .ite (fun _ ↦ .pure _) fun _ ↦ .bind logged_next fun token d _ ↦ ?_
  cases token with
  | none => exact .pure _
  | some t => exact .ite (fun _ ↦ .pure _) fun _ ↦ logged_fail _

/-- The rest of a line is passed over token by token. -/
private theorem skipLine_eq_bind :
    skipLine = fun c ↦ (if c.atLineEnd then pure () else next >>= fun token ↦
      token.elim (pure ()) fun t ↦
        if t.kind.isDeclaration then fail (.unexpectedToken t.describe) else skipLine) c := by
  funext c
  cases hc : c.atLineEnd with
  | true =>
    rw [skipLine, if_pos hc]
    rfl
  | false =>
    rw [skipLine_of_inside hc]
    change _ = EStateM.bind next _ c
    unfold EStateM.bind
    cases next c with
    | error f d => rfl
    | ok token d =>
      cases token with
      | none => rfl
      | some t => exact (ite_apply _ _ _ d).symm

private theorem logged_skipLine (c : Cursor) : Logged id next skipLine c := by
  induction hlen : c.rest.length using Nat.strongRecOn generalizing c with
  | ind n ih =>
    subst hlen
    rw [skipLine_eq_bind]
    refine .look (g := fun _ ended ↦ if ended then pure () else next >>= _) ?_
    refine .ite (fun _ ↦ .pure _) fun _ ↦ .bind logged_next fun token d hn ↦ ?_
    cases token with
    | none => exact .pure _
    | some t =>
      exact .ite (fun _ ↦ logged_fail _) fun _ ↦ ih _ (length_rest_lt_of_next hn) d rfl

/-- Tokens are pulled one by one up to the end of the text. -/
private theorem remaining_eq_bind :
    remaining = next >>= fun token ↦
      token.elim (pure []) fun t ↦ remaining >>= fun ts ↦ pure (t :: ts) := by
  funext c
  conv_lhs => unfold remaining
  change _ = EStateM.bind next _ c
  unfold EStateM.bind
  split
  · next f d h =>
    rw [h]
  · next d h =>
    rw [h]
    rfl
  · next t d h =>
    rw [h]
    change _ = EStateM.bind remaining _ d
    unfold EStateM.bind
    cases remaining d <;> rfl

private theorem logged_remaining (c : Cursor) : Logged id next remaining c := by
  induction hlen : c.rest.length using Nat.strongRecOn generalizing c with
  | ind n ih =>
    subst hlen
    rw [remaining_eq_bind]
    refine .bind logged_next fun token d hn ↦ ?_
    cases token with
    | none => exact .pure _
    | some t => exact .bind (ih _ (length_rest_lt_of_next hn) d rfl) fun _ _ _ ↦ .pure _

private theorem logged_describing {m : Reader α} (h : Logged id next m c) (definition : String) :
    Logged id next (describing definition m) c := by
  have he : describing definition m = fun c ↦ mapFault (Fault.withDefinition definition) (m c) := by
    funext c
    unfold describing
    cases m c <;> rfl
  obtain ⟨log, hlog⟩ := h
  rw [he]
  exact ⟨log, .rephrase _ hlog⟩

private theorem logged_resolve (result : Except Cause α) : Logged id next (resolve result) c := by
  cases result with
  | ok a => exact .pure a
  | error cause => exact logged_fail cause

end Reader

section Operations

variable {c : Cursor}

private theorem Slot.logged_read (vars : List String) (slot : Slot) :
    Logged id Reader.next (slot.read vars) c := by
  refine .bind Reader.logged_next fun token d _ ↦ ?_
  cases token with
  | none => exact .ite (fun _ ↦ .pure _) fun _ ↦ .throw _
  | some t =>
    exact .ite (fun _ ↦ .pure _) fun _ ↦ .ite (fun _ ↦ .pure _) fun _ ↦ Reader.logged_fail _

private theorem Slot.logged_readAll (vars : List String) (definition : String) (slots : List Slot) :
    Logged id Reader.next (readAll vars definition slots) c := by
  refine Reader.logged_describing ?_ definition
  induction slots generalizing c with
  | nil => exact .pure _
  | cons slot slots ih =>
    exact .bind (logged_read vars slot) fun _ _ _ ↦ .bind ih fun _ _ _ ↦ .pure _

private theorem Control.logged_readName (control : Control) (what : String) :
    Logged id Reader.next (control.readName what) c := by
  refine .bind Reader.logged_next fun token d _ ↦ ?_
  split
  · exact .pure _
  · exact .bind (Reader.logged_lineOf _) fun _ _ _ ↦ .throw _

private theorem OperationGroup.logged_select (group : OperationGroup) :
    Logged id Reader.next group.select c := by
  refine .bind Reader.logged_next fun token d _ ↦ ?_
  cases token with
  | none => exact .throw _
  | some t =>
    refine .ite (fun _ ↦ Reader.logged_fail _) fun _ ↦ ?_
    cases group.member? t.kind with
    | none =>
      exact .look (g := fun line _ ↦ throw ⟨.unknownMember t.describe group.name, some line,
        some (.members group.name (group.members.map Operation.name))⟩) (.throw _)
    | some member => exact .pure _

private theorem Instruction.logged_layout (i : Instruction) : Logged id Reader.next i.layout c := by
  cases i with
  | operation op => exact .pure _
  | group g => exact .bind g.logged_select fun _ _ _ ↦ .pure _
  | control control => exact .pure _

private theorem Control.logged_readCondition (control : Control) (vars : List String) :
    Logged id Reader.next (control.readCondition vars) c := by
  refine .bind Reader.logged_next fun token d _ ↦ ?_
  split
  · refine .bind (Slot.logged_readAll _ _ _) fun operands _ _ ↦ ?_
    split <;> exact .pure _
  · exact .pure _
  · exact .bind (Reader.logged_lineOf _) fun _ _ _ ↦ .throw _

private theorem Operation.logged_emit (op : Operation) (vars : List String) :
    Logged id Reader.next (op.emit vars) c :=
  .bind (Slot.logged_readAll _ _ _) fun _ _ _ ↦ .pure _

private theorem Control.logged_emit (control : Control) (ctx : Context) :
    Logged id Reader.next (control.emit ctx) c := by
  unfold Control.emit
  split
  · exact .bind (control.logged_readName _) fun _ _ _ ↦ .bind (Reader.logged_resolve _) fun _ _ _ ↦
      .bind (control.logged_readCondition _) fun _ _ _ ↦ .pure _
  · exact .bind (control.logged_readName _) fun _ _ _ ↦ .bind (Reader.logged_resolve _) fun _ _ _ ↦
      .pure _
  · refine .bind (control.logged_readName _) fun routine d _ ↦ ?_
    split
    · exact .bind (Reader.logged_fail _) fun _ _ _ ↦ .bind (Reader.logged_resolve _) fun _ _ _ ↦
        .pure _
    · exact .bind (Reader.logged_resolve _) fun _ _ _ ↦ .pure _
  · split
    · exact Reader.logged_fail _
    · exact .pure _
  · exact .bind (Slot.logged_readAll _ _ _) fun _ _ _ ↦ .pure _
  · exact .throw _

private theorem Instruction.logged_emit (instruction : Instruction) (ctx : Context) :
    Logged id Reader.next (instruction.emit ctx) c := by
  cases instruction with
  | operation op => exact .bind (op.logged_emit _) fun _ _ _ ↦ .pure _
  | group g =>
    exact .bind g.logged_select fun member _ _ ↦ .bind (member.logged_emit _) fun _ _ _ ↦ .pure _
  | control control => exact control.logged_emit ctx

end Operations

namespace Survey

variable {s : Survey}

private theorem logged_recordOperand (owner : String) (slot : Slot) (t : Token) :
    Logged cursor (read Reader.next) (recordOperand owner slot t) s := by
  refine .ite (fun _ ↦ .ite (fun _ ↦ ?_) fun _ ↦ .ite (fun _ ↦ ?_) fun _ ↦ .pure _) fun _ ↦ .pure _
  · exact .store fun _ ↦ rfl
  · exact .look (g := fun line _ ↦ throw ⟨.unwritable t.describe owner, some line, none⟩) (.throw _)

/-- Recording the variables that stand in slots pulls a token for each slot up to the end of the
line. -/
private theorem logged_recordWrites (owner : String) (slots : List Slot) :
    Logged cursor (read Reader.next) (recordWrites owner slots) s := by
  unfold recordWrites
  induction throughLastWrite slots generalizing s with
  | nil => exact .pure _
  | cons slot slots ih =>
    refine .bind ⟨_, .pull s⟩ fun token t _ ↦ ?_
    cases token with
    | none => exact .pure _
    | some u =>
      exact .ite (fun _ ↦ .pure _) fun _ ↦ .bind (logged_recordOperand owner slot u) fun _ _ _ ↦ ih

/-- Pulling through a survey is pulling. -/
private theorem read_next (s : Survey) :
    outcomeOf (read Reader.next s) = outcomeOf (Reader.next s.cursor) ∧
      (stateAfter (read Reader.next s)).cursor = stateAfter (Reader.next s.cursor) := by
  unfold read
  cases Reader.next s.cursor <;> exact ⟨rfl, rfl⟩

end Survey

/-- What a pull gives at a lexeme. -/
def Lexeme.answer (l : Lexeme) : Answer :=
  l.outcome.map some

/-- A pull met the end of a line or of the text. -/
def Answer.endsLine : Answer → Bool
  | .ok token => token.all (·.kind == .newline)
  | .error _ => false

namespace Reader

theorem next_of_nil {c : Cursor} (h : c.rest = []) :
    next c = .ok none { c with atLineEnd := true } :=
  next_eq_ok_none_iff.mpr ⟨h, rfl⟩

private theorem next_of_cons {c : Cursor} {l : Lexeme} {rest : List Lexeme}
    (h : c.rest = l :: rest) :
    outcomeOf (next c) = l.answer ∧
      stateAfter (next c) = ⟨rest, l.line, l.answer.endsLine⟩ := by
  unfold next Cursor.pull
  rw [h]
  cases l <;> exact ⟨rfl, rfl⟩

private theorem atLineEnd_next (c : Cursor) :
    (stateAfter (next c)).atLineEnd = Answer.endsLine (outcomeOf (next c)) := by
  cases hc : c.rest with
  | nil =>
    rw [next_of_nil hc]
    rfl
  | cons l rest =>
    obtain ⟨ho, hs⟩ := next_of_cons hc
    rw [ho, hs]

end Reader

namespace Cursor

/-- Pulls that lead from one place to another, and their answers. -/
inductive Meets : Cursor → List Answer → Cursor → Prop where
  | nil (c : Cursor) : Meets c [] c
  | cons {c d : Cursor} {log : List Answer} (h : Meets (stateAfter (Reader.next c)) log d) :
      Meets c (outcomeOf (Reader.next c) :: log) d

namespace Meets

variable {c d e : Cursor} {log more : List Answer}

theorem append (h : c.Meets log d) (hm : d.Meets more e) : c.Meets (log ++ more) e := by
  induction h with
  | nil => exact hm
  | cons _ ih => exact .cons (ih hm)

/-- Pulls meet the lexemes in order, and the end of the text when none is left. The line is that of
the last lexeme that was met. -/
theorem exists_lexemes (h : c.Meets log d) :
    ∃ met ends, log = met.map Lexeme.answer ++ List.replicate ends (.ok none) ∧
      met ++ d.rest = c.rest ∧ (0 < ends → d.rest = []) ∧
      d.line = (met.getLast?.map Lexeme.line).getD c.line := by
  induction h with
  | nil c => exact ⟨[], 0, rfl, rfl, fun h ↦ absurd h (Nat.lt_irrefl 0), rfl⟩
  | @cons c d log _ ih =>
    obtain ⟨met, ends, hlog, hrest, hends, hline⟩ := ih
    cases hc : c.rest with
    | nil =>
      rw [Reader.next_of_nil hc] at hrest hline ⊢
      obtain ⟨rfl, hd⟩ := List.append_eq_nil_iff.mp (hrest.trans hc)
      exact ⟨[], ends + 1, by rw [hlog]; rfl, hd, fun _ ↦ hd, hline⟩
    | cons l rest =>
      obtain ⟨ho, hs⟩ := Reader.next_of_cons hc
      rw [hs] at hrest hline
      refine ⟨l :: met, ends, by rw [ho, hlog]; rfl, congrArg (l :: ·) hrest, hends, ?_⟩
      rw [hline, List.getLast?_cons]
      cases met.getLast? <;> rfl

/-- A line is over if the last pull met its end or the end of the text. -/
theorem atLineEnd_eq (h : c.Meets log d) :
    d.atLineEnd = (log.getLast?.map Answer.endsLine).getD c.atLineEnd := by
  induction h with
  | nil => rfl
  | @cons c d log _ ih =>
    rw [ih, Reader.atLineEnd_next, List.getLast?_cons]
    cases log.getLast? <;> rfl

end Meets
end Cursor

/-- A log tells where a step leaves the cursor. -/
theorem Pulls.meets {σ α : Type} {cursor : σ → Cursor} {pull : EStateM Fault σ (Option Token)}
    (hpull : ∀ s, outcomeOf (pull s) = outcomeOf (Reader.next (cursor s)) ∧
      cursor (stateAfter (pull s)) = stateAfter (Reader.next (cursor s)))
    {m : EStateM Fault σ α} {s : σ} {log : List Answer} {r : EStateM.Result Fault σ α}
    (h : Pulls cursor pull m s log r) : (cursor s).Meets log (cursor (stateAfter r)) := by
  induction h with
  | pure a s => exact .nil _
  | throw f s => exact .nil _
  | look _ ih => exact ih
  | store hf s =>
    rw [stateAfter, hf s]
    exact .nil _
  | pull s =>
    rw [(hpull s).1, (hpull s).2]
    exact .cons (.nil _)
  | bind_ok _ _ ihm ihf => exact ihm.append ihf
  | bind_error _ ih => exact ih
  | @rephrase _ _ _ _ r g _ ih => cases r <;> exact ih

/-- What can be done with a stream of tokens. An operation comes with all that it depends on besides
the stream, so what is known about the program may change from one operation to the next. -/
inductive StreamOp where
  | next
  | remaining
  | endLine
  | skipLine
  | readValue (vars : List String) (slot : Slot)
  | readOperands (vars : List String) (definition : String) (slots : List Slot)
  | readName (control : Control) (what : String)
  | select (group : OperationGroup)
  | layout (instruction : Instruction)
  | emit (instruction : Instruction) (ctx : Context)
  | recordWrites (symbols : Symbols) (owner : String) (slots : List Slot)

namespace StreamOp

/-- Where an operation leaves a stream, whether it succeeds or fails. -/
def perform (c : Cursor) : StreamOp → Cursor
  | next => stateAfter (Reader.next c)
  | remaining => stateAfter (Reader.remaining c)
  | endLine => stateAfter (Reader.endLine c)
  | skipLine => stateAfter (Reader.skipLine c)
  | readValue vars slot => stateAfter (slot.read vars c)
  | readOperands vars definition slots => stateAfter (Slot.readAll vars definition slots c)
  | readName control what => stateAfter (control.readName what c)
  | select group => stateAfter (group.select c)
  | layout instruction => stateAfter (instruction.layout c)
  | emit instruction ctx => stateAfter (instruction.emit ctx c)
  | recordWrites symbols owner slots =>
    (stateAfter (Survey.recordWrites owner slots ⟨c, symbols⟩)).cursor

/-- What the pulls of an operation meet. -/
def Logs (c : Cursor) (log : List Answer) : StreamOp → Prop
  | next => Pulls id Reader.next Reader.next c log (Reader.next c)
  | remaining => Pulls id Reader.next Reader.remaining c log (Reader.remaining c)
  | endLine => Pulls id Reader.next Reader.endLine c log (Reader.endLine c)
  | skipLine => Pulls id Reader.next Reader.skipLine c log (Reader.skipLine c)
  | readValue vars slot => Pulls id Reader.next (slot.read vars) c log (slot.read vars c)
  | readOperands vars definition slots =>
    Pulls id Reader.next (Slot.readAll vars definition slots) c log
      (Slot.readAll vars definition slots c)
  | readName control what =>
    Pulls id Reader.next (control.readName what) c log (control.readName what c)
  | select group => Pulls id Reader.next group.select c log (group.select c)
  | layout instruction => Pulls id Reader.next instruction.layout c log (instruction.layout c)
  | emit instruction ctx =>
    Pulls id Reader.next (instruction.emit ctx) c log (instruction.emit ctx c)
  | recordWrites symbols owner slots =>
    Pulls Survey.cursor (Survey.read Reader.next) (Survey.recordWrites owner slots) ⟨c, symbols⟩ log
      (Survey.recordWrites owner slots ⟨c, symbols⟩)

private theorem exists_logs (c : Cursor) (op : StreamOp) : ∃ log, op.Logs c log := by
  cases op with
  | next => exact Reader.logged_next
  | remaining => exact Reader.logged_remaining c
  | endLine => exact Reader.logged_endLine
  | skipLine => exact Reader.logged_skipLine c
  | readValue vars slot => exact slot.logged_read vars
  | readOperands vars definition slots => exact Slot.logged_readAll vars definition slots
  | readName control what => exact control.logged_readName what
  | select group => exact group.logged_select
  | layout instruction => exact instruction.logged_layout
  | emit instruction ctx => exact instruction.logged_emit ctx
  | recordWrites symbols owner slots => exact Survey.logged_recordWrites owner slots

private theorem Logs.meets {c : Cursor} {log : List Answer} {op : StreamOp} (h : op.Logs c log) :
    c.Meets log (op.perform c) := by
  cases op with
  | recordWrites symbols owner slots => exact Pulls.meets Survey.read_next h
  | next | remaining | endLine | skipLine | readValue | readOperands | readName | select | layout
  | emit => exact Pulls.meets (fun _ ↦ ⟨rfl, rfl⟩) h

end StreamOp

/-- What the pulls of operations in a row answer. -/
inductive Session : Cursor → List StreamOp → List Answer → Prop where
  | nil (c : Cursor) : Session c [] []
  | cons {c : Cursor} {op : StreamOp} {ops : List StreamOp} {log more : List Answer}
      (h : op.Logs c log) (hs : Session (op.perform c) ops more) :
      Session c (op :: ops) (log ++ more)

namespace Session

private theorem exists_session (c : Cursor) (ops : List StreamOp) : ∃ log, Session c ops log := by
  induction ops generalizing c with
  | nil => exact ⟨[], .nil c⟩
  | cons op ops ih =>
    obtain ⟨log, hlog⟩ := op.exists_logs c
    obtain ⟨more, hmore⟩ := ih (op.perform c)
    exact ⟨log ++ more, .cons hlog hmore⟩

private theorem meets {c : Cursor} {ops : List StreamOp} {log : List Answer}
    (h : Session c ops log) :
    c.Meets log (ops.foldl StreamOp.perform c) := by
  induction h with
  | nil c => exact .nil c
  | cons hop _ ih => exact hop.meets.append ih

end Session

namespace Lexeme

private theorem pairwise_line_scan (text : String) :
    (scan text).Pairwise fun l m ↦ l.line ≤ m.line := by
  refine (pairwise_pos_scan text).imp_of_mem fun {l m} hl hm hlt ↦ ?_
  rw [line_eq_count hl, line_eq_count hm]
  have hpre : text.toList.take l.pos <+: text.toList.take m.pos :=
    List.take_prefix_take_left (Nat.le_of_lt hlt)
  exact Nat.add_le_add_left (hpre.sublist.count_le _) 1

/-- Lexemes that are met later stand on no earlier line. -/
theorem line_le_of_scan {text : String} {met later rest : List Lexeme}
    (h : met ++ (later ++ rest) = scan text) :
    (met.getLast?.map line).getD 1 ≤
      (later.getLast?.map line).getD ((met.getLast?.map line).getD 1) := by
  cases hl : later.getLast? with
  | none => exact Nat.le_refl _
  | some l =>
    have hlater := List.mem_of_getLast? hl
    cases hm : met.getLast? with
    | none =>
      have hscan : l ∈ scan text := by rw [← h]; simp [hlater]
      have := line_eq_count hscan
      simp only [Option.map_none, Option.map_some, Option.getD_none, Option.getD_some]
      omega
    | some m =>
      have hpair := pairwise_line_scan text
      rw [← h] at hpair
      exact (List.pairwise_append.mp hpair).2.2 m (List.mem_of_getLast? hm) l (by simp [hlater])

end Lexeme

/-- A stream moves forward only. The pulls of any operations in a row, also of those that fail, meet
the lexemes of the text one by one, and nothing else is taken from it. The line is that of the last
lexeme that was met, so it never falls. A line is over if nothing was pulled yet or the last pull
met its end or the end of the text. -/
theorem stream_moves_forward (text : String) (ops : List StreamOp) :
    let c := ops.foldl StreamOp.perform (Cursor.ofText text)
    (∃ log, Session (Cursor.ofText text) ops log) ∧
    (∀ log, Session (Cursor.ofText text) ops log →
      (∃ met ends, log = met.map Lexeme.answer ++ List.replicate ends (.ok none) ∧
        met ++ c.rest = Lexeme.scan text ∧ (0 < ends → c.rest = []) ∧
        c.line = (met.getLast?.map Lexeme.line).getD 1) ∧
      (c.atLineEnd = true ↔ log = [] ∨ log.getLast? = some (.ok none) ∨
        ∃ t : Token, log.getLast? = some (.ok (some t)) ∧ t.kind = .newline)) ∧
    ∀ more : List StreamOp, c.line ≤ (more.foldl StreamOp.perform c).line := by
  intro c
  refine ⟨Session.exists_session _ ops, fun log hlog ↦ ⟨?_, ?_⟩, fun more ↦ ?_⟩
  · exact hlog.meets.exists_lexemes
  · have hend : c.atLineEnd = (log.getLast?.map Answer.endsLine).getD true :=
      hlog.meets.atLineEnd_eq
    rw [hend]
    cases hl : log.getLast? with
    | none => simp [List.getLast?_eq_none_iff.mp hl]
    | some answer =>
      have hne : log ≠ [] := by rintro rfl; cases hl
      rcases answer with f | (_ | t) <;> simp [Answer.endsLine, hne]
  · obtain ⟨log, hlog⟩ := Session.exists_session (Cursor.ofText text) ops
    obtain ⟨later, hlater⟩ := Session.exists_session c more
    obtain ⟨met, _, _, hmet, _, hline⟩ := hlog.meets.exists_lexemes
    obtain ⟨others, _, _, hothers, _, hmore⟩ := hlater.meets.exists_lexemes
    rw [hmore]
    change c.line = _ at hline
    change met ++ c.rest = _ at hmet
    rw [hline]
    rw [← hothers] at hmet
    exact Lexeme.line_le_of_scan hmet

end MlogAsm
