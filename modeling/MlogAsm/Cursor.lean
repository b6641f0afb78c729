import MlogAsm.Fault
import MlogAsm.Token.Lexeme

/-!
# Cursors

A place between the lexemes of a text, which moves forward only. A `Reader` moves a cursor, and
fails with a fault. A reader that fails keeps its place: what it has pulled stays pulled.
-/

namespace MlogAsm

/-- A place in a text. -/
structure Cursor where
  /-- What has not been pulled yet. -/
  rest : List Lexeme
  /-- The line of the last lexeme pulled, or one. -/
  line : Nat
  /-- Nothing was pulled yet, or the last pull met the end of a line or of the text. -/
  atLineEnd : Bool
  deriving DecidableEq, Repr

namespace Cursor

/-- The place before the first lexeme. -/
def start (lexemes : List Lexeme) : Cursor := ⟨lexemes, 1, true⟩

/-- The place at the beginning of a text. -/
def ofText (text : String) : Cursor := start (Lexeme.scan text)

/-- The place one lexeme further. -/
def pull (c : Cursor) : Cursor :=
  match c.rest with
  | [] => { c with atLineEnd := true }
  | .token t :: rest => ⟨rest, t.line, t.kind == .newline⟩
  | .stray _ line _ :: rest => ⟨rest, line, false⟩

/-- One place can be reached from another by pulling lexemes. -/
inductive Reaches : Cursor → Cursor → Prop where
  | refl (c : Cursor) : Reaches c c
  | pull {c d : Cursor} : Reaches c.pull d → Reaches c d

theorem Reaches.trans {a b c : Cursor} (hab : Reaches a b) (hbc : Reaches b c) : Reaches a c := by
  induction hab with
  | refl => exact hbc
  | pull _ ih => exact .pull (ih hbc)

/-- Pulling leaves no more than there was. -/
private theorem length_rest_pull_le (c : Cursor) : c.pull.rest.length ≤ c.rest.length := by
  unfold pull
  split
  · exact Nat.le_refl _
  · next h => simp [h]
  · next h => simp [h]

/-- Nothing comes back. -/
theorem Reaches.length_rest_le {c d : Cursor} (h : Reaches c d) :
    d.rest.length ≤ c.rest.length := by
  induction h with
  | refl => exact Nat.le_refl _
  | @pull c d _ ih => exact Nat.le_trans ih (length_rest_pull_le c)

/-- One place can be reached from another by pulling tokens. -/
structure Passes (c d : Cursor) : Prop where
  reaches : Reaches c d
  exists_tokens : ∃ ts : List Token, c.rest = ts.map .token ++ d.rest

theorem Passes.refl (c : Cursor) : Passes c c :=
  ⟨.refl c, [], rfl⟩

theorem Passes.trans {a b c : Cursor} (hab : Passes a b) (hbc : Passes b c) : Passes a c := by
  obtain ⟨ts, hts⟩ := hab.exists_tokens
  obtain ⟨us, hus⟩ := hbc.exists_tokens
  refine ⟨hab.reaches.trans hbc.reaches, ts ++ us, ?_⟩
  rw [hts, hus, List.map_append, List.append_assoc]

theorem Passes.length_rest_le {c d : Cursor} (h : Passes c d) : d.rest.length ≤ c.rest.length :=
  h.reaches.length_rest_le

end Cursor

section Forward

variable {σ α β : Type}

/-- A fault stops the way from one place at another: at the first stray character, which is reported
as it is met, or behind tokens. -/
inductive Fault.StopsAt (c d : Cursor) : Fault → Prop where
  | stray {front : List Token} {ch : Char} {line pos : Nat} (hc : c.Reaches d)
      (hr : c.rest = front.map .token ++ .stray ch line pos :: d.rest) :
      StopsAt c d ⟨.strayCharacter ch, some line, none⟩
  | token {f : Fault} (hc : c.Passes d) (hk : f.cause.category ≠ .lexical) : StopsAt c d f

namespace Fault.StopsAt

variable {c d e : Cursor} {f : Fault}

/-- Tokens may be pulled before. -/
theorem trans (hcd : c.Passes d) (h : f.StopsAt d e) : f.StopsAt c e := by
  cases h with
  | @stray front ch line pos hd hr =>
    obtain ⟨ts, hts⟩ := hcd.exists_tokens
    have hrest : c.rest = (ts ++ front).map .token ++ .stray ch line pos :: e.rest := by
      rw [hts, hr, List.map_append, List.append_assoc]
    exact .stray (hcd.reaches.trans hd) hrest
  | token hd hk => exact .token (hcd.trans hd) hk

/-- How an instruction is written may be added. -/
theorem withDefinition (h : f.StopsAt c d) (definition : String) :
    (f.withDefinition definition).StopsAt c d := by
  unfold Fault.withDefinition
  split
  · next hs =>
    cases h with
    | stray => cases hs
    | token hc hk => exact .token hc hk
  · exact h

end Fault.StopsAt

/-- Where a step stops: behind tokens if it succeeds, and where its fault is if it fails. -/
def StopsBehind (cursor : σ → Cursor) (c : Cursor) : EStateM.Result Fault σ α → Prop
  | .ok _ t => c.Passes (cursor t)
  | .error f t => f.StopsAt c (cursor t)

theorem StopsBehind.trans {cursor : σ → Cursor} {c d : Cursor} {r : EStateM.Result Fault σ α}
    (hcd : c.Passes d) (hr : StopsBehind cursor d r) : StopsBehind cursor c r := by
  cases r with
  | ok a t => exact Cursor.Passes.trans hcd hr
  | error f t => exact Fault.StopsAt.trans hcd hr

/-- A step on a state with a cursor in it, which does nothing to the cursor but pull lexemes, and
fails at a stray character. -/
def Forward (cursor : σ → Cursor) (m : EStateM Fault σ α) : Prop :=
  ∀ s : σ, StopsBehind cursor (cursor s) (m s)

namespace Forward

variable {cursor : σ → Cursor}

theorem ok {m : EStateM Fault σ α} (hm : Forward cursor m) {s t : σ} {a : α}
    (h : m s = .ok a t) : (cursor s).Passes (cursor t) := by
  have hs := hm s
  rwa [h] at hs

theorem error {m : EStateM Fault σ α} (hm : Forward cursor m) {s t : σ} {f : Fault}
    (h : m s = .error f t) : f.StopsAt (cursor s) (cursor t) := by
  have hs := hm s
  rwa [h] at hs

theorem pure (a : α) : Forward cursor (pure a : EStateM Fault σ α) :=
  fun s ↦ .refl (cursor s)

theorem throw {f : Fault} (hk : f.cause.category ≠ .lexical) :
    Forward cursor (throw f : EStateM Fault σ α) :=
  fun s ↦ Fault.StopsAt.token (.refl (cursor s)) hk

theorem get : Forward cursor (get : EStateM Fault σ σ) :=
  fun s ↦ .refl (cursor s)

/-- A change that leaves the cursor alone. -/
theorem modify {f : σ → σ} (hf : ∀ s, cursor (f s) = cursor s) :
    Forward cursor (modify f : EStateM Fault σ PUnit) := by
  intro s
  change (cursor s).Passes (cursor (f s))
  rw [hf s]
  exact .refl _

theorem bind {m : EStateM Fault σ α} {f : α → EStateM Fault σ β} (hm : Forward cursor m)
    (hf : ∀ a, Forward cursor (f a)) : Forward cursor (m >>= f) := by
  intro s
  change StopsBehind cursor (cursor s) (EStateM.bind m f s)
  unfold EStateM.bind
  cases h : m s with
  | ok a t => exact .trans (hm.ok h) (hf a t)
  | error e t => exact hm.error h

end Forward
end Forward

/-- A step that moves a cursor and may fail. -/
abbrev Reader := EStateM Fault Cursor

namespace Reader

variable {α : Type}

/-- Fails at the line of the last lexeme pulled. -/
def fail (cause : Cause) : Reader α := do
  throw ⟨cause, some (← get).line, none⟩

theorem forward_fail {cause : Cause} (hk : cause.category ≠ .lexical) :
    Forward id (fail cause : Reader α) :=
  .bind .get fun _ ↦ .throw hk

/-- Pulls one lexeme: the token, or none at the end of the text. A stray character fails. -/
def next : Reader (Option Token) := fun c ↦
  match c.rest with
  | [] => .ok none c.pull
  | .token t :: _ => .ok (some t) c.pull
  | .stray ch line _ :: _ => .error ⟨.strayCharacter ch, some line, none⟩ c.pull

theorem forward_next : Forward id next := by
  intro c
  have hpull : c.Reaches c.pull := .pull (.refl _)
  unfold next
  cases hr : c.rest with
  | nil => exact ⟨hpull, [], by simp [Cursor.pull, hr]⟩
  | cons lexeme rest =>
    cases lexeme with
    | token t => exact ⟨hpull, [t], by simp [Cursor.pull, hr]⟩
    | stray ch line pos =>
      have hrest : c.rest = ([] : List Token).map .token ++ .stray ch line pos :: c.pull.rest := by
        simp [Cursor.pull, hr]
      exact Fault.StopsAt.stray hpull hrest

/-- A token is gone after it was pulled. -/
theorem length_rest_lt_of_next {c d : Cursor} {t : Token} (h : next c = .ok (some t) d) :
    d.rest.length < c.rest.length := by
  unfold next at h
  split at h
  · cases h
  · next u rest hc =>
    cases h
    simp [Cursor.pull, hc]
  · cases h

/-- The line to blame for a token that was just pulled: none at the end of the text. -/
def lineOf (token : Option Token) : Reader (Option Nat) := do
  let c ← get
  return token.map fun _ ↦ c.line

theorem forward_lineOf (token : Option Token) : Forward id (lineOf token) :=
  .bind .get fun _ ↦ .pure _

/-- Requires that the line is over, or pulls its end. -/
def endLine : Reader Unit := do
  if (← get).atLineEnd then return
  match ← next with
  | none => return
  | some t => if t.kind = .newline then return else fail (.unexpectedToken t.describe)

theorem forward_endLine : Forward id endLine := by
  refine .bind .get fun c ↦ ?_
  split
  · exact .pure _
  · refine .bind forward_next fun token ↦ ?_
    cases token with
    | none => exact .pure _
    | some t =>
      dsimp only
      split
      · exact .pure _
      · exact forward_fail (by rintro ⟨⟩)

/-- Pulls the rest of a line. No declaration may stand on it. -/
def skipLine (c : Cursor) : EStateM.Result Fault Cursor Unit :=
  if c.atLineEnd then .ok () c
  else
    match _h : next c with
    | .error f d => .error f d
    | .ok none d => .ok () d
    | .ok (some t) d =>
      if t.kind.isDeclaration then fail (.unexpectedToken t.describe) d else skipLine d
termination_by c.rest.length
decreasing_by exact length_rest_lt_of_next _h

theorem forward_skipLine : Forward id skipLine := by
  intro c
  fun_induction skipLine c with
  | case1 c _ => exact .refl c
  | case2 c _ f d h => exact forward_next.error h
  | case3 c _ d h => exact forward_next.ok h
  | case4 c _ t d h _ => exact .trans (forward_next.ok h) (forward_fail (by rintro ⟨⟩) d)
  | case5 c _ t d h _ ih => exact .trans (forward_next.ok h) ih

/-- Pulls all tokens that are left. -/
def remaining (c : Cursor) : EStateM.Result Fault Cursor (List Token) :=
  match _h : next c with
  | .error f d => .error f d
  | .ok none d => .ok [] d
  | .ok (some t) d =>
    match remaining d with
    | .error f e => .error f e
    | .ok ts e => .ok (t :: ts) e
termination_by c.rest.length
decreasing_by exact length_rest_lt_of_next _h

/-- Runs a reader of operands, and adds to its faults how the instruction is written. -/
def describing (definition : String) (m : Reader α) : Reader α := fun c ↦
  match m c with
  | .ok a d => .ok a d
  | .error f d => .error (f.withDefinition definition) d

theorem forward_describing {m : Reader α} (hm : Forward id m) (definition : String) :
    Forward id (describing definition m) := by
  intro c
  unfold describing
  cases h : m c with
  | ok a d => exact hm.ok h
  | error f d => exact (hm.error h).withDefinition definition

end Reader
end MlogAsm
