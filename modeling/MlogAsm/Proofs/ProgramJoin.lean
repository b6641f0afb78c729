import MlogAsm.Proofs.Continuation
import MlogAsm.Proofs.Program

/-!
# Programs joined

Two texts with a line end between them spell the program of the first and then that of the second.
The second is as it was, but for the places of its operands in the text: a name that is a variable
in one part may stand in the other wherever it could stand before.
-/

namespace MlogAsm

section Written

variable {catalog : Catalog} {known known' : String → Prop} {lines chars : Nat}

namespace Slot

/-- More variables do no harm. -/
private theorem Fits.mono {slot : Slot} {t : Token} (h : slot.Fits known t)
    (hk : ∀ name, known name → known' name) : slot.Fits known' t := by
  unfold Fits at h ⊢
  split at h
  all_goals try exact h
  exact ⟨h.1, h.2.imp_left (hk t.value)⟩

private theorem Fills.mono {slots : List Slot} {ts : List Token} (h : Fills known slots ts)
    (hk : ∀ name, known name → known' name) : Fills known' slots ts := by
  induction h with
  | empty ho => exact .empty ho
  | fill hf _ ih => exact .fill (hf.mono hk) ih

theorem Fills.shift {slots : List Slot} {ts : List Token} (h : Fills known slots ts) :
    Fills known slots (ts.map (Token.shift lines chars)) := by
  induction h with
  | empty ho => exact .empty ho
  | fill hf _ ih => exact .fill hf ih

end Slot

namespace Statement

/-- A statement whose operands stand further down in the text. -/
def shift (lines chars : Nat) : Statement → Statement
  | plain words slots operands => plain words slots (operands.map (Token.shift lines chars))
  | jumpIf label operator operands =>
    jumpIf label operator (operands.map (Token.shift lines chars))
  | jumpAlways label => jumpAlways label
  | goto label => goto label
  | gosub routine => gosub routine
  | leave => leave

@[simp] theorem size_shift (s : Statement) : (s.shift lines chars).size = s.size := by
  cases s <;> rfl

private theorem targets_shift (s : Statement) :
    (s.shift lines chars).targets = s.targets.map (Token.shift lines chars) := by
  cases s with
  | plain words slots operands => exact Slot.targets_map_shift slots lines chars operands
  | _ => rfl

private theorem Written.mono {s : Statement} {ts : List Token} (h : s.Written catalog known ts)
    (hk : ∀ name, known name → known' name) : s.Written catalog known' ts := by
  cases h with
  | operation hl hf => exact .operation hl (hf.mono hk)
  | member hl hm hf => exact .member hl hm (hf.mono hk)
  | compute hl hc hf => exact .compute hl hc (hf.mono hk)
  | jumpAlways hl hc hn ha => exact .jumpAlways hl hc hn ha
  | jumpIf hl hc hn ho hf => exact .jumpIf hl hc hn ho (hf.mono hk)
  | goto hl hc hn => exact .goto hl hc hn
  | gosub hl hc hn => exact .gosub hl hc hn
  | leave hl hc => exact .leave hl hc

theorem Written.shift {s : Statement} {ts : List Token} (h : s.Written catalog known ts) :
    (s.shift lines chars).Written catalog known (ts.map (Token.shift lines chars)) := by
  cases h with
  | operation hl hf => exact .operation hl hf.shift
  | member hl hm hf => exact .member hl hm hf.shift
  | compute hl hc hf => exact .compute hl hc hf.shift
  | @jumpAlways lead label always _ hl hc hn ha =>
    exact @jumpAlways _ _ (lead.shift lines chars) (label.shift lines chars)
      (always.shift lines chars) _ hl hc hn ha
  | @jumpIf lead label operator _ _ hl hc hn ho hf =>
    exact @jumpIf _ _ (lead.shift lines chars) (label.shift lines chars)
      (operator.shift lines chars) _ _ hl hc hn ho hf.shift
  | @goto lead label _ hl hc hn =>
    exact @goto _ _ (lead.shift lines chars) (label.shift lines chars) _ hl hc hn
  | @gosub lead routine _ hl hc hn =>
    exact @gosub _ _ (lead.shift lines chars) (routine.shift lines chars) _ hl hc hn
  | leave hl hc => exact .leave hl hc

end Statement

namespace Item

/-- A part of a program that stands further down in the text. -/
def shift (lines chars : Nat) : Item → Item
  | declare what name => declare what name
  | close => close
  | statement s => statement (s.shift lines chars)

private theorem Written.mono {item : Item} {e : Element} (h : item.Written catalog known e)
    (hk : ∀ name, known name → known' name) : item.Written catalog known' e := by
  cases h with
  | declare => exact .declare
  | close => exact .close
  | statement hw => exact .statement (hw.mono hk)

theorem Written.shift {item : Item} {e : Element} (h : item.Written catalog known e) :
    (item.shift lines chars).Written catalog known (e.shift lines chars) := by
  cases h with
  | declare => exact .declare
  | close => exact .close
  | statement hw => exact .statement hw.shift

end Item
end Written

namespace Program

variable {catalog : Catalog} {p q : Program} {lines chars : Nat}

/-- A program that stands further down in the text. -/
def shift (lines chars : Nat) (p : Program) : Program :=
  p.map (Item.shift lines chars)

theorem statements_append (p q : Program) :
    statements (p ++ q) = p.statements ++ q.statements :=
  List.filterMap_append

private theorem statements_shift (p : Program) :
    (p.shift lines chars).statements = p.statements.map (Statement.shift lines chars) := by
  unfold shift statements
  rw [List.filterMap_map, List.map_filterMap]
  congr 1
  funext item
  cases item <;> rfl

private theorem writes_append {name : String} :
    Writes (p ++ q) name ↔ p.Writes name ∨ q.Writes name := by
  unfold Writes
  simp only [statements_append, List.mem_append, or_and_right, exists_or]

private theorem writes_shift {name : String} :
    (p.shift lines chars).Writes name ↔ p.Writes name := by
  unfold Writes
  simp [statements_shift, Statement.targets_shift, Token.shift]

/-- A text without stray characters spells a program by its elements. -/
theorem reads_iff {text : String} :
    p.Reads catalog text ↔ Lexeme.AllTokens text ∧
      List.Forall₂ (Item.Written catalog p.Writes) p (elements text) := by
  rw [Lexeme.allTokens_iff]
  constructor
  · rintro ⟨ts, hts, hp⟩
    rw [elements_of_scan hts]
    exact ⟨⟨ts, hts⟩, hp⟩
  · rintro ⟨⟨ts, hts⟩, hp⟩
    rw [elements_of_scan hts] at hp
    exact ⟨ts, hts, hp⟩

/-- Two texts spell their programs one behind the other. -/
theorem Reads.append {first second : String} (hp : p.Reads catalog first)
    (hq : q.Reads catalog second) :
    Reads catalog (first ++ "\n" ++ second)
      (p ++ q.shift (lineCount first) (first.toList.length + 1)) := by
  rw [reads_iff] at hp hq ⊢
  rw [Lexeme.allTokens_append_newline, elements_append_newline]
  refine ⟨⟨hp.1, hq.1⟩, List.rel_append ?_ ?_⟩
  · refine hp.2.imp fun item e hw ↦ hw.mono fun name h ↦ ?_
    exact writes_append.mpr (.inl h)
  · rw [shift, List.forall₂_map_left_iff, List.forall₂_map_right_iff]
    refine hq.2.imp fun item e hw ↦ (hw.mono fun name h ↦ ?_).shift
    exact writes_append.mpr (.inr (writes_shift.mpr h))

end Program

/-- The routine that is open behind some elements. -/
def Element.openRoutine (routine : Option String) : List Element → Option String
  | [] => routine
  | declare .label _ _ :: es => openRoutine routine es
  | declare .routine name _ :: es => openRoutine (some name) es
  | close :: es => openRoutine none es
  | clause _ _ :: es => openRoutine routine es

namespace Program

variable {catalog : Catalog} {known : String → Prop} {p : Program} {es : List Element}

/-- Places depend on what stands before only by the routine that is open and by a note. -/
theorem exists_placedFrom_append (hp : List.Forall₂ (Item.Written catalog known) p es)
    (q : Program) (routine note : Option String) :
    ∃ note', placedFrom routine note (p ++ q) =
      placedFrom routine note p ++ placedFrom (Element.openRoutine routine es) note' q := by
  induction hp generalizing routine note with
  | nil => exact ⟨note, rfl⟩
  | cons hi _ ih =>
    cases hi with
    | @declare what name line =>
      cases what with
      | label => exact ih routine (some ("label " ++ name))
      | routine => exact ih (some name) (some ("subroutine " ++ name))
    | close => exact ih none note
    | statement hw =>
      have ⟨note', h⟩ := ih routine none
      refine ⟨note', ?_⟩
      rw [List.cons_append, placedFrom, h]
      rfl

end Program

/-- A statement in its place, further down in the text. -/
def Placed.shift (lines chars : Nat) (x : Placed) : Placed :=
  { x with statement := x.statement.shift lines chars }

theorem Program.placedFrom_shift (lines chars : Nat) (routine note : Option String)
    (p : Program) :
    placedFrom routine note (p.shift lines chars) =
      (placedFrom routine note p).map (Placed.shift lines chars) := by
  fun_induction placedFrom routine note p with
  | case1 => rfl
  | case2 routine note name p ih => exact ih
  | case3 routine note name p ih => exact ih
  | case4 routine note p ih => exact ih
  | case5 routine note s p ih =>
    rw [List.map_cons, ← ih]
    rfl

end MlogAsm
