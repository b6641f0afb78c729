import MlogAsm.Survey
import MlogAsm.Proofs.Reading

/-!
# Surveys of an outline

A survey depends on the outline of the text alone: it succeeds exactly if there are no stray
characters and each clause passes, and what it finds is gathered element by element.
-/

namespace MlogAsm

namespace Symbols

/-- Makes the names among the targets of a statement variables. -/
def addTargets (s : Symbols) (targets : List Token) : Symbols :=
  targets.foldl (fun s t ↦ if t.kind = .name then s.addVariable t.value else s) s

/-- Counts the lines of a statement. -/
def addLines (s : Symbols) (n : Int) : Symbols :=
  { s with size := s.size + n }

/-- A declaration gives its name the next index, and changes no other entry. -/
theorem get?_table_declare (s : Symbols) (what : Declared) (name : String) (line : Nat)
    (what' : Declared) (name' : String) :
    ((s.declare what name line).table what').get? name' =
      if what' = what ∧ name' = name then some s.size else (s.table what').get? name' := by
  cases what <;> cases what' <;> simp [declare, table, SymbolTable.get?_insert]

@[simp] theorem size_declare (s : Symbols) (what : Declared) (name : String) (line : Nat) :
    (s.declare what name line).size = s.size := by
  cases what <;> rfl

@[simp] theorem vars_declare (s : Symbols) (what : Declared) (name : String) (line : Nat) :
    (s.declare what name line).vars = s.vars := by
  cases what <;> rfl

theorem addTargets_cons (s : Symbols) (t : Token) (ts : List Token) :
    s.addTargets (t :: ts) =
      (if t.kind = .name then s.addVariable t.value else s).addTargets ts :=
  rfl

/-- Variables are all that changes with the targets of a statement. -/
theorem addTargets_eq (s : Symbols) (ts : List Token) :
    s.addTargets ts = { s with vars := (s.addTargets ts).vars } := by
  induction ts generalizing s with
  | nil => rfl
  | cons t ts ih =>
    rw [addTargets_cons, ih]
    split
    · unfold addVariable
      split <;> rfl
    · rfl

@[simp] theorem table_addTargets (s : Symbols) (ts : List Token) (what : Declared) :
    (s.addTargets ts).table what = s.table what := by
  rw [addTargets_eq]
  cases what <;> rfl

@[simp] theorem size_addTargets (s : Symbols) (ts : List Token) :
    (s.addTargets ts).size = s.size := by
  rw [addTargets_eq]

@[simp] theorem table_addLines (s : Symbols) (n : Int) (what : Declared) :
    (s.addLines n).table what = s.table what := by
  cases what <;> rfl

@[simp] theorem size_addLines (s : Symbols) (n : Int) : (s.addLines n).size = s.size + n :=
  rfl

@[simp] theorem vars_addLines (s : Symbols) (n : Int) : (s.addLines n).vars = s.vars :=
  rfl

end Symbols

/-- The slots of a clause with the operands for them. A group takes the word that picks a member
first. -/
def Instruction.arranged? : Instruction → List Token → Option (List Slot × List Token)
  | operation op, operands => some (op.args, operands)
  | group g, pick :: operands => (g.member? pick.kind).map fun op ↦ (op.args, operands)
  | group _, [] => none
  | control c, operands => some (c.slots, operands)

namespace Survey

/-- What is found in the elements of a text, from what was found before. -/
inductive Gathers (catalog : Catalog) : Symbols → List Element → Symbols → Prop where
  | done {s : Symbols} : Gathers catalog s [] s
  | declare {s s' : Symbols} {what : Declared} {name : String} {line : Nat} {es : List Element}
      (hg : Gathers catalog (s.declare what name line) es s') :
      Gathers catalog s (.declare what name line :: es) s'
  | close {s s' : Symbols} {es : List Element} (hg : Gathers catalog s es s') :
      Gathers catalog s (.close :: es) s'
  | clause {s s' : Symbols} {lead : Token} {operands args : List Token} {slots : List Slot}
      {instruction : Instruction} {es : List Element}
      (hl : catalog.find? lead.kind = some instruction)
      (ha : instruction.arranged? operands = some (slots, args))
      (ht : ∀ t ∈ Slot.targets slots args, t.kind = .name ∨ t.kind = .sysvar)
      (hd : ∀ t ∈ args.drop (throughLastWrite slots).length, t.kind.isDeclaration = false)
      (hg : Gathers catalog ((s.addLines instruction.emits).addTargets (Slot.targets slots args))
        es s') :
      Gathers catalog s (.clause lead operands :: es) s'

/-- Nothing is written behind the slots that are looked at. -/
private theorem targets_throughLastWrite (slots : List Slot) (args : List Token) :
    Slot.targets (throughLastWrite slots) args = Slot.targets slots args := by
  induction slots generalizing args with
  | nil => rfl
  | cons slot slots ih =>
    cases args with
    | nil => simp [Slot.targets]
    | cons t args =>
      have ih := ih args
      unfold Slot.targets at ih ⊢
      rw [throughLastWrite]
      split
      · next hs =>
        rw [hs] at ih
        by_cases hw : slot.writes = true
        · simp [hw, ← ih]
        · simp [hw, ← ih]
      · by_cases hw : slot.writes = true
        · simp [hw, ← ih]
        · simp [hw, ← ih]

end Survey

section Skipping

variable {c d : Cursor} {line : List Token} {rest : List Lexeme}

theorem Reader.skipLine_of_atLineEnd (h : c.atLineEnd = true) : skipLine c = .ok () c := by
  unfold skipLine
  rw [if_pos h]

/-- Inside a line the next token is taken, and the rest of the line after it. -/
theorem Reader.skipLine_of_inside {c : Cursor} (hc : c.atLineEnd = false) :
    skipLine c =
      match next c with
      | .error f d => .error f d
      | .ok none d => .ok () d
      | .ok (some t) d =>
        if t.kind.isDeclaration then fail (.unexpectedToken t.describe) d else skipLine d := by
  rw [skipLine, if_neg (by simp [hc])]
  split <;> simp_all

private theorem Reader.skipLine_of_next_some {t : Token} (hc : c.atLineEnd = false)
    (hn : next c = .ok (some t) d) (ht : t.kind.isDeclaration = false) :
    skipLine c = skipLine d := by
  rw [skipLine_of_inside hc, hn]
  simp [ht]

/-- A rest of a line that is skipped has no declaration in it. -/
private theorem Reader.within_of_skipLine (hc : c.atLineEnd = false) (h : skipLine c = .ok () d) :
    ∃ line rest, c.Within line rest ∧ (∀ t ∈ line, t.kind.isDeclaration = false) ∧
      d.rest = rest.tail := by
  fun_induction skipLine c with
  | case1 c hl =>
    rw [hc] at hl
    cases hl
  | case2 => cases h
  | case3 c hl e hn =>
    cases h
    obtain ⟨hr, rfl⟩ := next_eq_ok_none_iff.mp hn
    exact ⟨[], [], ⟨by simp [hr], by simp, .inl rfl, hc⟩, by simp, hr⟩
  | case4 => simp at h
  | case5 c hl t e hn ht ih =>
    obtain ⟨tail, hr, rfl⟩ := next_eq_ok_some_iff.mp hn
    by_cases hk : t.kind = .newline
    · rw [skipLine_of_atLineEnd (by simp [Cursor.past, hk])] at h
      cases h
      exact ⟨[], .token t :: tail, ⟨hr, by simp, .inr ⟨t, tail, rfl, hk⟩, hc⟩, by simp, rfl⟩
    · obtain ⟨line, rest, hw, hd, he⟩ := ih (by simp [Cursor.past, hk]) h
      exact ⟨t :: line, rest, hw.cons hc hr hk,
        List.forall_mem_cons.mpr ⟨by simpa using ht, hd⟩, he⟩

/-- A rest of a line without declarations is skipped. -/
private theorem Cursor.Within.exists_skipLine (hw : c.Within line rest)
    (hd : ∀ t ∈ line, t.kind.isDeclaration = false) :
    ∃ d, Reader.skipLine c = .ok () d ∧ d.rest = rest.tail := by
  induction line generalizing c with
  | nil =>
    have hr : c.rest = rest := by simpa using hw.rest_eq
    rcases hw.ended with rfl | ⟨t, tail, rfl, hk⟩
    · refine ⟨{ c with atLineEnd := true }, ?_, hr⟩
      have hn := Reader.next_eq_ok_none_iff.mpr ⟨hr, rfl⟩
      rw [Reader.skipLine, if_neg (by simp [hw.inside])]
      split <;> simp_all
    · have hn := Reader.next_eq_ok_some_iff.mpr ⟨tail, hr, rfl⟩
      refine ⟨past t tail, ?_, rfl⟩
      rw [Reader.skipLine_of_next_some hw.inside hn (by simp [hk, TokenKind.isDeclaration])]
      exact Reader.skipLine_of_atLineEnd (by simp [past, hk])
  | cons t line ih =>
    obtain ⟨ht, hd⟩ := List.forall_mem_cons.mp hd
    rw [Reader.skipLine_of_next_some hw.inside hw.next_cons ht]
    exact ih hw.tail hd

end Skipping

namespace Survey

variable {catalog : Catalog} {c : Cursor} {sym sym' : Symbols} {owner : String}

theorem read_eq_ok_iff {α : Type} {m : Reader α} {s s' : Survey} {a : α} :
    read m s = .ok a s' ↔ ∃ d, m s.cursor = .ok a d ∧ s' = { s with cursor := d } := by
  unfold read
  cases m s.cursor <;> simp [eq_comm (a := s')]

private theorem modify_eq_ok_iff {f : Survey → Survey} {s s' : Survey} {u : PUnit} :
    (modify f : Surveyor PUnit) s = .ok u s' ↔ s' = f s := by
  change EStateM.Result.ok PUnit.unit (f s) = .ok u s' ↔ _
  simp [eq_comm (a := s')]

/-- The operand of a slot counts if it is written, and then has to be a name or a system
variable. -/
theorem recordOperand_eq_ok_iff {slot : Slot} {t : Token} {s s' : Survey} :
    recordOperand owner slot t s = .ok () s' ↔
      (slot.writes = true → t.kind = .name ∨ t.kind = .sysvar) ∧
      s' = { s with
        symbols := if slot.writes = true then s.symbols.addTargets [t] else s.symbols } := by
  unfold recordOperand Symbols.addTargets
  by_cases hw : slot.writes = true
  · by_cases hn : t.kind = .name
    · simp [hw, hn, modify_eq_ok_iff]
    · by_cases hv : t.kind = .sysvar
      · simp [hw, hv, eq_comm (a := s')]
      · simp [hw, hn, hv, read_eq_ok_iff]
  · simp [hw, eq_comm (a := s')]

theorem targets_cons (slot : Slot) (slots : List Slot) (t : Token) (ts : List Token) :
    Slot.targets (slot :: slots) (t :: ts) =
      (if slot.writes = true then [t] else []) ++ Slot.targets slots ts := by
  by_cases hw : slot.writes = true <;> simp [Slot.targets, hw]

theorem addTargets_append (s : Symbols) (ts us : List Token) :
    s.addTargets (ts ++ us) = (s.addTargets ts).addTargets us := by
  simp [Symbols.addTargets]

/-- The part of a survey that looks at operands, then passes over the rest of the line. -/
def walk (owner : String) (slots : List Slot) : Surveyor Unit := do
  recordEach owner slots
  read Reader.skipLine

/-- At the end of the line no more operands are looked at. -/
private theorem walk_cons_of_over {slot : Slot} {slots : List Slot} {s s' : Survey} {d : Cursor}
    {token : Option Token} (hn : Reader.next s.cursor = .ok token d)
    (hk : ∀ t ∈ token, t.kind = .newline) :
    walk owner (slot :: slots) s = .ok () s' ↔ s' = { s with cursor := d } := by
  have hd : d.atLineEnd = true := by
    cases token with
    | none =>
      obtain ⟨-, rfl⟩ := Reader.next_eq_ok_none_iff.mp hn
      rfl
    | some t =>
      obtain ⟨tail, -, rfl⟩ := Reader.next_eq_ok_some_iff.mp hn
      simp [Cursor.past, hk t rfl]
  have hr : recordEach owner (slot :: slots) s = .ok () { s with cursor := d } := by
    refine bind_eq_ok_iff.mpr ⟨token, _, read_eq_ok_iff.mpr ⟨d, hn, rfl⟩, ?_⟩
    cases token with
    | none => exact pure_eq_ok_iff.mpr ⟨rfl, rfl⟩
    | some t => simp [hk t rfl]
  unfold walk
  rw [bind_eq_ok_iff]
  constructor
  · rintro ⟨_, u, hu, hs⟩
    rw [hr] at hu
    cases hu
    obtain ⟨e, he, rfl⟩ := read_eq_ok_iff.mp hs
    rw [Reader.skipLine_of_atLineEnd hd] at he
    cases he
    rfl
  · rintro rfl
    exact ⟨(), _, hr, read_eq_ok_iff.mpr ⟨d, Reader.skipLine_of_atLineEnd hd, rfl⟩⟩

/-- Inside the line the next operand is looked at. -/
private theorem walk_cons_of_next_some {slot : Slot} {slots : List Slot} {s s' : Survey}
    {d : Cursor} {t : Token} (hn : Reader.next s.cursor = .ok (some t) d) (hk : t.kind ≠ .newline) :
    walk owner (slot :: slots) s = .ok () s' ↔
      (slot.writes = true → t.kind = .name ∨ t.kind = .sysvar) ∧
      walk owner slots ⟨d, if slot.writes = true then s.symbols.addTargets [t] else s.symbols⟩ =
        .ok () s' := by
  simp only [walk, recordEach, bind_eq_ok_iff, read_eq_ok_iff, hn]
  constructor
  · rintro ⟨_, u, ⟨_, v, ⟨d', h, rfl⟩, hp⟩, hs⟩
    cases h
    simp only [hk, if_false] at hp
    obtain ⟨_, w, hr, he⟩ := bind_eq_ok_iff.mp hp
    obtain ⟨ht, rfl⟩ := recordOperand_eq_ok_iff.mp hr
    exact ⟨ht, (), u, he, hs⟩
  · rintro ⟨ht, _, u, he, hs⟩
    refine ⟨(), u, ⟨some t, _, ⟨d, rfl, rfl⟩, ?_⟩, hs⟩
    simp only [hk, if_false]
    exact bind_eq_ok_iff.mpr ⟨(), _, recordOperand_eq_ok_iff.mpr ⟨ht, rfl⟩, he⟩

/-- Operands that are looked at are those of the line. -/
private theorem within_of_walk {slots : List Slot} {s' : Survey} (hc : c.atLineEnd = false)
    (h : walk owner slots ⟨c, sym⟩ = .ok () s') :
    ∃ line rest, c.Within line rest ∧
      (∀ t ∈ Slot.targets slots line, t.kind = .name ∨ t.kind = .sysvar) ∧
      (∀ t ∈ line.drop slots.length, t.kind.isDeclaration = false) ∧
      s'.cursor.rest = rest.tail ∧ s'.symbols = sym.addTargets (Slot.targets slots line) := by
  induction slots generalizing c sym with
  | nil =>
    obtain ⟨_, u, hp, hs⟩ := bind_eq_ok_iff.mp h
    obtain ⟨-, rfl⟩ := pure_eq_ok_iff.mp hp
    obtain ⟨d, hd, rfl⟩ := read_eq_ok_iff.mp hs
    obtain ⟨line, rest, hw, hline, he⟩ := Reader.within_of_skipLine hc hd
    exact ⟨line, rest, hw, by simp [Slot.targets], by simpa using hline, he, rfl⟩
  | cons slot slots ih =>
    obtain ⟨_, u, hr, -⟩ := bind_eq_ok_iff.mp h
    obtain ⟨token, v, hn, -⟩ := bind_eq_ok_iff.mp hr
    obtain ⟨d, hn, -⟩ := read_eq_ok_iff.mp hn
    cases token with
    | none =>
      obtain rfl := (walk_cons_of_over hn (by simp)).mp h
      obtain ⟨hrest, rfl⟩ := Reader.next_eq_ok_none_iff.mp hn
      exact ⟨[], [], ⟨by simpa using hrest, by simp, .inl rfl, hc⟩, by simp [Slot.targets], by simp,
        hrest, by simp [Slot.targets, Symbols.addTargets]⟩
    | some t =>
      obtain ⟨tail, hrest, rfl⟩ := Reader.next_eq_ok_some_iff.mp hn
      by_cases hk : t.kind = .newline
      · obtain rfl := (walk_cons_of_over hn (by simpa using hk)).mp h
        exact ⟨[], .token t :: tail, ⟨hrest, by simp, .inr ⟨t, tail, rfl, hk⟩, hc⟩,
          by simp [Slot.targets], by simp, rfl, by simp [Slot.targets, Symbols.addTargets]⟩
      · obtain ⟨ht, h⟩ := (walk_cons_of_next_some hn hk).mp h
        obtain ⟨line, rest, hw, hts, hds, he, hs⟩ := ih (by simp [Cursor.past, hk]) h
        refine ⟨t :: line, rest, hw.cons hc hrest hk, ?_, by simpa using hds, he, ?_⟩
        · intro u hu
          rw [targets_cons] at hu
          rcases List.mem_append.mp hu with hu | hu
          · by_cases hslot : slot.writes = true
            · rw [if_pos hslot] at hu
              obtain rfl := List.mem_singleton.mp hu
              exact ht hslot
            · simp [hslot] at hu
          · exact hts u hu
        · rw [hs, targets_cons, addTargets_append]
          by_cases hslot : slot.writes = true
          · simp [hslot]
          · simp [hslot, Symbols.addTargets]

/-- Operands of a line that pass are looked at, and the rest of the line is passed over. -/
private theorem exists_walk_eq_ok {slots : List Slot} {line : List Token} {rest : List Lexeme}
    (hw : c.Within line rest)
    (ht : ∀ t ∈ Slot.targets slots line, t.kind = .name ∨ t.kind = .sysvar)
    (hd : ∀ t ∈ line.drop slots.length, t.kind.isDeclaration = false) :
    ∃ e, walk owner slots ⟨c, sym⟩ = .ok () ⟨e, sym.addTargets (Slot.targets slots line)⟩ ∧
      e.rest = rest.tail := by
  induction slots generalizing c sym line with
  | nil =>
    obtain ⟨e, he, hr⟩ := hw.exists_skipLine (by simpa using hd)
    exact ⟨e, bind_eq_ok_iff.mpr ⟨(), _, pure_eq_ok_iff.mpr ⟨rfl, rfl⟩,
      read_eq_ok_iff.mpr ⟨e, he, rfl⟩⟩, hr⟩
  | cons slot slots ih =>
    cases line with
    | nil =>
      have hnil : Slot.targets (slot :: slots) [] = [] := by simp [Slot.targets]
      rw [hnil]
      have hc : c.rest = rest := by simpa using hw.rest_eq
      rcases hw.ended with rfl | ⟨t, tail, rfl, hk⟩
      · have hn := Reader.next_eq_ok_none_iff.mpr ⟨hc, rfl⟩
        exact ⟨{ c with atLineEnd := true }, (walk_cons_of_over hn (by simp)).mpr rfl, hc⟩
      · have hn := Reader.next_eq_ok_some_iff.mpr ⟨tail, hc, rfl⟩
        exact ⟨.past t tail, (walk_cons_of_over hn (by simpa using hk)).mpr rfl, rfl⟩
    | cons t line =>
      rw [targets_cons] at ht ⊢
      obtain ⟨e, he, hr⟩ := @ih _ (if slot.writes = true then sym.addTargets [t] else sym) line
        hw.tail (fun u hu ↦ ht u (List.mem_append_right _ hu)) (by simpa using hd)
      refine ⟨e, (walk_cons_of_next_some hw.next_cons (hw.plain t List.mem_cons_self)).mpr ⟨?_, ?_⟩,
        hr⟩
      · intro hslot
        exact ht t (List.mem_append_left _ (by simp [hslot]))
      · rw [he, addTargets_append]
        by_cases hslot : slot.writes = true
        · simp [hslot]
        · simp [hslot, Symbols.addTargets]

/-- A statement that is surveyed takes its line, and its operands are arranged in slots. -/
private theorem within_of_statement {lead : Token} {s' : Survey} (hc : c.atLineEnd = false)
    (h : statement catalog lead ⟨c, sym⟩ = .ok () s') :
    ∃ line rest instruction slots args, c.Within line rest ∧
      catalog.find? lead.kind = some instruction ∧
      instruction.arranged? line = some (slots, args) ∧
      (∀ t ∈ Slot.targets slots args, t.kind = .name ∨ t.kind = .sysvar) ∧
      (∀ t ∈ args.drop (throughLastWrite slots).length, t.kind.isDeclaration = false) ∧
      s'.cursor.rest = rest.tail ∧
      s'.symbols = (sym.addLines instruction.emits).addTargets (Slot.targets slots args) := by
  unfold statement at h
  cases hl : catalog.find? lead.kind with
  | none => simp [hl, read_eq_ok_iff] at h
  | some instruction =>
    simp only [hl] at h
    obtain ⟨_, u, hm, h⟩ := bind_eq_ok_iff.mp h
    obtain rfl := modify_eq_ok_iff.mp hm
    obtain ⟨slots, v, hr, h⟩ := bind_eq_ok_iff.mp h
    obtain ⟨d, hd, rfl⟩ := read_eq_ok_iff.mp hr
    replace h : walk lead.value (throughLastWrite slots) ⟨d, sym.addLines instruction.emits⟩ =
      .ok () s' := h
    cases instruction with
    | operation op =>
      obtain ⟨rfl, rfl⟩ := pure_eq_ok_iff.mp hd
      obtain ⟨line, rest, hw, ht, hdecl, he, hs⟩ := within_of_walk hc h
      rw [targets_throughLastWrite] at ht hs
      exact ⟨line, rest, _, op.args, line, hw, rfl, rfl, ht, hdecl, he, hs⟩
    | group g =>
      obtain ⟨op, e, hsel, hp⟩ := bind_eq_ok_iff.mp hd
      obtain ⟨rfl, rfl⟩ := pure_eq_ok_iff.mp hp
      obtain ⟨t, hn, hk, hmem⟩ := OperationGroup.select_eq_ok_iff.mp hsel
      obtain ⟨tail, hrest, rfl⟩ := Reader.next_eq_ok_some_iff.mp hn
      obtain ⟨line, rest, hw, ht, hdecl, he, hs⟩ := within_of_walk (by simp [Cursor.past, hk]) h
      rw [targets_throughLastWrite] at ht hs
      refine ⟨t :: line, rest, _, op.args, line, hw.cons hc hrest hk, rfl, ?_, ht, hdecl, he, hs⟩
      simp [Instruction.arranged?, hmem]
    | control control =>
      obtain ⟨rfl, rfl⟩ := pure_eq_ok_iff.mp hd
      obtain ⟨line, rest, hw, ht, hdecl, he, hs⟩ := within_of_walk hc h
      rw [targets_throughLastWrite] at ht hs
      exact ⟨line, rest, _, control.slots, line, hw, rfl, rfl, ht, hdecl, he, hs⟩

/-- A clause that passes is surveyed as a statement. -/
private theorem exists_statement_eq_ok {lead : Token} {line args : List Token} {rest : List Lexeme}
    {instruction : Instruction} {slots : List Slot} (hw : c.Within line rest)
    (hl : catalog.find? lead.kind = some instruction)
    (ha : instruction.arranged? line = some (slots, args))
    (ht : ∀ t ∈ Slot.targets slots args, t.kind = .name ∨ t.kind = .sysvar)
    (hd : ∀ t ∈ args.drop (throughLastWrite slots).length, t.kind.isDeclaration = false) :
    ∃ e, statement catalog lead ⟨c, sym⟩ =
        .ok () ⟨e, (sym.addLines instruction.emits).addTargets (Slot.targets slots args)⟩ ∧
      e.rest = rest.tail := by
  have hlayout : ∃ d, instruction.layout c = .ok slots d ∧ d.Within args rest := by
    cases instruction with
    | operation op =>
      cases ha
      exact ⟨c, pure_eq_ok_iff.mpr ⟨rfl, rfl⟩, hw⟩
    | group g =>
      cases line with
      | nil => cases ha
      | cons t line =>
        obtain ⟨op, hm, he⟩ := Option.map_eq_some_iff.mp ha
        cases he
        refine ⟨_, bind_eq_ok_iff.mpr ⟨op, _, OperationGroup.select_eq_ok_iff.mpr
          ⟨t, hw.next_cons, hw.plain t List.mem_cons_self, hm⟩, ?_⟩, hw.tail⟩
        exact pure_eq_ok_iff.mpr ⟨rfl, rfl⟩
    | control control =>
      cases ha
      exact ⟨c, pure_eq_ok_iff.mpr ⟨rfl, rfl⟩, hw⟩
  obtain ⟨d, hlay, hwd⟩ := hlayout
  rw [← targets_throughLastWrite] at ht ⊢
  obtain ⟨e, he, hr⟩ := @exists_walk_eq_ok _ (sym.addLines instruction.emits) lead.value _ _ _
    hwd ht hd
  refine ⟨e, ?_, hr⟩
  simp only [statement, hl]
  refine bind_eq_ok_iff.mpr ⟨.unit, _, modify_eq_ok_iff.mpr rfl, ?_⟩
  exact bind_eq_ok_iff.mpr ⟨slots, _, read_eq_ok_iff.mpr ⟨d, hlay, rfl⟩, he⟩

theorem element_of_leads {t : Token} (h : t.kind.leads = true) :
    element catalog t = statement catalog t := by
  unfold element
  split <;> simp_all [TokenKind.leads]

/-- A survey that succeeds meets no stray character, and gathers what the outline holds. -/
theorem exists_gathers_of_finish {s : Survey} (h : finish catalog s = .ok sym') :
    ∃ ts, s.cursor.rest = ts.map .token ∧ Gathers catalog s.symbols (outline ts) sym' := by
  fun_induction finish catalog s with
  | case1 => cases h
  | case2 s c hn =>
    cases h
    obtain ⟨hr, -⟩ := Reader.next_eq_ok_none_iff.mp hn
    refine ⟨[], hr, ?_⟩
    rw [outline_nil]
    exact .done
  | case3 => cases h
  | case4 s t c hn u s' he ih =>
    obtain ⟨ts, hts, hg⟩ := ih h
    obtain ⟨tail, hr, rfl⟩ := Reader.next_eq_ok_some_iff.mp hn
    by_cases hk : t.kind.leads = true
    · rw [element_of_leads hk] at he
      have hin : (Cursor.past t tail).atLineEnd = false := by
        simpa [Cursor.past] using TokenKind.ne_newline_of_leads hk
      obtain ⟨line, rest, instruction, slots, args, hw, hl, ha, ht, hd, he, hs⟩ :=
        within_of_statement hin he
      rw [hs] at hg
      have hrest : ∃ us : List Token, rest = us.map .token ∧ outline us = outline ts := by
        rcases hw.ended with rfl | ⟨nl, tail', rfl, hnl⟩
        · obtain rfl : ts = [] := by simpa [hts] using he
          exact ⟨[], rfl, rfl⟩
        · refine ⟨nl :: ts, ?_, outline_newline hnl ts⟩
          rw [List.map_cons, ← hts, he]
          rfl
      obtain ⟨us, rfl, hus⟩ := hrest
      refine ⟨t :: (line ++ us), ?_, ?_⟩
      · rw [hr, List.map_cons, List.map_append, ← hw.rest_eq]
        rfl
      · rw [outline_clause hk hw.plain hw.ended, hus]
        exact .clause hl ha ht hd hg
    · rcases TokenKind.cases_of_not_leads hk with hk | hk | hk | hk
      · simp only [element, hk] at he
        obtain ⟨-, rfl⟩ := pure_eq_ok_iff.mp he
        refine ⟨t :: ts, hr.trans (congrArg (Lexeme.token t :: ·) hts), ?_⟩
        rw [outline_newline hk]
        exact hg
      · simp only [element, hk] at he
        obtain rfl := modify_eq_ok_iff.mp he
        refine ⟨t :: ts, hr.trans (congrArg (Lexeme.token t :: ·) hts), ?_⟩
        rw [outline_label hk]
        exact .declare hg
      · simp only [element, hk] at he
        obtain rfl := modify_eq_ok_iff.mp he
        refine ⟨t :: ts, hr.trans (congrArg (Lexeme.token t :: ·) hts), ?_⟩
        rw [outline_routine hk]
        exact .declare hg
      · simp only [element, hk] at he
        obtain ⟨-, rfl⟩ := pure_eq_ok_iff.mp he
        refine ⟨t :: ts, hr.trans (congrArg (Lexeme.token t :: ·) hts), ?_⟩
        rw [outline_endRoutine hk]
        exact .close hg

theorem finish_of_rest_nil {s : Survey} (h : s.cursor.rest = []) :
    finish catalog s = .ok s.symbols := by
  have hn := Reader.next_eq_ok_none_iff.mpr ⟨h, rfl⟩
  rw [finish]
  split <;> simp_all

theorem finish_of_next_error {s : Survey} {f : Fault} {c : Cursor}
    (hn : Reader.next s.cursor = .error f c) : finish catalog s = .error f := by
  rw [finish]
  split <;> simp_all

theorem finish_of_element_error {s s' : Survey} {t : Token} {f : Fault} {c : Cursor}
    (hn : Reader.next s.cursor = .ok (some t) c)
    (he : element catalog t { s with cursor := c } = .error f s') :
    finish catalog s = .error f := by
  rw [finish]
  split <;> try simp_all
  split <;> simp_all

theorem finish_of_element {s s' : Survey} {t : Token} {c : Cursor}
    (hn : Reader.next s.cursor = .ok (some t) c)
    (he : element catalog t { s with cursor := c } = .ok () s') :
    finish catalog s = finish catalog s' := by
  rw [finish]
  split
  · simp_all
  · simp_all
  · next u d hu =>
    rw [hn] at hu
    cases hu
    split
    · simp_all
    · next v s'' hv =>
      rw [he] at hv
      cases hv
      rfl

/-- What the outline of a text holds is found by a survey. -/
theorem finish_eq_ok_of_gathers {ts : List Token} (hg : Gathers catalog sym (outline ts) sym')
    (hc : c.rest = ts.map .token) : finish catalog ⟨c, sym⟩ = .ok sym' := by
  induction hlen : ts.length using Nat.strongRecOn generalizing ts sym c with
  | ind n ih =>
    subst hlen
    cases ts with
    | nil =>
      rw [outline_nil] at hg
      cases hg
      have hn := Reader.next_eq_ok_none_iff.mpr ⟨hc, rfl⟩
      rw [finish]
      split <;> simp_all
    | cons t ts =>
      have hn := Reader.next_eq_ok_some_iff.mpr ⟨_, hc, rfl⟩
      by_cases hk : t.kind.leads = true
      · obtain ⟨line, rest, rfl, hp, ho⟩ := exists_line ts
        rw [outline_clause hk hp ho] at hg
        cases hg with
        | clause hl ha ht hd hg =>
          have hw := Cursor.within_past hk hp ho
          obtain ⟨e, he, hr⟩ := exists_statement_eq_ok hw hl ha ht hd
          rw [finish_of_element hn (by rw [element_of_leads hk]; exact he)]
          rw [← outline_tail ho] at hg
          refine ih rest.tail.length ?_ hg (by rw [hr, List.map_tail]) rfl
          simp only [List.length_tail, List.length_cons, List.length_append]
          omega
      · rcases TokenKind.cases_of_not_leads hk with hk | hk | hk | hk
        · rw [outline_newline hk] at hg
          rw [finish_of_element hn
            (by simp only [element, hk]; exact pure_eq_ok_iff.mpr ⟨rfl, rfl⟩)]
          exact ih ts.length (by simp) hg rfl rfl
        · rw [outline_label hk] at hg
          cases hg with
          | declare hg =>
            rw [finish_of_element hn (by simp only [element, hk]; exact modify_eq_ok_iff.mpr rfl)]
            exact ih ts.length (by simp) hg rfl rfl
        · rw [outline_routine hk] at hg
          cases hg with
          | declare hg =>
            rw [finish_of_element hn (by simp only [element, hk]; exact modify_eq_ok_iff.mpr rfl)]
            exact ih ts.length (by simp) hg rfl rfl
        · rw [outline_endRoutine hk] at hg
          cases hg with
          | close hg =>
            rw [finish_of_element hn
            (by simp only [element, hk]; exact pure_eq_ok_iff.mpr ⟨rfl, rfl⟩)]
            exact ih ts.length (by simp) hg rfl rfl

end Survey
end MlogAsm
