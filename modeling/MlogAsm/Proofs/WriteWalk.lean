import Mathlib.Data.List.DropRight
import MlogAsm.Proofs.WriteTargets

/-!
# The walk over written slots

A survey walks over the slots of a statement up to the last one that is written, and looks at what
stands there. An emission reads all slots, and leaves out those that stay empty. The two loops are
written apart. Each of them pulls once for every slot, so as long as no slot that matters is empty
they meet the same operands at the same slots.
-/

namespace MlogAsm

namespace Slot

/-- What slots meet that pull one after the other: a token, or none at the end of the text. A stray
character ends it. -/
def met : List Slot → Cursor → List (Slot × Option Token)
  | [], _ => []
  | slot :: slots, c =>
    match Reader.next c with
    | .ok token d => (slot, token) :: met slots d
    | .error _ _ => []

/-- The operand in what a slot meets: any token but the end of a line. -/
def operand? (x : Slot × Option Token) : Option (Slot × Token) :=
  (x.2.filter (·.kind != .newline)).map (x.1, ·)

/-- The operands in what slots meet. -/
def taken (xs : List (Slot × Option Token)) : OperandLog :=
  xs.filterMap operand?

/-- What is met up to the last slot that is written. -/
def metThroughLastWrite (slots : List Slot) (c : Cursor) : List (Slot × Option Token) :=
  (met slots c).rdropWhile fun x ↦ !x.1.writes

private theorem met_cons_of_next {c d : Cursor} {token : Option Token}
    (hn : Reader.next c = .ok token d) (slot : Slot) (slots : List Slot) :
    met (slot :: slots) c = (slot, token) :: met slots d := by
  rw [met, hn]

private theorem operand?_eq_some_iff {x : Slot × Option Token} {y : Slot × Token} :
    operand? x = some y ↔ x = (y.1, some y.2) ∧ y.2.kind ≠ .newline := by
  obtain ⟨slot, token⟩ := x
  obtain ⟨slot', t⟩ := y
  simp only [operand?, Option.map_eq_some_iff, Option.filter_eq_some_iff, bne_iff_ne,
    Prod.mk.injEq]
  constructor
  · rintro ⟨u, ⟨rfl, hk⟩, rfl, rfl⟩
    exact ⟨⟨rfl, rfl⟩, hk⟩
  · rintro ⟨⟨rfl, rfl⟩, hk⟩
    exact ⟨t, ⟨rfl, hk⟩, rfl, rfl⟩

/-- Slots that are read meet something each, and the operands are what they meet, less the ends of
lines. Each operand fits its slot. -/
theorem met_of_readEach {vars : List String} {slots : List Slot} {c d : Cursor}
    {operands : List String} (h : readEach vars slots c = .ok operands d) :
    (met slots c).map Prod.fst = slots ∧
      (taken (met slots c)).map (fun x ↦ x.2.value) = operands ∧
      ∀ x ∈ taken (met slots c), x.1.Fits (· ∈ vars) x.2 := by
  induction slots generalizing c operands with
  | nil =>
    obtain ⟨rfl, -⟩ := pure_eq_ok_iff.mp h
    exact ⟨rfl, rfl, by simp [met, taken]⟩
  | cons slot slots ih =>
    obtain ⟨operand, e, rest, hr, hs, rfl⟩ := readEach_cons_eq_ok_iff.mp h
    obtain ⟨hslots, hrest, hfits⟩ := ih hs
    rcases read_eq_ok_iff.mp hr with ⟨hn, -, rfl⟩ | ⟨t, hn, ⟨hk, -, rfl⟩ | ⟨hf, rfl⟩⟩
    · rw [met_cons_of_next hn]
      exact ⟨congrArg (slot :: ·) hslots, hrest, hfits⟩
    · rw [met_cons_of_next hn]
      have hnone : operand? (slot, some t) = none := by simp [operand?, hk]
      unfold taken
      rw [List.filterMap_cons_none hnone]
      exact ⟨congrArg (slot :: ·) hslots, hrest, hfits⟩
    · rw [met_cons_of_next hn]
      have hk : t.kind ≠ .newline :=
        TokenKind.ne_newline_of_leads (TokenKind.leads_of_isValue hf.isValue)
      have hsome : operand? (slot, some t) = some (slot, t) :=
        operand?_eq_some_iff.mpr ⟨rfl, hk⟩
      unfold taken
      rw [List.filterMap_cons_some hsome]
      exact ⟨congrArg (slot :: ·) hslots, congrArg (t.value :: ·) hrest,
        List.forall_mem_cons.mpr ⟨hf, hfits⟩⟩

/-- Where operands are the first things that slots meet, they come next in the text. -/
private theorem lexemes_prefix_of_met {log : OperandLog} {slots : List Slot} {c : Cursor}
    (h : (log.map fun x ↦ (x.1, some x.2)) <+: met slots c) : log.lexemes <+: c.rest := by
  induction log generalizing slots c with
  | nil => exact List.nil_prefix
  | cons x log ih =>
    cases slots with
    | nil => simp [met] at h
    | cons slot slots =>
      cases hn : Reader.next c with
      | error f d => simp [met, hn] at h
      | ok token d =>
        rw [met_cons_of_next hn, List.map_cons, List.cons_prefix_cons] at h
        obtain ⟨hx, hlog⟩ := h
        obtain ⟨-, rfl⟩ := Prod.mk.inj hx
        obtain ⟨rest, hrest, rfl⟩ := Reader.next_eq_ok_some_iff.mp hn
        rw [hrest]
        exact List.cons_prefix_cons.mpr ⟨rfl, ih hlog⟩

end Slot

section LastWrite

private theorem rdropWhile_cons {α : Type} (p : α → Bool) (x : α) (xs : List α) :
    (x :: xs).rdropWhile p =
      if xs.rdropWhile p = [] then [x].rdropWhile p else x :: xs.rdropWhile p := by
  unfold List.rdropWhile
  rw [List.reverse_cons, List.dropWhile_append]
  by_cases h : xs.reverse.dropWhile p = []
  · simp [h]
  · simp [h]

/-- The slots up to the last one that is written are left when those behind it are dropped. -/
private theorem Survey.throughLastWrite_eq_rdropWhile (slots : List Slot) :
    throughLastWrite slots = slots.rdropWhile fun slot ↦ !slot.writes := by
  induction slots with
  | nil => rfl
  | cons slot slots ih =>
    rw [throughLastWrite, rdropWhile_cons, ← ih]
    cases throughLastWrite slots with
    | nil => cases hw : slot.writes <;> simp [List.rdropWhile_singleton, hw]
    | cons found rest => simp

variable {slots : List Slot} {c : Cursor}

private theorem Slot.map_fst_metThroughLastWrite (h : (met slots c).map Prod.fst = slots) :
    (metThroughLastWrite slots c).map Prod.fst = Survey.throughLastWrite slots := by
  rw [Survey.throughLastWrite_eq_rdropWhile]
  conv_rhs => rw [← h]
  simp only [metThroughLastWrite, List.rdropWhile, ← List.map_reverse, List.dropWhile_map]
  rfl

/-- Nothing is written behind the last slot that is written. -/
private theorem Slot.targets_taken_metThroughLastWrite (slots : List Slot) (c : Cursor) :
    (taken (metThroughLastWrite slots c)).targets = (taken (met slots c)).targets := by
  conv_rhs => rw [← List.rdropWhile_append_rtakeWhile (p := fun x ↦ !x.1.writes) (l := met slots c)]
  unfold taken metThroughLastWrite
  rw [List.filterMap_append, OperandLog.targets_append]
  have hnone : OperandLog.targets
      (((met slots c).rtakeWhile fun x ↦ !x.1.writes).filterMap operand?) = [] := by
    apply OperandLog.targets_eq_nil
    intro y hy
    obtain ⟨x, hx, hxy⟩ := List.mem_filterMap.mp hy
    have hw := List.mem_rtakeWhile_imp hx
    rw [(operand?_eq_some_iff.mp hxy).1] at hw
    simpa using hw
  rw [hnone, List.append_nil]

/-- Where no slot stays empty, every slot has its operand. -/
private theorem Slot.map_taken_of_operands {xs : List (Slot × Option Token)}
    (h : ∀ x ∈ xs, ∃ t, x.2 = some t ∧ t.kind ≠ .newline) :
    (taken xs).map (fun y ↦ (y.1, some y.2)) = xs := by
  induction xs with
  | nil => rfl
  | cons x xs ih =>
    obtain ⟨⟨t, ht, hk⟩, hxs⟩ := List.forall_mem_cons.mp h
    obtain ⟨slot, token⟩ := x
    have ht : token = some t := ht
    have hsome : operand? (slot, token) = some (slot, t) :=
      operand?_eq_some_iff.mpr ⟨by rw [ht], hk⟩
    unfold taken at ih ⊢
    rw [List.filterMap_cons_some hsome, List.map_cons, ih hxs, ht]

end LastWrite

namespace OperandLog

theorem targets_cons (slot : Slot) (t : Token) (log : OperandLog) :
    targets ((slot, t) :: log) = (if slot.writes = true then [t] else []) ++ targets log := by
  cases hw : slot.writes <;> simp [targets, hw]

/-- The first operand that stands in the text is pulled, and the others come next. -/
private theorem exists_next_of_prefix {slot : Slot} {t : Token} {log : OperandLog} {c : Cursor}
    (h : lexemes ((slot, t) :: log) <+: c.rest) :
    ∃ d, Reader.next c = .ok (some t) d ∧ d.line = t.line ∧ lexemes log <+: d.rest := by
  obtain ⟨rest, hrest⟩ := h
  refine ⟨.past t (lexemes log ++ rest), ?_, rfl, List.prefix_append _ _⟩
  exact Reader.next_eq_ok_some_iff.mpr ⟨_, hrest.symm, rfl⟩

end OperandLog

namespace Survey

variable {owner : String} {s : Symbols} {c d : Cursor} {log : OperandLog} {slot : Slot} {t : Token}

/-- A token of the line is held against its slot, and the walk goes on behind it. -/
private theorem recordEach_cons_of_next (hn : Reader.next c = .ok (some t) d)
    (hk : t.kind ≠ .newline) (slots : List Slot) :
    recordEach owner (slot :: slots) ⟨c, s⟩ =
      (recordOperand owner slot t >>= fun _ ↦ recordEach owner slots) ⟨d, s⟩ := by
  have hread : read Reader.next ⟨c, s⟩ = .ok (some t) ⟨d, s⟩ := by
    unfold read
    rw [hn]
  change EStateM.bind (read Reader.next) _ ⟨c, s⟩ = _
  unfold EStateM.bind
  rw [hread]
  dsimp only
  rw [if_neg hk]

/-- An operand that can stand in its slot is passed. -/
private theorem recordEach_cons_of_writable (hn : Reader.next c = .ok (some t) d)
    (hk : t.kind ≠ .newline) (ht : slot.writes = true → t.kind = .name ∨ t.kind = .sysvar)
    (slots : List Slot) :
    recordEach owner (slot :: slots) ⟨c, s⟩ =
      recordEach owner slots ⟨d, s.addTargets (if slot.writes = true then [t] else [])⟩ := by
  have hok : recordOperand owner slot t ⟨d, s⟩ =
      .ok () ⟨d, s.addTargets (if slot.writes = true then [t] else [])⟩ := by
    rw [recordOperand_eq_ok_iff]
    refine ⟨ht, ?_⟩
    cases slot.writes <;> rfl
  rw [recordEach_cons_of_next hn hk]
  change EStateM.bind _ _ _ = _
  unfold EStateM.bind
  rw [hok]

/-- Any other operand of a written slot is refused. -/
private theorem recordEach_cons_of_unwritable (hn : Reader.next c = .ok (some t) d)
    (hk : t.kind ≠ .newline) (hw : slot.writes = true) (hname : t.kind ≠ .name)
    (hsys : t.kind ≠ .sysvar) (slots : List Slot) :
    recordEach owner (slot :: slots) ⟨c, s⟩ =
      .error ⟨.unwritable t.describe owner, some d.line, none⟩ ⟨d, s⟩ := by
  rw [recordEach_cons_of_next hn hk]
  unfold recordOperand
  rw [if_pos hw, if_neg hname, if_pos hsys]
  rfl

/-- Operands that come next are walked over, and the names among the targets become variables. -/
private theorem exists_recordEach_eq_ok (hrest : log.lexemes <+: c.rest)
    (hk : ∀ x ∈ log, x.2.kind ≠ .newline)
    (ht : ∀ t ∈ log.targets, t.kind = .name ∨ t.kind = .sysvar) :
    ∃ d, recordEach owner (log.map Prod.fst) ⟨c, s⟩ = .ok () ⟨d, s.addTargets log.targets⟩ := by
  induction log generalizing c s with
  | nil => exact ⟨c, rfl⟩
  | cons x log ih =>
    obtain ⟨slot, t⟩ := x
    obtain ⟨d, hn, -, hlog⟩ := OperandLog.exists_next_of_prefix hrest
    obtain ⟨hx, hks⟩ := List.forall_mem_cons.mp hk
    rw [OperandLog.targets_cons] at ht ⊢
    have hwritable : slot.writes = true → t.kind = .name ∨ t.kind = .sysvar :=
      fun hw ↦ ht t (by simp [hw])
    rw [List.map_cons, recordEach_cons_of_writable hn hx hwritable, addTargets_append]
    exact ih hlog hks fun u hu ↦ ht u (List.mem_append_right _ hu)

/-- The walk fails at a target that can't be written, on the line of that target. -/
private theorem exists_recordEach_eq_error (hrest : log.lexemes <+: c.rest)
    (hk : ∀ x ∈ log, x.2.kind ≠ .newline)
    (ht : ∃ t ∈ log.targets, t.kind ≠ .name ∧ t.kind ≠ .sysvar) :
    ∃ t ∈ log.targets, ∃ s', recordEach owner (log.map Prod.fst) ⟨c, s⟩ =
      .error ⟨.unwritable t.describe owner, some t.line, none⟩ s' := by
  induction log generalizing c s with
  | nil =>
    obtain ⟨t, hmem, -⟩ := ht
    cases hmem
  | cons x log ih =>
    obtain ⟨slot, t⟩ := x
    obtain ⟨d, hn, hline, hlog⟩ := OperandLog.exists_next_of_prefix hrest
    obtain ⟨hx, hks⟩ := List.forall_mem_cons.mp hk
    obtain ⟨u, hu, hname, hsys⟩ := ht
    rw [OperandLog.targets_cons] at hu ⊢
    by_cases hbad : slot.writes = true ∧ t.kind ≠ .name ∧ t.kind ≠ .sysvar
    · obtain ⟨hw, hname, hsys⟩ := hbad
      refine ⟨t, by simp [hw], ⟨d, s⟩, ?_⟩
      rw [List.map_cons, recordEach_cons_of_unwritable hn hx hw hname hsys, hline]
    · have hwritable : slot.writes = true → t.kind = .name ∨ t.kind = .sysvar := by
        intro hw
        by_contra hnot
        exact hbad ⟨hw, not_or.mp hnot⟩
      have hlater : u ∈ OperandLog.targets log := by
        rcases List.mem_append.mp hu with hu | hu
        · split at hu
          · next hw =>
            obtain rfl := List.mem_singleton.mp hu
            exact absurd ⟨hw, hname, hsys⟩ hbad
          · cases hu
        · exact hu
      rw [List.map_cons, recordEach_cons_of_writable hn hx hwritable]
      obtain ⟨v, hv, hs⟩ := ih hlog hks ⟨u, hlater, hname, hsys⟩
      exact ⟨v, List.mem_append_right _ hv, hs⟩

section Met

variable {slots : List Slot} (hslots : (Slot.met slots c).map Prod.fst = slots)
  (hmet : ∀ x ∈ Slot.metThroughLastWrite slots c, ∃ t, x.2 = some t ∧ t.kind ≠ .newline)

include hslots hmet

/-- A walk looks at operands that come next in the text, and at all targets. -/
private theorem exists_seen_of_met :
    ∃ seen : OperandLog, seen.map Prod.fst = throughLastWrite slots ∧ seen.lexemes <+: c.rest ∧
      (∀ x ∈ seen, x.2.kind ≠ .newline) ∧
      seen.targets = (Slot.taken (Slot.met slots c)).targets := by
  have hmap := Slot.map_taken_of_operands hmet
  refine ⟨Slot.taken (Slot.metThroughLastWrite slots c), ?_, ?_, ?_,
    Slot.targets_taken_metThroughLastWrite slots c⟩
  · rw [← Slot.map_fst_metThroughLastWrite hslots, ← hmap, List.map_map, hmap]
    rfl
  · apply Slot.lexemes_prefix_of_met
    rw [hmap]
    exact List.rdropWhile_prefix _ _
  · intro x hx
    obtain ⟨y, -, hy⟩ := List.mem_filterMap.mp hx
    exact (Slot.operand?_eq_some_iff.mp hy).2

private theorem exists_recordWrites_eq_ok
    (ht : ∀ t ∈ (Slot.taken (Slot.met slots c)).targets, t.kind = .name ∨ t.kind = .sysvar) :
    ∃ d, recordWrites owner slots ⟨c, s⟩ =
      .ok () ⟨d, s.addTargets (Slot.taken (Slot.met slots c)).targets⟩ := by
  obtain ⟨seen, hfst, hrest, hk, htargets⟩ := exists_seen_of_met hslots hmet
  rw [← htargets] at ht ⊢
  rw [recordWrites, ← hfst]
  exact exists_recordEach_eq_ok hrest hk ht

private theorem exists_recordWrites_eq_error
    (ht : ∃ t ∈ (Slot.taken (Slot.met slots c)).targets, t.kind ≠ .name ∧ t.kind ≠ .sysvar) :
    ∃ t ∈ (Slot.taken (Slot.met slots c)).targets, ∃ s', recordWrites owner slots ⟨c, s⟩ =
      .error ⟨.unwritable t.describe owner, some t.line, none⟩ s' := by
  obtain ⟨seen, hfst, hrest, hk, htargets⟩ := exists_seen_of_met hslots hmet
  rw [← htargets] at ht ⊢
  rw [recordWrites, ← hfst]
  exact exists_recordEach_eq_error hrest hk ht

end Met
end Survey

/-- What is met in a slot for a variable, and fits there, can be written. -/
theorem Slot.writable_of_fits {known : String → Prop} {slots : List Slot} {c : Cursor}
    (hslots : (met slots c).map Prod.fst = slots)
    (hfits : ∀ x ∈ taken (met slots c), x.1.Fits known x.2)
    (hvariable : ∀ slot ∈ slots, slot.writes = true → slot.kind = .variable) :
    ∀ t ∈ (taken (met slots c)).targets, t.kind = .name ∨ t.kind = .sysvar := by
  intro t ht
  obtain ⟨x, hx, rfl⟩ := List.mem_map.mp ht
  obtain ⟨hx, hw⟩ := List.mem_filter.mp hx
  have hslot : x.1 ∈ slots := by
    obtain ⟨y, hy, hxy⟩ := List.mem_filterMap.mp hx
    rw [← hslots, List.mem_map]
    exact ⟨y, hy, by rw [(operand?_eq_some_iff.mp hxy).1]⟩
  exact (hfits x hx).of_variable (hvariable x.1 hslot hw)

/-- The variables after a walk are those before it, then the names among the targets that are new,
each one once. -/
theorem Symbols.vars_addTargets_eq_append (s : Symbols) (ts : List Token) :
    (s.addTargets ts).vars =
      s.vars ++ ((Token.names ts).filter fun name ↦ name ∉ s.vars).eraseDups := by
  induction ts generalizing s with
  | nil => simp [addTargets, Token.names]
  | cons t ts ih =>
    rw [addTargets_cons]
    by_cases hk : t.kind = .name
    · have hnames : Token.names (t :: ts) = t.value :: Token.names ts := by
        simp [Token.names, hk]
      rw [if_pos hk, ih, hnames]
      unfold addVariable
      by_cases hv : t.value ∈ s.vars
      · simp [hv]
      · simp [hv, List.eraseDups_cons, List.filter_filter, Bool.beq_eq_decide_eq, Bool.and_comm]
    · have hnames : Token.names (t :: ts) = Token.names ts := by
        simp [Token.names, hk]
      rw [if_neg hk, ih, hnames]

/-- Let slots be read from a place, with any variables, and let no slot up to the last one that is
written meet the end of a line or of the text. Then a survey that walks over the slots from this
place, with any symbols, meets the same operands at the same slots. It fails, with a structural
fault, exactly if an operand of a written slot is neither a name nor a system variable. Otherwise
the new names among these operands are added to the variables, each one once and in order, and
nothing else changes. It can't fail if the written slots are meant for variables. -/
theorem write_walk_sees_operands (slots : List Slot) (vars : List String) (definition : String)
    (c d : Cursor) (operands : List String) (owner : String) (symbols : Symbols)
    (hread : Slot.readAll vars definition slots c = .ok operands d)
    (hmet : ∀ x ∈ Slot.metThroughLastWrite slots c, ∃ t, x.2 = some t ∧ t.kind ≠ .newline) :
    let log := Slot.taken (Slot.met slots c)
    let walk := Survey.recordWrites owner slots ⟨c, symbols⟩
    (Slot.met slots c).map Prod.fst = slots ∧ log.map (fun x ↦ x.2.value) = operands ∧
    ((∃ f s, walk = .error f s ∧ f.cause.category = .structural) ↔
      ∃ t ∈ log.targets, t.kind ≠ .name ∧ t.kind ≠ .sysvar) ∧
    ((∀ t ∈ log.targets, t.kind = .name ∨ t.kind = .sysvar) → ∃ e, walk = .ok () ⟨e, { symbols with
      vars := symbols.vars ++
        ((Token.names log.targets).filter fun name ↦ name ∉ symbols.vars).eraseDups }⟩) ∧
    ((∀ slot ∈ slots, slot.writes = true → slot.kind = .variable) → ∃ s, walk = .ok () s) := by
  intro log walk
  obtain ⟨hslots, hoperands, hfits⟩ := Slot.met_of_readEach (Reader.describing_eq_ok_iff.mp hread)
  refine ⟨hslots, hoperands, ⟨?_, ?_⟩, ?_, ?_⟩
  · rintro ⟨f, s, hf, -⟩
    by_contra hnone
    have hall : ∀ t ∈ log.targets, t.kind = .name ∨ t.kind = .sysvar := by
      intro t ht
      by_contra hbad
      exact hnone ⟨t, ht, not_or.mp hbad⟩
    obtain ⟨e, he⟩ := Survey.exists_recordWrites_eq_ok hslots hmet hall
    cases hf.symm.trans he
  · intro hbad
    obtain ⟨t, -, s, hs⟩ := Survey.exists_recordWrites_eq_error hslots hmet hbad
    exact ⟨_, s, hs, rfl⟩
  · intro hall
    rw [← Symbols.vars_addTargets_eq_append, ← Symbols.addTargets_eq]
    exact Survey.exists_recordWrites_eq_ok hslots hmet hall
  · intro hvariable
    have hall := Slot.writable_of_fits hslots hfits hvariable
    obtain ⟨e, he⟩ := Survey.exists_recordWrites_eq_ok hslots hmet hall
    exact ⟨_, he⟩

/-- Five slots, of which three are written and the last one stays empty. A name that is written
twice becomes one variable behind those there are, which may repeat. A number in a written slot is
refused. -/
theorem write_walk_sees_operands_several :
    let slots : List Slot := [{ name := "a", kind := .any, writes := true },
      { name := "b", kind := .operator }, { name := "c", kind := .any, writes := true },
      { name := "d", kind := .variable, writes := true },
      { name := "e", kind := .int, optional := true }]
    let line (first : Token) : Cursor := .start ([first, ⟨.operator, "add", 1, 2⟩,
      ⟨.sysvar, "@u", 1, 6⟩, ⟨.name, "x", 1, 9⟩, ⟨.newline, "\n", 1, 10⟩].map .token)
    let name : Token := ⟨.name, "x", 1, 0⟩
    let number : Token := ⟨.int, "7", 1, 0⟩
    let symbols : Symbols := { Symbols.empty with vars := ["v", "v"] }
    (∃ d, Slot.readAll ["x"] "" slots (line name) = .ok ["x", "add", "@u", "x"] d ∧
      ∃ e, Survey.recordWrites "w" slots ⟨line name, symbols⟩ =
        .ok () ⟨e, { symbols with vars := ["v", "v", "x"] }⟩) ∧
    (∃ d, Slot.readAll ["x"] "" slots (line number) = .ok ["7", "add", "@u", "x"] d ∧
      ∃ f s, Survey.recordWrites "w" slots ⟨line number, symbols⟩ = .error f s ∧
        f.cause.category = .structural) := by
  intro slots line name number symbols
  have hmet (first : Token) (hk : first.kind ≠ .newline) :
      ∀ x ∈ Slot.metThroughLastWrite slots (line first), ∃ t, x.2 = some t ∧ t.kind ≠ .newline := by
    have hall : Slot.metThroughLastWrite slots (line first) = [(slots[0], some first),
        (slots[1], some ⟨.operator, "add", 1, 2⟩), (slots[2], some ⟨.sysvar, "@u", 1, 6⟩),
        (slots[3], some ⟨.name, "x", 1, 9⟩)] := rfl
    simp [hall, hk]
  refine ⟨⟨_, rfl, ?_⟩, ⟨_, rfl, ?_⟩⟩
  · have h := write_walk_sees_operands slots ["x"] "" (line name) _ _ "w" symbols rfl
      (hmet name (by decide))
    exact h.2.2.2.1 (by decide)
  · have h := write_walk_sees_operands slots ["x"] "" (line number) _ _ "w" symbols rfl
      (hmet number (by decide))
    exact h.2.2.1.mpr ⟨number, by decide, by decide⟩

end MlogAsm
