import MlogAsm.Proofs.Language
import MlogAsm.Proofs.SurveyLines

/-!
# Late declarations

Declarations that stand behind a statement on its line. There are none in a text that can be
assembled. A survey alone is not as strict: it passes over the operands before the last one that is
written without looking at them, and a declaration that stands there is lost.
-/

namespace MlogAsm

section Operands

/-- A member of a group is not picked by a declaration. -/
def Instruction.PicksNoDeclaration : Instruction → Prop
  | group g => ∀ op ∈ g.members, op.token.isDeclaration = false
  | _ => True

instance : DecidablePred Instruction.PicksNoDeclaration
  | .group g => inferInstanceAs (Decidable (∀ op ∈ g.members, op.token.isDeclaration = false))
  | .operation _ => .isTrue trivial
  | .control _ => .isTrue trivial

private theorem Catalog.standard_picksNoDeclaration :
    ∀ instruction ∈ standard.instructions, instruction.PicksNoDeclaration := by
  decide

private theorem OperationGroup.not_isDeclaration_of_member? {g : OperationGroup} {kind : TokenKind}
    {op : Operation} (hp : (Instruction.group g).PicksNoDeclaration)
    (hm : g.member? kind = some op) : kind.isDeclaration = false := by
  have hkind : op.token = kind := by simpa using List.find?_some hm
  rw [← hkind]
  exact hp op (List.mem_of_find?_eq_some hm)

variable {catalog : Catalog} {known : String → Prop}

private theorem Slot.Fills.not_isDeclaration {slots : List Slot} {ts : List Token}
    (h : Fills known slots ts) : ∀ t ∈ ts, t.kind.isDeclaration = false :=
  fun _ ht ↦ TokenKind.isDeclaration_of_isValue (h.isValue ht)

/-- No declaration is part of a statement. -/
private theorem Statement.Written.not_isDeclaration {s : Statement} {lead : Token}
    {operands : List Token}
    (hc : ∀ instruction ∈ catalog.instructions, instruction.PicksNoDeclaration)
    (h : s.Written catalog known (lead :: operands)) :
    ∀ t ∈ operands, t.kind.isDeclaration = false := by
  cases h with
  | operation _ hf => exact hf.not_isDeclaration
  | member hl hm hf =>
    have hpick := OperationGroup.not_isDeclaration_of_member?
      (hc _ (List.mem_of_find?_eq_some hl)) hm
    exact List.forall_mem_cons.mpr ⟨hpick, hf.not_isDeclaration⟩
  | compute _ _ hf => exact hf.not_isDeclaration
  | jumpAlways _ _ hn ha => simp [hn, ha, TokenKind.isDeclaration]
  | jumpIf _ _ hn ho hf =>
    refine List.forall_mem_cons.mpr ⟨by rw [hn]; rfl, ?_⟩
    exact List.forall_mem_cons.mpr ⟨by rw [ho]; rfl, hf.not_isDeclaration⟩
  | goto _ _ hn | gosub _ _ hn => simp [hn, TokenKind.isDeclaration]
  | leave => simp

/-- No clause has a declaration among its operands. -/
def NoLateDeclaration (es : List Element) : Prop :=
  ∀ lead operands, Element.clause lead operands ∈ es →
    ∀ t ∈ operands, t.kind.isDeclaration = false

/-- No declaration of a program stands behind a statement on its line. -/
theorem Program.noLateDeclaration {p : Program} {es : List Element}
    (hc : ∀ instruction ∈ catalog.instructions, instruction.PicksNoDeclaration)
    (hp : List.Forall₂ (Item.Written catalog known) p es) : NoLateDeclaration es := by
  induction hp with
  | nil => simp [NoLateDeclaration]
  | cons hi _ ih =>
    intro lead operands hm
    rcases List.mem_cons.mp hm with rfl | hm
    · cases hi with
      | statement hw => exact hw.not_isDeclaration hc
    · exact ih lead operands hm

/-- No declaration of a text that can be assembled stands behind a statement on its line. -/
theorem Assembly.noLateDeclaration {text : String} {a : Assembly} {ts : List Token}
    (h : ofText text = .ok a) (hts : Lexeme.scan text = ts.map .token) :
    NoLateDeclaration (outline ts) := by
  obtain ⟨p, ⟨us, hus, hp⟩, -, -⟩ := exists_program Catalog.standard_regular h
  obtain rfl : ts = us :=
    List.map_injective_iff.mpr (fun _ _ ↦ Lexeme.token.inj) (hts.symm.trans hus)
  exact Program.noLateDeclaration Catalog.standard_picksNoDeclaration hp

end Operands

section Overlooked

variable {slots : List Slot} {before behind : List Token} {t : Token}

/-- The slots that are left for the operands behind some others. -/
def Instruction.slotsBehind (i : Instruction) (before : List Token) : List Slot :=
  ((i.arranged? before).map fun x ↦ x.1.drop x.2.length).getD []

/-- A survey does not look at the operand behind some others: its slot is not written, but a later
one is. -/
def Instruction.overlooks (i : Instruction) (before : List Token) : Bool :=
  match i.slotsBehind before with
  | [] => false
  | slot :: slots => !slot.writes && slots.any Slot.writes

/-- The slots before the last written one that are not written themselves, by name. -/
def Slot.overlooked (slots : List Slot) : List String :=
  ((Survey.throughLastWrite slots).filter fun slot ↦ !slot.writes).map Slot.name

/-- The slots that a survey does not look at in the statements of an instruction, with the words
that begin the statement. -/
def Instruction.overlooked : Instruction → List (List String × List String)
  | operation op => [([op.name], Slot.overlooked op.args)]
  | group g => g.members.map fun op ↦ ([g.name, op.name], Slot.overlooked op.args)
  | control c => [([c.name], Slot.overlooked c.slots)]

private theorem Survey.throughLastWrite_eq_nil_iff (slots : List Slot) :
    throughLastWrite slots = [] ↔ slots.any Slot.writes = false := by
  induction slots with
  | nil => simp [throughLastWrite]
  | cons slot slots ih =>
    rw [throughLastWrite, List.any_cons, Bool.or_eq_false_iff, ← ih]
    split
    · next hnil => cases hw : slot.writes <;> simp [hnil]
    · next hne => simpa using fun _ ↦ hne

private theorem Survey.length_throughLastWrite_cons_le (slot : Slot) (slots : List Slot) :
    (throughLastWrite (slot :: slots)).length ≤ (throughLastWrite slots).length + 1 := by
  rw [throughLastWrite]
  split
  · split <;> simp
  · exact Nat.le_refl _

section Passing

variable
  (hd : ∀ u ∈ (before ++ t :: behind).drop (Survey.throughLastWrite slots).length,
    u.kind.isDeclaration = false)
  (ht : t.kind.isDeclaration = true)

include hd ht

/-- Where nothing is looked at, the whole rest of the line is searched for declarations. -/
private theorem Survey.throughLastWrite_ne_nil_of_declaration : throughLastWrite slots ≠ [] := by
  intro hnil
  have hno := hd t (by simp [hnil])
  rw [ht] at hno
  cases hno

/-- A declaration among operands that pass stands in a slot that is not looked at. -/
private theorem Slot.exists_drop_of_declaration
    (hw : ∀ u ∈ targets slots (before ++ t :: behind), u.kind = .name ∨ u.kind = .sysvar) :
    ∃ slot later, slots.drop before.length = slot :: later ∧ slot.writes = false ∧
      later.any writes = true := by
  induction before generalizing slots with
  | nil =>
    have hlooked := Survey.throughLastWrite_ne_nil_of_declaration hd ht
    cases slots with
    | nil => exact absurd rfl hlooked
    | cons slot later =>
      have hslot : slot.writes = false := by
        by_contra hwrites
        rw [Bool.not_eq_false] at hwrites
        have hmem : t ∈ targets (slot :: later) (t :: behind) := by simp [targets, hwrites]
        rcases hw t hmem with hk | hk <;> simp [hk, TokenKind.isDeclaration] at ht
      refine ⟨slot, later, rfl, hslot, ?_⟩
      by_contra hnone
      apply hlooked
      rw [Survey.throughLastWrite_eq_nil_iff, List.any_cons, hslot, Bool.false_or]
      exact eq_false_of_ne_true hnone
  | cons u before ih =>
    cases slots with
    | nil => exact absurd rfl (Survey.throughLastWrite_ne_nil_of_declaration hd ht)
    | cons slot slots =>
      refine ih (fun v hv ↦ hd v ?_) fun v hv ↦ hw v ?_
      · exact List.drop_subset_drop_left (u :: (before ++ t :: behind))
          (Survey.length_throughLastWrite_cons_le slot slots) hv
      · rw [List.cons_append, Survey.targets_cons]
        exact List.mem_append_right _ hv

end Passing

/-- Operands behind others are arranged behind them. -/
private theorem Instruction.exists_arranged_of_append {i : Instruction} {args : List Token}
    (hp : i.PicksNoDeclaration) (ht : t.kind.isDeclaration = true)
    (h : i.arranged? (before ++ t :: behind) = some (slots, args)) :
    ∃ front, i.arranged? before = some (slots, front) ∧ args = front ++ t :: behind := by
  cases i with
  | operation op | control c =>
    cases h
    exact ⟨before, rfl, rfl⟩
  | group g =>
    cases before with
    | nil =>
      obtain ⟨op, hm, -⟩ := Option.map_eq_some_iff.mp h
      rw [OperationGroup.not_isDeclaration_of_member? hp hm] at ht
      cases ht
    | cons pick before =>
      obtain ⟨op, hm, he⟩ := Option.map_eq_some_iff.mp h
      cases he
      exact ⟨before, by simp [arranged?, hm], rfl⟩

/-- What was surveyed has declarations behind a statement only where it is not looked at. -/
theorem Survey.Gathers.exists_overlooks {catalog : Catalog} {s s' : Symbols} {es : List Element}
    {lead : Token} (hg : Gathers catalog s es s')
    (hc : ∀ instruction ∈ catalog.instructions, instruction.PicksNoDeclaration)
    (hm : .clause lead (before ++ t :: behind) ∈ es) (ht : t.kind.isDeclaration = true) :
    ∃ instruction, catalog.find? lead.kind = some instruction ∧
      instruction.overlooks before = true := by
  induction hg with
  | done => cases hm
  | declare _ ih => exact ih (by simpa using hm)
  | close _ ih => exact ih (by simpa using hm)
  | @clause _ _ _ _ args slots instruction _ hl ha hw hd _ ih =>
    rcases List.mem_cons.mp hm with he | hm
    · cases he
      obtain ⟨front, hfront, rfl⟩ := Instruction.exists_arranged_of_append
        (hc _ (List.mem_of_find?_eq_some hl)) ht ha
      obtain ⟨slot, later, hdrop, hslot, hlater⟩ := Slot.exists_drop_of_declaration hd ht hw
      refine ⟨instruction, hl, ?_⟩
      simp [Instruction.overlooks, Instruction.slotsBehind, hfront, hdrop, hslot, hlater]
    · exact ih hm

/-- Behind declarations and ends of routines the rest of a line is a clause. -/
theorem Element.clause_mem_ofLine {front operands : List Token} {lead : Token}
    (hf : ∀ u ∈ front, u.kind.isDeclaration = true ∨ u.kind = .endRoutine)
    (hl : lead.kind.leads = true) :
    clause lead operands ∈ ofLine (front ++ lead :: operands) := by
  induction front with
  | nil =>
    rw [List.nil_append, ofLine_of_leads hl]
    exact List.mem_singleton_self _
  | cons u front ih =>
    obtain ⟨hu, hf⟩ := List.forall_mem_cons.mp hf
    have hkind : u.kind = .label ∨ u.kind = .routine ∨ u.kind = .endRoutine := by
      cases hk : u.kind <;> simp_all [TokenKind.isDeclaration]
    rcases hkind with hk | hk | hk <;>
    · simp only [List.cons_append, ofLine, hk]
      exact List.mem_cons_of_mem _ (ih hf)

end Overlooked

private theorem Catalog.standard_leads {kind : TokenKind} {instruction : Instruction}
    (h : standard.find? kind = some instruction) : kind.leads = true := by
  have hall : ∀ instruction ∈ standard.instructions, instruction.token.leads = true := by decide
  rw [← token_of_find? h]
  exact hall _ (List.mem_of_find?_eq_some h)

/-- A declaration that stands behind a statement on its line is refused by a survey, unless it
stands where the survey does not look: in a slot that is not written, before one that is. The
statements with such slots are listed. A text with such a declaration cannot be assembled in any
case. -/
theorem late_declaration_refused_or_overlooked (text : String)
    (ts front before behind : List Token) (lead t : Token) (instruction : Instruction)
    (hscan : Lexeme.scan text = ts.map .token)
    (hline : front ++ lead :: (before ++ t :: behind) ∈ tokenLines ts)
    (hfront : ∀ u ∈ front, u.kind.isDeclaration = true ∨ u.kind = .endRoutine)
    (hlead : Catalog.standard.find? lead.kind = some instruction)
    (ht : t.kind.isDeclaration = true) :
    (instruction.overlooks before = false → ∃ f, Symbols.survey .standard text = .error f) ∧
    (∃ f, Assembly.ofText text = .error f) ∧
    (Catalog.standard.instructions.flatMap Instruction.overlooked).filter (·.2 ≠ []) =
      [(["radar"], ["turret", "prop1", "prop2", "prop3", "order"]),
       (["ucontrol", "getBlock"], ["x", "y"]), (["ucontrol", "within"], ["x", "y", "radius"]),
       (["uradar"], ["a", "b", "c", "sort", "unused", "order"]), (["ulocate", "ore"], ["ore"]),
       (["ulocate", "building"], ["type", "enemy"]), (["op"], ["op"])] := by
  have hclause : .clause lead (before ++ t :: behind) ∈ outline ts := by
    refine List.mem_flatMap.mpr ⟨_, hline, ?_⟩
    exact Element.clause_mem_ofLine hfront (Catalog.standard_leads hlead)
  refine ⟨fun ho ↦ ?_, ?_, by decide⟩
  · cases hs : Symbols.survey .standard text with
    | error f => exact ⟨f, rfl⟩
    | ok symbols =>
      obtain ⟨-, hg⟩ := Symbols.survey_eq_ok_iff.mp hs
      rw [elements_of_scan hscan] at hg
      obtain ⟨found, hfound, hoverlooks⟩ :=
        hg.exists_overlooks Catalog.standard_picksNoDeclaration hclause ht
      rw [hlead] at hfound
      cases hfound
      rw [ho] at hoverlooks
      cases hoverlooks
  · cases ha : Assembly.ofText text with
    | error f => exact ⟨f, rfl⟩
    | ok a =>
      have hno := Assembly.noLateDeclaration ha hscan _ _ hclause t (by simp)
      rw [ht] at hno
      cases hno

/-- Behind its other operands a computation takes no declaration. -/
theorem late_declaration_refused_or_overlooked_behind :
    (Instruction.control .compute).overlooks
        [⟨.operator, "add", 1, 6⟩, ⟨.name, "x", 1, 10⟩, ⟨.int, "1", 1, 12⟩] = false ∧
      (∃ f, Symbols.survey .standard "r: op add x 1 l:\n" = .error f) ∧
      ∃ f, Assembly.ofText "r: op add x 1 l:\n" = .error f := by
  have hover : (Instruction.control .compute).overlooks
      [⟨.operator, "add", 1, 6⟩, ⟨.name, "x", 1, 10⟩, ⟨.int, "1", 1, 12⟩] = false := by decide
  have h := late_declaration_refused_or_overlooked "r: op add x 1 l:\n"
    [⟨.label, "r", 1, 0⟩, ⟨.keyword "OP", "op", 1, 3⟩, ⟨.operator, "add", 1, 6⟩,
      ⟨.name, "x", 1, 10⟩, ⟨.int, "1", 1, 12⟩, ⟨.label, "l", 1, 14⟩, ⟨.newline, "\n", 1, 16⟩]
    [⟨.label, "r", 1, 0⟩] [⟨.operator, "add", 1, 6⟩, ⟨.name, "x", 1, 10⟩, ⟨.int, "1", 1, 12⟩] []
    ⟨.keyword "OP", "op", 1, 3⟩ ⟨.label, "l", 1, 14⟩ (.control .compute)
    (by decide +kernel) (by decide +kernel) (by decide) (by decide) (by decide)
  exact ⟨hover, h.1 hover, h.2.1⟩

/-- A survey does not refuse every declaration behind a statement: in the place of the operator of a
computation one is lost. -/
theorem not_every_late_declaration_refused :
    ¬ ∀ (text : String) (ts front before behind : List Token) (lead t : Token)
        (instruction : Instruction),
      Lexeme.scan text = ts.map .token →
      front ++ lead :: (before ++ t :: behind) ∈ tokenLines ts →
      (∀ u ∈ front, u.kind.isDeclaration = true ∨ u.kind = .endRoutine) →
      Catalog.standard.find? lead.kind = some instruction → t.kind.isDeclaration = true →
      ∃ f, Symbols.survey .standard text = .error f := by
  intro h
  have hok : Symbols.survey .standard "op l: x 1\n" = .ok ⟨.empty, .empty, ["x"], 1, []⟩ := by
    decide +kernel
  obtain ⟨f, hf⟩ := h "op l: x 1\n"
    [⟨.keyword "OP", "op", 1, 0⟩, ⟨.label, "l", 1, 3⟩, ⟨.name, "x", 1, 6⟩, ⟨.int, "1", 1, 8⟩,
      ⟨.newline, "\n", 1, 9⟩]
    [] [] [⟨.name, "x", 1, 6⟩, ⟨.int, "1", 1, 8⟩] ⟨.keyword "OP", "op", 1, 0⟩
    ⟨.label, "l", 1, 3⟩ (.control .compute)
    (by decide +kernel) (by decide +kernel) (by decide) (by decide) (by decide)
  rw [hok] at hf
  cases hf

end MlogAsm
