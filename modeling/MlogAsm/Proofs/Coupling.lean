import MlogAsm.Proofs.Lockstep
import MlogAsm.Proofs.ProgramCode

/-!
# Couplings

Two texts that are read in the same steps. A coupling says which places of them, which of their
words and which of their faults belong together, and what has to hold of that: nothing but what the
next word of both is. From these few laws it follows for every reader that both runs of it stay
together.

Words that name a label may differ, so a coupling knows where on a line they stand.
-/

namespace MlogAsm

/-- Where on a line a word stands. -/
inductive LinePlace where
  /-- Behind nothing but declarations and ends of routines. -/
  | front
  /-- Right behind the word that leads a jump to a label. -/
  | target
  /-- Anywhere else. -/
  | inside
  deriving DecidableEq, Repr

/-- A word of this kind leads a jump to a label. -/
def TokenKind.jumps (kind : TokenKind) : Bool :=
  kind == .keyword "JUMP" || kind == .keyword "GOTO"

namespace LinePlace

/-- The place behind a word of a kind. -/
def after (place : LinePlace) (kind : TokenKind) : LinePlace :=
  if kind = .newline then front
  else if place = front then
    if kind.jumps then target else if kind.leads then inside else front
  else inside

/-- A word of a kind is the name of a label: where it declares one, and where a jump goes to it. -/
def namesLabel (place : LinePlace) (kind : TokenKind) : Bool :=
  kind == .label || place == target && kind == .name

theorem after_inside {kind : TokenKind} (h : kind ≠ .newline) : inside.after kind = inside := by
  rw [after, if_neg h, if_neg (by decide)]

private theorem after_name (place : LinePlace) : place.after .name = inside := by
  cases place <;> rfl

theorem after_ne_front {kind : TokenKind} (h : kind.leads = true) : front.after kind ≠ front := by
  rw [after, if_neg (TokenKind.ne_newline_of_leads h), if_pos rfl]
  split
  · decide
  · decide

/-- The word that leads a statement names no label. -/
theorem namesLabel_front {kind : TokenKind} (h : kind.leads = true) :
    front.namesLabel kind = false := by
  cases kind <;> first | rfl | cases h

/-- Inside a statement only labels name a label. -/
private theorem namesLabel_inside {kind : TokenKind} (h : kind ≠ .label) :
    inside.namesLabel kind = false := by
  simp [namesLabel, h]

end LinePlace

/-- The place behind the word that leads an instruction. -/
def Instruction.place : Instruction → LinePlace
  | control c => if c.form = .jump ∨ c.form = .goto then .target else .inside
  | _ => .inside

theorem Instruction.place_ne_front (i : Instruction) : i.place ≠ .front := by
  cases i with
  | operation op => exact nofun
  | group g => exact nofun
  | control c =>
    simp only [place]
    split <;> decide

/-- The jumps to labels are led by the words behind which the name of a label is expected. -/
def Catalog.PlacesTargets (catalog : Catalog) : Prop :=
  ∀ instruction ∈ catalog.instructions,
    LinePlace.front.after instruction.token = instruction.place

private theorem Catalog.standard_placesTargets : standard.PlacesTargets := by
  unfold PlacesTargets
  decide

/-- A complete catalog whose jumps are led by the usual words. -/
structure Catalog.WellMade (catalog : Catalog) : Prop extends catalog.Complete where
  placesTargets : catalog.PlacesTargets

/-- The processor language is well made. -/
theorem Catalog.standard_wellMade : standard.WellMade where
  toComplete := standard_complete
  placesTargets := standard_placesTargets

/-- Which cursors, tokens and faults of two runs belong together. -/
structure Sides where
  /-- The second text stands so many lines further down. -/
  lines : Nat
  /-- The words are the same in both texts. -/
  verbatim : Prop
  /-- Where the first run fails, the second one may do anything. -/
  lenient : Prop
  /-- The cursors at a place of a line. -/
  Cursors : LinePlace → Cursor → Cursor → Prop
  /-- The tokens at a place of a line. -/
  Tokens : LinePlace → Token → Token → Prop
  Faults : Fault → Fault → Prop

namespace Sides

variable (S : Sides)

/-- Two steps stay together. -/
abbrev Together {σ τ α β : Type} (P : σ → τ → Prop) (Q : α → β → σ → τ → Prop)
    (m : EStateM Fault σ α) (n : EStateM Fault τ β) : Prop :=
  Lockstep S.lenient S.Faults P Q m n

/-- A cause as it shows in the second run: the same, or at least one of the same category. -/
structure SameCause (cause cause' : Cause) : Prop where
  category_eq : cause'.category = cause.category
  eq_of_verbatim : S.verbatim → cause' = cause

theorem SameCause.refl (cause : Cause) : S.SameCause cause cause :=
  ⟨rfl, fun _ ↦ rfl⟩

/-- Both runs have pulled a word. -/
structure Word (place : LinePlace) (t u : Token) (c d : Cursor) : Prop where
  tokens : S.Tokens place t u
  line_eq : d.line = c.line + S.lines
  cursors : S.Cursors (place.after t.kind) c d

/-- The first run has met the end of the text, and the second one has pulled `last`: nothing, or one
more line end. What is met there is met in both. -/
structure Ended (last : Option Token) (c d : Cursor) : Prop where
  isLineEnd : ∀ u ∈ last, u.kind = .newline
  rest_eq : d.rest = []
  cursors : S.Cursors .front c d
  faults : ∀ {cause cause' : Cause} {hint : Option Hint}, cause'.category = cause.category →
    (last = none → S.verbatim → cause' = cause) →
      S.Faults ⟨cause, none, hint⟩ ⟨cause', last.map fun _ ↦ d.line, hint⟩

/-- What both runs have pulled. -/
inductive Pulled (place : LinePlace) :
    Option Token → Option Token → Cursor → Cursor → Prop where
  | word {t u : Token} {c d : Cursor} (h : S.Word place t u c d) :
      Pulled place (some t) (some u) c d
  | ended {last : Option Token} {c d : Cursor} (h : S.Ended last c d) : Pulled place none last c d

/-- Two names are resolved to the same index, or both are not resolved. -/
inductive Resolved : Except Cause Int → Except Cause Int → Prop where
  | ok (index : Int) : Resolved (.ok index) (.ok index)
  | error {cause cause' : Cause} (h : S.SameCause cause cause') :
      Resolved (.error cause) (.error cause')
  | excused {cause : Cause} {y : Except Cause Int} (h : S.lenient) : Resolved (.error cause) y

/-- The symbols of two programs know the same, as far as an emission asks. -/
structure Knows (s t : Symbols) : Prop where
  vars : ∀ name ∈ s.vars, name ∈ t.vars
  noOtherVars : ∀ name ∈ t.vars, name ∈ s.vars ∨ S.lenient
  label : ∀ {a b : Token}, S.Tokens .target a b → a.kind = .name →
    S.Resolved (s.labelIndex a.value) (t.labelIndex b.value)
  routine : ∀ name, S.Resolved (s.routineIndex name) (t.routineIndex name)

/-- What two statements depend on. The first has its notes, the second may go without. -/
structure Contexts (ctx ctx' : Context) : Prop where
  knows : S.Knows ctx.symbols ctx'.symbols
  debug : ctx.debug = true
  routine_eq : ctx'.routine = ctx.routine
  emitted_eq : ctx'.emitted = ctx.emitted

end Sides

/-- Two texts that are read in the same steps. -/
structure Coupling extends Sides where
  kind_eq : ∀ {place t u}, Tokens place t u → u.kind = t.kind
  value_eq : ∀ {place t u}, Tokens place t u → verbatim ∨ place.namesLabel t.kind = false →
    u.value = t.value
  line_eq : ∀ {place c d}, Cursors place c d → place ≠ .front → d.line = c.line + lines
  atLineEnd_eq : ∀ {place c d}, Cursors place c d → d.atLineEnd = c.atLineEnd
  front : ∀ {place c d}, Cursors place c d → c.atLineEnd = true → Cursors .front c d
  /-- Inside a line the next word is the same. -/
  next : ∀ {place c d}, Cursors place c d → (place = .front → c.atLineEnd = false) →
    Matched lenient Faults (toSides.Pulled place) (Reader.next c) (Reader.next d)
  onLine : ∀ {cause cause' line hint}, toSides.SameCause cause cause' →
    Faults ⟨cause, some line, hint⟩ ⟨cause', some (line + lines), hint⟩
  withDefinition : ∀ {f g} (definition : String), Faults f g →
    Faults (f.withDefinition definition) (g.withDefinition definition)

namespace Coupling

/-- Both runs stand at the same place of a line. -/
def Somewhere (C : Coupling) (c d : Cursor) : Prop :=
  ∃ place, C.Cursors place c d

/-- It does not matter where inside a statement the runs stand. -/
def Uniform (C : Coupling) : Prop :=
  ∀ {place other c d}, C.Cursors place c d → place ≠ .front → other ≠ .front → C.Cursors other c d

/-- It does not matter where on a line the runs stand. They can read on behind it. -/
structure Steady (C : Coupling) : Prop where
  cursors : ∀ {place other c d}, C.Cursors place c d → C.Cursors other c d
  noCode : C.Faults ⟨.noCode, none, none⟩ ⟨.noCode, none, none⟩

theorem Steady.line_eq {C : Coupling} (h : C.Steady) {place : LinePlace} {c d : Cursor}
    (hcd : C.Cursors place c d) : d.line = c.line + C.lines := by
  have hinside : C.Cursors .inside c d := h.cursors hcd
  exact C.line_eq hinside (by decide)

/-- A cause about a word, whatever it says of the word. -/
theorem sameCause_describe {C : Coupling} {place : LinePlace} {t u : Token}
    (h : C.Tokens place t u) (cause : String → Cause)
    (hc : ∀ found found', (cause found).category = (cause found').category) :
    C.SameCause (cause t.describe) (cause u.describe) where
  category_eq := hc _ _
  eq_of_verbatim hv := by
    unfold Token.describe
    rw [C.kind_eq h, C.value_eq h (.inl hv)]

end Coupling

section Readers

variable {C : Coupling} {place : LinePlace} {c d : Cursor} {catalog : Catalog}

namespace Reader

variable {α β : Type}

theorem coupled_fail {cause cause' : Cause} (h : C.SameCause cause cause')
    (hline : d.line = c.line + C.lines) {Q : α → β → Cursor → Cursor → Prop} :
    Matched C.lenient C.Faults Q (fail cause c) (fail cause' d) := by
  rw [fail_eq, fail_eq, hline]
  exact .error (C.onLine h)

/-- The next word is followed by steps for the word, and the end of the text by steps for what
stands there in both. -/
private theorem coupled_next_bind (hp : place ≠ .front) {R : α → β → Cursor → Cursor → Prop}
    {f : Option Token → Reader α} {g : Option Token → Reader β}
    (hword : ∀ t u, C.Together (C.Word place t u) R (f (some t)) (g (some u)))
    (hended : ∀ last, C.Together (C.Ended last) R (f none) (g last)) :
    C.Together (C.Cursors place) R (next >>= f) (next >>= g) := by
  have hnext : C.Together (C.Cursors place) (C.Pulled place) next next :=
    fun c d h ↦ C.next h fun hfront ↦ absurd hfront hp
  refine hnext.bind fun a b c d h ↦ ?_
  cases h with
  | word h => exact hword _ _ c d h
  | ended h => exact hended _ c d h

/-- A fault that is blamed on the last pull is met in both runs. -/
private theorem coupled_blame {token token' : Option Token} (h : C.Pulled place token token' c d)
    (cause : String → Cause)
    (hc : ∀ found found', (cause found).category = (cause found').category) (hint : Option Hint)
    {Q : α → β → Cursor → Cursor → Prop} :
    Matched C.lenient C.Faults Q
      ((lineOf token >>= fun line ↦ throw ⟨cause (Token.describe? token), line, hint⟩) c)
      ((lineOf token' >>= fun line ↦ throw ⟨cause (Token.describe? token'), line, hint⟩) d) := by
  change Matched _ _ _ (.error ⟨_, token.map fun _ ↦ c.line, hint⟩ c)
    (.error ⟨_, token'.map fun _ ↦ d.line, hint⟩ d)
  cases h with
  | word h =>
    rw [Option.map_some, Option.map_some, h.line_eq]
    exact .error (C.onLine (C.sameCause_describe h.tokens cause hc))
  | ended h => exact .error (h.faults (hc _ _) fun hnone _ ↦ by rw [hnone])

private theorem coupled_describing {P : Cursor → Cursor → Prop} {Q : α → β → Cursor → Cursor → Prop}
    {m : Reader α} {n : Reader β} (h : C.Together P Q m n) (definition : String) :
    C.Together P Q (describing definition m) (describing definition n) := by
  intro c d hcd
  have hmn := h c d hcd
  unfold describing
  generalize m c = x, n d = y at hmn ⊢
  cases hmn with
  | ok hq => exact .ok hq
  | error he => exact .error (C.withDefinition definition he)
  | excused he => exact .excused he

theorem coupled_resolve {x y : Except Cause Int} (h : C.Resolved x y) :
    C.Together (C.Cursors .inside) (fun a b c d ↦ b = a ∧ C.Cursors .inside c d)
      (resolve x) (resolve y) := by
  intro c d hcd
  cases h with
  | ok index => exact .ok ⟨rfl, hcd⟩
  | error h => exact coupled_fail h (C.line_eq hcd (by decide))
  | excused h => exact .excused h

/-- A line that is over in one run is over in the other, and its end is pulled in both. -/
theorem coupled_endLine :
    C.Together C.Somewhere (fun _ _ ↦ C.Cursors .front) endLine endLine := by
  rintro c d ⟨place, h⟩
  rw [endLine_eq_bind]
  dsimp only
  rw [C.atLineEnd_eq h]
  cases hc : c.atLineEnd with
  | true => exact .ok (C.front h hc)
  | false =>
    have hnext : C.Together (fun c' d' ↦ c' = c ∧ d' = d) (C.Pulled place) next next := by
      rintro _ _ ⟨rfl, rfl⟩
      exact C.next h fun _ ↦ hc
    refine hnext.bind (fun a b c d hpulled ↦ ?_) c d ⟨rfl, rfl⟩
    cases hpulled with
    | @word t u _ _ h =>
      have hcursors := h.cursors
      dsimp only [Option.elim]
      rw [C.kind_eq h.tokens]
      split
      · next hk =>
        rw [hk] at hcursors
        exact .ok hcursors
      · exact coupled_fail (C.sameCause_describe h.tokens _ fun _ _ ↦ rfl) h.line_eq
    | ended h =>
      cases b with
      | none => exact .ok h.cursors
      | some u =>
        dsimp only [Option.elim]
        rw [if_pos (h.isLineEnd u rfl)]
        exact .ok h.cursors

/-- The rest of a line is passed over in both runs. -/
theorem coupled_skipLine :
    C.Together C.Somewhere (fun _ _ ↦ C.Cursors .front) skipLine skipLine := by
  rintro c d ⟨place, h⟩
  induction hlen : c.rest.length using Nat.strongRecOn generalizing c d place with
  | ind n ih =>
    subst hlen
    cases hc : c.atLineEnd with
    | true =>
      rw [skipLine_of_atLineEnd hc, skipLine_of_atLineEnd ((C.atLineEnd_eq h).trans hc)]
      exact .ok (C.front h hc)
    | false =>
      have hnext := C.next h fun _ ↦ hc
      rw [skipLine_of_inside hc, skipLine_of_inside ((C.atLineEnd_eq h).trans hc)]
      generalize hx : next c = x, hy : next d = y at hnext ⊢
      cases hnext with
      | error he => exact .error he
      | excused he => exact .excused he
      | @ok _ b _ d' hpulled =>
        cases hpulled with
        | word h =>
          dsimp only
          rw [C.kind_eq h.tokens]
          split
          · exact coupled_fail (C.sameCause_describe h.tokens _ fun _ _ ↦ rfl) h.line_eq
          · exact ih _ (length_rest_lt_of_next hx) _ _ _ h.cursors rfl
        | ended h =>
          cases b with
          | none => exact .ok h.cursors
          | some u =>
            have hk := h.isLineEnd u rfl
            have hd : d'.atLineEnd = true := by
              obtain ⟨rest, -, rfl⟩ := next_eq_ok_some_iff.mp hy
              simp [Cursor.past, hk]
            dsimp only
            rw [hk, if_neg (by decide), skipLine_of_atLineEnd hd]
            exact .ok h.cursors

end Reader

namespace Slot

variable {s t : Symbols}

/-- A token that fits with some variables fits with others, if its name is one of them too. -/
private theorem accepts_of_mem_imp {slot : Slot} {vars vars' : List String} {kind : TokenKind}
    {value : String} (h : value ∈ vars → value ∈ vars')
    (ha : slot.accepts vars kind value = true) : slot.accepts vars' kind value = true := by
  unfold accepts at ha ⊢
  split
  · next ho => rwa [if_pos ho] at ha
  · next ho =>
    rw [if_neg ho] at ha
    split
    · rfl
    · simp only [Bool.or_eq_true, List.contains_iff_mem] at ha ⊢
      exact ha.imp_left h
    · next hs hn => simpa only using ha

/-- No slot takes a label. -/
private theorem accepts_label (slot : Slot) (vars : List String) (value : String) :
    slot.accepts vars .label value = false := by
  unfold accepts
  split
  · rfl
  · cases slot.kind <;> rfl

/-- An operand is read in both runs. Only one that may be left out takes the end of the line. -/
theorem coupled_read (hst : C.Knows s t) (slot : Slot) :
    C.Together (C.Cursors .inside)
      (fun a b c d ↦ b = a ∧
        (C.Cursors .inside c d ∨ slot.optional = true ∧ C.Cursors .front c d))
      (slot.read s.vars) (slot.read t.vars) := by
  refine Reader.coupled_next_bind (by decide) (fun a b c d h ↦ ?_) fun last c d h ↦ ?_
  · have hcursors := h.cursors
    have hmisfit := C.sameCause_describe h.tokens (.misfitOperand slot.kind.describe) fun _ _ ↦ rfl
    dsimp only
    rw [C.kind_eq h.tokens]
    split
    · next hk =>
      rw [hk.1] at hcursors
      exact .ok ⟨rfl, .inr ⟨hk.2, hcursors⟩⟩
    · by_cases hl : a.kind = .label
      · rw [hl, accepts_label, accepts_label, if_neg (by decide), if_neg (by decide)]
        exact Reader.coupled_fail hmisfit h.line_eq
      · have hvalue := C.value_eq h.tokens (.inr (LinePlace.namesLabel_inside hl))
        by_cases ha : slot.accepts s.vars a.kind a.value = true
        · have hk : a.kind ≠ .newline := by
            intro hk
            rw [hk, accepts_newline] at ha
            cases ha
          rw [LinePlace.after_inside hk] at hcursors
          rw [hvalue, if_pos ha, if_pos (accepts_of_mem_imp (hst.vars _) ha)]
          exact .ok ⟨rfl, .inl hcursors⟩
        · by_cases hlenient : C.lenient
          · rw [if_neg ha]
            exact .excused hlenient
          · have hb : ¬ slot.accepts t.vars a.kind a.value = true := fun hb ↦
              ha (accepts_of_mem_imp
                (fun hm ↦ (hst.noOtherVars _ hm).resolve_right hlenient) hb)
            rw [hvalue, if_neg ha, if_neg hb]
            exact Reader.coupled_fail hmisfit h.line_eq
  · dsimp only
    by_cases ho : slot.optional = true
    · rw [if_pos ho]
      cases last with
      | none => exact .ok ⟨rfl, .inr ⟨ho, h.cursors⟩⟩
      | some u =>
        dsimp only
        rw [if_pos ⟨h.isLineEnd u rfl, ho⟩]
        exact .ok ⟨rfl, .inr ⟨ho, h.cursors⟩⟩
    · rw [if_neg ho]
      cases last with
      | none => exact .error (h.faults rfl fun _ _ ↦ rfl)
      | some u =>
        dsimp only
        rw [if_neg (by simp [ho]), h.isLineEnd u rfl, accepts_newline, if_neg (by decide)]
        exact .error (h.faults rfl nofun)

/-- The operands of a statement are read in both runs. -/
private theorem coupled_readEach (hst : C.Knows s t) {slots : List Slot}
    (ho : C.Steady ∨ OnlyLastOptional slots) :
    C.Together (C.Cursors .inside) (fun a b c d ↦ b = a ∧ C.Somewhere c d)
      (readEach s.vars slots) (readEach t.vars slots) := by
  induction slots with
  | nil => exact .pure fun c d h ↦ ⟨rfl, _, h⟩
  | cons slot slots ih =>
    have hrest (operand : Option String) :=
      (ih (ho.imp_right fun ho ↦ ho.tail)).bind (R := fun a b c d ↦ b = a ∧ C.Somewhere c d)
        (f := fun operands ↦ pure (operand.toList ++ operands))
        (g := fun operands ↦ pure (operand.toList ++ operands)) fun operands operands' ↦
          .pure fun c d h ↦ ⟨by rw [h.1], h.2⟩
    refine (coupled_read hst slot).bind fun a b ↦ ?_
    rintro c d ⟨rfl, h | ⟨hopt, h⟩⟩
    · exact hrest b c d h
    · rcases ho with hsteady | ho
      · exact hrest b c d (hsteady.cursors h)
      · -- Nothing is read behind an operand that was left out.
        rw [ho.eq_nil hopt]
        exact .ok ⟨rfl, _, h⟩

theorem coupled_readAll (hst : C.Knows s t) (definition : String) {slots : List Slot}
    (ho : C.Steady ∨ OnlyLastOptional slots) :
    C.Together (C.Cursors .inside) (fun a b c d ↦ b = a ∧ C.Somewhere c d)
      (readAll s.vars definition slots) (readAll t.vars definition slots) :=
  Reader.coupled_describing (coupled_readEach hst ho) definition

end Slot

theorem Operation.coupled_emit {s t : Symbols} (hst : C.Knows s t) {op : Operation}
    (ho : C.Steady ∨ Slot.OnlyLastOptional op.args) :
    C.Together (C.Cursors .inside) (fun a b c d ↦ b = a ∧ C.Somewhere c d)
      (op.emit s.vars) (op.emit t.vars) :=
  (Slot.coupled_readAll hst op.definition ho).bind fun a b ↦ .pure fun c d h ↦
    ⟨by rw [h.1], h.2⟩

/-- A member of a group is picked by the same word. -/
theorem OperationGroup.coupled_select (group : OperationGroup) :
    C.Together (C.Cursors .inside)
      (fun a b c d ↦ b = a ∧ (∃ kind, group.member? kind = some a) ∧ C.Cursors .inside c d)
      group.select group.select := by
  refine Reader.coupled_next_bind (by decide) (fun t u c d h ↦ ?_) fun last c d h ↦ ?_
  · have hcursors := h.cursors
    dsimp only
    rw [C.kind_eq h.tokens]
    split
    · exact Reader.coupled_fail (.refl _ _) h.line_eq
    · next hk =>
      rw [LinePlace.after_inside hk] at hcursors
      cases hm : group.member? t.kind with
      | some member => exact .ok ⟨rfl, ⟨t.kind, hm⟩, hcursors⟩
      | none =>
        change Matched _ _ _ (.error ⟨_, some c.line, _⟩ c) (.error ⟨_, some d.line, _⟩ d)
        rw [h.line_eq]
        exact .error (C.onLine (C.sameCause_describe h.tokens (.unknownMember · group.name)
          fun _ _ ↦ rfl))
  · cases last with
    | none => exact .error (h.faults rfl fun _ _ ↦ rfl)
    | some u =>
      dsimp only
      rw [if_pos (h.isLineEnd u rfl)]
      exact .error (h.faults rfl nofun)

/-- The slots that a survey looks at are the same. -/
theorem Instruction.coupled_layout {i : Instruction} (h : C.Uniform ∨ i.OwnOperands) :
    C.Together (C.Cursors i.place)
      (fun a b c d ↦ b = a ∧ (C.Cursors .inside c d ∨ a = [] ∧ C.Somewhere c d))
      i.layout i.layout := by
  cases i with
  | operation op => exact .pure fun c d h ↦ ⟨rfl, .inl h⟩
  | group g =>
    exact g.coupled_select.bind fun a b ↦ .pure fun c d h ↦ ⟨by rw [h.1], .inl h.2.2⟩
  | control control =>
    refine .pure fun c d hcd ↦ ⟨rfl, ?_⟩
    rcases h with huniform | hform | hslots
    · exact .inl (huniform hcd (place_ne_front _) (by decide))
    · simp only [place, hform, reduceCtorEq, or_self, if_false] at hcd
      exact .inl hcd
    · exact .inr ⟨hslots, _, hcd⟩

namespace Control

/-- The name behind a word that leads a jump or a call is read in both runs. -/
theorem coupled_readName (hp : place ≠ .front) (control : Control) (what : String) :
    C.Together (C.Cursors place)
      (fun a b c d ↦ (∃ t u, C.Tokens place t u ∧ t.kind = .name ∧ a = t.value ∧ b = u.value) ∧
        C.Cursors .inside c d)
      (control.readName what) (control.readName what) := by
  refine Reader.coupled_next_bind hp (fun t u c d h ↦ ?_) fun last c d h ↦ ?_
  · have hkind := C.kind_eq h.tokens
    have hcursors := h.cursors
    by_cases hk : t.kind = .name
    · rw [hk, LinePlace.after_name] at hcursors
      simp only [Option.filter, hk, hkind.trans hk, beq_self_eq_true, if_true]
      exact .ok ⟨⟨t, u, h.tokens, hk, rfl, rfl⟩, hcursors⟩
    · have hk' : u.kind ≠ .name := by rwa [hkind]
      simp only [Option.filter, beq_eq_false_iff_ne.mpr hk, beq_eq_false_iff_ne.mpr hk']
      exact Reader.coupled_blame (.word h) (.expectedName what) (fun _ _ ↦ rfl) _
  · have hnone : last.filter (·.kind == .name) = none := by
      refine Option.filter_eq_none_iff.mpr fun u hu ↦ ?_
      rw [h.isLineEnd u hu]
      decide
    rw [hnone]
    have hpulled : C.Pulled place none last c d := .ended h
    exact Reader.coupled_blame hpulled (.expectedName what) (fun _ _ ↦ rfl) _

theorem coupled_readCondition {s t : Symbols} (hst : C.Knows s t) (control : Control) :
    C.Together (C.Cursors .inside) (fun a b c d ↦ b = a ∧ C.Somewhere c d)
      (control.readCondition s.vars) (control.readCondition t.vars) := by
  rw [readCondition_eq_bind, readCondition_eq_bind]
  refine Reader.coupled_next_bind (by decide) (fun t u c d h ↦ ?_) fun last c d h ↦ ?_
  · have hcursors := h.cursors
    simp only [Option.any_some, C.kind_eq h.tokens]
    split
    · next hk =>
      have hk : t.kind = .operator := by simpa using hk
      have hvalue := C.value_eq h.tokens (.inr (by rw [hk]; rfl))
      rw [hk, LinePlace.after_inside (by decide)] at hcursors
      refine (Slot.coupled_readAll hst control.definition (.inr (by decide))).bind
        (fun operands operands' ↦ .pure fun c d h ↦ ?_) c d hcursors
      exact ⟨by rw [h.1, Option.elim_some, Option.elim_some, hvalue], h.2⟩
    · split
      · exact .ok ⟨rfl, _, hcursors⟩
      · exact Reader.coupled_blame (.word h) .expectedComparison (fun _ _ ↦ rfl) _
  · have hnone (kind : TokenKind) (hk : kind ≠ .newline) : last.any (·.kind == kind) = false := by
      cases last with
      | none => rfl
      | some u => simpa [h.isLineEnd u rfl] using hk.symm
    simp only [hnone _ (show TokenKind.operator ≠ .newline by decide),
      hnone _ (show TokenKind.always ≠ .newline by decide), Option.any_none]
    have hpulled : C.Pulled .inside none last c d := .ended h
    exact Reader.coupled_blame hpulled .expectedComparison (fun _ _ ↦ rfl) _

end Control
end Readers

end MlogAsm
