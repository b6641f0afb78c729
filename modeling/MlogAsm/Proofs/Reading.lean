import MlogAsm.Emission
import MlogAsm.Proofs.Grammar

/-!
# Successful readings

What is known of the text after a reader has succeeded: how its tokens were read, and where the
cursor stands. A cursor is `Within` a line while tokens of it are left, or its end, and `Beyond` a
line once the end was taken. An empty slot takes the end of the line with it, so operands can be
read on from the next line; that fails wherever the next line does not begin with a value.
-/

namespace MlogAsm

section Outcome

variable {σ α β : Type} {s t : σ}

/-- Two steps in a row succeed if the first one does, and the second one after it. -/
theorem bind_eq_ok_iff {m : EStateM Fault σ α} {f : α → EStateM Fault σ β} {b : β} :
    (m >>= f) s = .ok b t ↔ ∃ a u, m s = .ok a u ∧ f a u = .ok b t := by
  change EStateM.bind m f s = .ok b t ↔ _
  unfold EStateM.bind
  cases h : m s with
  | ok a u =>
    constructor
    · intro hf
      exact ⟨a, u, rfl, hf⟩
    · rintro ⟨a', u', he, hf⟩
      cases he
      exact hf
  | error f u => simp

@[simp] theorem pure_eq_ok_iff {a b : α} :
    (pure a : EStateM Fault σ α) s = .ok b t ↔ a = b ∧ s = t := by
  change EStateM.Result.ok a s = .ok b t ↔ _
  simp

@[simp] theorem throw_ne_ok (f : Fault) (a : α) :
    (throw f : EStateM Fault σ α) s ≠ .ok a t := by
  change EStateM.Result.error f s ≠ .ok a t
  simp

@[simp] theorem get_eq_ok_iff {u : σ} : (get : EStateM Fault σ σ) s = .ok u t ↔ s = u ∧ s = t := by
  change EStateM.Result.ok s s = .ok u t ↔ _
  simp

end Outcome

/-- The place behind a token. -/
def Cursor.past (t : Token) (rest : List Lexeme) : Cursor :=
  ⟨rest, t.line, t.kind == .newline⟩

namespace Reader

variable {α : Type} {c d : Cursor}

theorem fail_eq (cause : Cause) (c : Cursor) :
    (fail cause : Reader α) c = .error ⟨cause, some c.line, none⟩ c :=
  rfl

@[simp] theorem fail_ne_ok (cause : Cause) (a : α) : (fail cause : Reader α) c ≠ .ok a d := by
  simp [fail, bind_eq_ok_iff]

/-- The end of a line is pulled unless the line is over. -/
theorem endLine_eq_bind :
    endLine = fun c ↦ (if c.atLineEnd then pure () else next >>= fun token ↦
      token.elim (pure ()) fun t ↦
        if t.kind = .newline then pure () else fail (.unexpectedToken t.describe)) c := by
  funext c
  change (if c.atLineEnd then _ else _ : Reader Unit) c = _
  cases c.atLineEnd with
  | true => rfl
  | false =>
    change EStateM.bind next _ c = EStateM.bind next _ c
    unfold EStateM.bind
    cases next c with
    | error f d => rfl
    | ok token d => cases token <;> rfl

/-- The end of the text is met where nothing is left. -/
theorem next_eq_ok_none_iff :
    next c = .ok none d ↔ c.rest = [] ∧ d = { c with atLineEnd := true } := by
  unfold next Cursor.pull
  cases hr : c.rest with
  | nil => simp [eq_comm (a := d)]
  | cons lexeme rest => cases lexeme <;> simp

/-- A token is met where it comes next. -/
theorem next_eq_ok_some_iff {t : Token} :
    next c = .ok (some t) d ↔ ∃ rest, c.rest = .token t :: rest ∧ d = .past t rest := by
  unfold next Cursor.pull
  cases hr : c.rest with
  | nil => simp
  | cons lexeme rest =>
    cases lexeme with
    | token u =>
      simp only [Cursor.past, EStateM.Result.ok.injEq, Option.some.injEq, List.cons.injEq,
        Lexeme.token.injEq]
      constructor
      · rintro ⟨rfl, rfl⟩
        exact ⟨rest, ⟨rfl, rfl⟩, rfl⟩
      · rintro ⟨_, ⟨rfl, rfl⟩, rfl⟩
        exact ⟨rfl, rfl⟩
    | stray ch line pos => simp

/-- A token is met where it is the first of those left. -/
theorem next_of_rest_eq {ts : List Token} {t : Token} (hr : c.rest = ts.map .token)
    (hn : next c = .ok (some t) d) : ∃ us, ts = t :: us ∧ d = .past t (us.map .token) := by
  obtain ⟨tail, ht, rfl⟩ := next_eq_ok_some_iff.mp hn
  rw [hr] at ht
  obtain ⟨u, us, rfl, hu, rfl⟩ := List.map_eq_cons_iff.mp ht
  cases hu
  exact ⟨us, rfl, rfl⟩

@[simp] theorem describing_eq_ok_iff {definition : String} {m : Reader α} {a : α} :
    describing definition m c = .ok a d ↔ m c = .ok a d := by
  unfold describing
  split <;> simp_all

@[simp] theorem resolve_eq_ok_iff {result : Except Cause α} {a : α} :
    resolve result c = .ok a d ↔ result = .ok a ∧ c = d := by
  cases result <;> simp [resolve]

end Reader

namespace Cursor

variable {c : Cursor} {t : Token} {line : List Token}

/-- Some tokens of a line are left, and then its end. -/
structure Within (c : Cursor) (line : List Token) (rest : List Lexeme) : Prop where
  rest_eq : c.rest = line.map .token ++ rest
  plain : ∀ t ∈ line, t.kind ≠ .newline
  ended : LineOver rest
  inside : c.atLineEnd = false

/-- The end of a line was taken, and what is left has an outline. -/
def Beyond (c : Cursor) (es : List Element) : Prop :=
  c.atLineEnd = true ∧ ∃ ts : List Token, c.rest = ts.map .token ∧ outline ts = es

/-- Some tokens of a line are left, or none are and its end may have been taken too. -/
def At (c : Cursor) (line rest : List Token) : Prop :=
  c.Within line (rest.map .token) ∨ line = [] ∧ c.Beyond (outline rest)

theorem Within.next_cons {rest : List Lexeme} (h : c.Within (t :: line) rest) :
    Reader.next c = .ok (some t) (past t (line.map .token ++ rest)) :=
  Reader.next_eq_ok_some_iff.mpr ⟨_, h.rest_eq, rfl⟩

theorem Within.tail {rest : List Lexeme} (h : c.Within (t :: line) rest) :
    (past t (line.map .token ++ rest)).Within line rest where
  rest_eq := rfl
  plain u hu := h.plain u (List.mem_cons_of_mem t hu)
  ended := h.ended
  inside := by simpa [past] using h.plain t List.mem_cons_self

/-- Behind the word that leads a clause, the rest of its line is left. -/
theorem within_past {lead : Token} {rest : List Token} (hl : lead.kind.leads = true)
    (hp : ∀ t ∈ line, t.kind ≠ .newline) (ho : LineOver (rest.map .token)) :
    (past lead ((line ++ rest).map .token)).Within line (rest.map .token) where
  rest_eq := by simp [past]
  plain := hp
  ended := ho
  inside := by simpa [past] using TokenKind.ne_newline_of_leads hl

/-- A token before the tokens that are left is one more of them. -/
theorem Within.cons {tail rest : List Lexeme} (hc : c.atLineEnd = false)
    (hr : c.rest = .token t :: tail) (hk : t.kind ≠ .newline)
    (hw : (past t tail).Within line rest) : c.Within (t :: line) rest where
  rest_eq := by
    rw [hr, List.map_cons, List.cons_append, ← hw.rest_eq]
    rfl
  plain := List.forall_mem_cons.mpr ⟨hk, hw.plain⟩
  ended := hw.ended
  inside := hc

/-- The end of a line comes next where no token of it is left. -/
theorem Within.next_nil {rest : List Token} (h : c.Within [] (rest.map .token)) :
    ∃ d : Cursor, d.Beyond (outline rest) ∧
      (Reader.next c = .ok none d ∨ ∃ t, t.kind = .newline ∧ Reader.next c = .ok (some t) d) := by
  have hc : c.rest = rest.map .token := by simpa using h.rest_eq
  rcases h.ended with hr | ⟨t, tail, hr, ht⟩
  · refine ⟨{ c with atLineEnd := true }, ⟨rfl, rest, hc, rfl⟩, .inl ?_⟩
    exact Reader.next_eq_ok_none_iff.mpr ⟨hc.trans hr, rfl⟩
  · obtain ⟨u, ts, rfl, hu, rfl⟩ := List.map_eq_cons_iff.mp hr
    cases hu
    refine ⟨past t (ts.map .token), ⟨by simp [past, ht], ts, rfl, ?_⟩, .inr ⟨t, ht, ?_⟩⟩
    · rw [outline_newline ht]
    · exact Reader.next_eq_ok_some_iff.mpr ⟨_, hc, rfl⟩

end Cursor

/-- The end of a line is taken only where the line is over. -/
theorem Reader.endLine_eq_ok {c d : Cursor} {line rest : List Token} (hc : c.At line rest)
    (h : endLine c = .ok () d) : line = [] ∧ d.Beyond (outline rest) := by
  unfold endLine at h
  obtain ⟨c', e, hg, h⟩ := bind_eq_ok_iff.mp h
  obtain ⟨rfl, rfl⟩ := get_eq_ok_iff.mp hg
  rcases hc with hw | ⟨rfl, hb⟩
  · rw [if_neg (by simp [hw.inside])] at h
    obtain ⟨token, e, hn, h⟩ := bind_eq_ok_iff.mp h
    cases line with
    | nil =>
      refine ⟨rfl, ?_⟩
      obtain ⟨d', hb, hd | ⟨t, ht, hd⟩⟩ := hw.next_nil
      · rw [hd] at hn
        cases hn
        obtain ⟨-, rfl⟩ := pure_eq_ok_iff.mp h
        exact hb
      · rw [hd] at hn
        cases hn
        simp only [ht, if_true] at h
        obtain ⟨-, rfl⟩ := pure_eq_ok_iff.mp h
        exact hb
    | cons t line =>
      rw [hw.next_cons] at hn
      cases hn
      have ht : t.kind ≠ .newline := hw.plain t List.mem_cons_self
      simp [ht] at h
  · rw [if_pos hb.1] at h
    obtain ⟨-, rfl⟩ := pure_eq_ok_iff.mp h
    exact ⟨rfl, hb⟩

theorem Reader.exists_endLine_eq_ok {c : Cursor} {rest : List Token} (hc : c.At [] rest) :
    ∃ d, endLine c = .ok () d ∧ d.Beyond (outline rest) := by
  rcases hc with hw | ⟨-, hb⟩
  · obtain ⟨d, hb, hn⟩ := hw.next_nil
    refine ⟨d, ?_, hb⟩
    refine bind_eq_ok_iff.mpr ⟨c, c, get_eq_ok_iff.mpr ⟨rfl, rfl⟩, ?_⟩
    rw [if_neg (by simp [hw.inside])]
    rcases hn with hn | ⟨t, ht, hn⟩
    · exact bind_eq_ok_iff.mpr ⟨none, d, hn, by simp⟩
    · exact bind_eq_ok_iff.mpr ⟨some t, d, hn, by simp [ht]⟩
  · refine ⟨c, bind_eq_ok_iff.mpr ⟨c, c, get_eq_ok_iff.mpr ⟨rfl, rfl⟩, ?_⟩, hb⟩
    rw [if_pos hb.1]
    exact pure_eq_ok_iff.mpr ⟨rfl, rfl⟩

namespace Slot

variable {vars : List String} {c d : Cursor}

/-- An operand is read where it fits. An optional slot stays empty at the end of a line. -/
theorem read_eq_ok_iff {slot : Slot} {operand : Option String} :
    slot.read vars c = .ok operand d ↔
      (Reader.next c = .ok none d ∧ slot.optional = true ∧ operand = none) ∨
      ∃ t, Reader.next c = .ok (some t) d ∧
        (t.kind = .newline ∧ slot.optional = true ∧ operand = none ∨
          slot.Fits (· ∈ vars) t ∧ operand = some t.value) := by
  unfold read
  rw [bind_eq_ok_iff]
  constructor
  · rintro ⟨token, e, hn, h⟩
    cases token with
    | none =>
      dsimp only at h
      split at h
      · next ho =>
        obtain ⟨rfl, rfl⟩ := pure_eq_ok_iff.mp h
        exact .inl ⟨hn, ho, rfl⟩
      · simp at h
    | some t =>
      dsimp only at h
      split at h
      · next ho =>
        obtain ⟨rfl, rfl⟩ := pure_eq_ok_iff.mp h
        exact .inr ⟨t, hn, .inl ⟨ho.1, ho.2, rfl⟩⟩
      · split at h
        · next hf =>
          obtain ⟨rfl, rfl⟩ := pure_eq_ok_iff.mp h
          exact .inr ⟨t, hn, .inr ⟨(accepts_iff_fits vars slot t).mp hf, rfl⟩⟩
        · simp at h
  · rintro (⟨hn, ho, rfl⟩ | ⟨t, hn, ⟨hk, ho, rfl⟩ | ⟨hf, rfl⟩⟩)
    · exact ⟨none, d, hn, by simp [ho]⟩
    · exact ⟨some t, d, hn, by simp [hk, ho]⟩
    · have hk : t.kind ≠ .newline := by
        intro hk
        have hv := hf.isValue
        rw [hk] at hv
        cases hv
      have ha := (accepts_iff_fits vars slot t).mpr hf
      exact ⟨some t, d, hn, by simp [hk, ha]⟩

/-- Only an optional slot can be read where no token of the line is left, and it stays empty. -/
private theorem read_within_nil {slot : Slot} {operand : Option String} {rest : List Token}
    (hw : c.Within [] (rest.map .token)) (h : slot.read vars c = .ok operand d) :
    operand = none ∧ slot.optional = true ∧ d.Beyond (outline rest) := by
  obtain ⟨e, hb, he | ⟨t, ht, he⟩⟩ := hw.next_nil
  · rcases read_eq_ok_iff.mp h with ⟨hn, ho, rfl⟩ | ⟨u, hn, -⟩
    · rw [he] at hn
      cases hn
      exact ⟨rfl, ho, hb⟩
    · rw [he] at hn
      cases hn
  · rcases read_eq_ok_iff.mp h with ⟨hn, -⟩ | ⟨u, hn, hu⟩
    · rw [he] at hn
      cases hn
    · rw [he] at hn
      cases hn
      rcases hu with ⟨-, ho, rfl⟩ | ⟨hf, -⟩
      · exact ⟨rfl, ho, hb⟩
      · have hv := hf.isValue
        rw [ht] at hv
        cases hv

theorem readEach_cons_eq_ok_iff {slot : Slot} {slots : List Slot} {operands : List String} :
    readEach vars (slot :: slots) c = .ok operands d ↔
      ∃ operand e rest, slot.read vars c = .ok operand e ∧ readEach vars slots e = .ok rest d ∧
        operands = operand.toList ++ rest := by
  simp only [readEach, bind_eq_ok_iff, pure_eq_ok_iff]
  constructor
  · rintro ⟨operand, e, hr, rest, f, hs, rfl, rfl⟩
    exact ⟨operand, e, rest, hr, hs, rfl⟩
  · rintro ⟨operand, e, rest, hr, hs, rfl⟩
    exact ⟨operand, e, hr, rest, d, hs, rfl, rfl⟩

/-- After the end of a line nothing more is read: a value would have to begin the next line. -/
private theorem readEach_beyond {slots : List Slot} {operands : List String} {es : List Element}
    (hb : c.Beyond es) (hv : NoValueLeads es) (h : readEach vars slots c = .ok operands d) :
    operands = [] ∧ (∀ slot ∈ slots, slot.optional = true) ∧ d.Beyond es := by
  induction slots generalizing c operands with
  | nil =>
    obtain ⟨rfl, rfl⟩ := pure_eq_ok_iff.mp h
    exact ⟨rfl, by simp, hb⟩
  | cons slot slots ih =>
    obtain ⟨operand, e, rest, hr, hs, rfl⟩ := readEach_cons_eq_ok_iff.mp h
    obtain ⟨-, ts, hts, rfl⟩ := hb
    rcases read_eq_ok_iff.mp hr with ⟨hn, ho, rfl⟩ | ⟨t, hn, ⟨hk, ho, rfl⟩ | ⟨hf, -⟩⟩
    · obtain ⟨-, rfl⟩ := Reader.next_eq_ok_none_iff.mp hn
      have he : ({ c with atLineEnd := true } : Cursor).Beyond (outline ts) := ⟨rfl, ts, hts, rfl⟩
      obtain ⟨rfl, hos, hd⟩ := ih he hs
      exact ⟨rfl, List.forall_mem_cons.mpr ⟨ho, hos⟩, hd⟩
    · obtain ⟨us, rfl, rfl⟩ := Reader.next_of_rest_eq hts hn
      have he : (Cursor.past t (us.map .token)).Beyond (outline (t :: us)) :=
        ⟨by simp [Cursor.past, hk], us, rfl, (outline_newline hk us).symm⟩
      obtain ⟨rfl, hos, hd⟩ := ih he hs
      exact ⟨rfl, List.forall_mem_cons.mpr ⟨ho, hos⟩, hd⟩
    · obtain ⟨us, rfl, rfl⟩ := Reader.next_of_rest_eq hts hn
      obtain ⟨line, es, he⟩ := outline_cons_of_leads (TokenKind.leads_of_isValue hf.isValue) us
      have hn := hv t line (by simp [he])
      rw [hf.isValue] at hn
      cases hn

/-- No slot but the last one may stay empty. -/
def OnlyLastOptional (slots : List Slot) : Prop :=
  ∀ slot ∈ slots.dropLast, slot.optional = false

instance (slots : List Slot) : Decidable (OnlyLastOptional slots) :=
  inferInstanceAs (Decidable (∀ slot ∈ slots.dropLast, slot.optional = false))

theorem OnlyLastOptional.tail {slot : Slot} {slots : List Slot}
    (h : OnlyLastOptional (slot :: slots)) : OnlyLastOptional slots := by
  intro s hs
  refine h s ?_
  cases slots with
  | nil => simp at hs
  | cons next slots => exact List.mem_cons_of_mem slot hs

theorem OnlyLastOptional.eq_nil {slot : Slot} {slots : List Slot}
    (h : OnlyLastOptional (slot :: slots)) (ho : slot.optional = true) : slots = [] := by
  cases slots with
  | nil => rfl
  | cons next slots =>
    rw [h slot (by simp)] at ho
    cases ho

/-- Operands that are read fill the slots with the next tokens of the line. An empty slot takes the
end of the line with it, so the next slot must find no value there, unless there is no next slot. -/
theorem readEach_within {slots : List Slot} {operands : List String} {line rest : List Token}
    (hw : c.Within line (rest.map .token))
    (hv : NoValueLeads (outline rest) ∨ OnlyLastOptional slots)
    (h : readEach vars slots c = .ok operands d) :
    ∃ used left, line = used ++ left ∧ Fills (· ∈ vars) slots used ∧
      operands = used.map Token.value ∧ d.At left rest := by
  induction slots generalizing c line operands with
  | nil =>
    obtain ⟨rfl, rfl⟩ := pure_eq_ok_iff.mp h
    exact ⟨[], line, rfl, .empty (by simp), rfl, .inl hw⟩
  | cons slot slots ih =>
    obtain ⟨operand, e, tail, hr, hs, rfl⟩ := readEach_cons_eq_ok_iff.mp h
    cases line with
    | nil =>
      obtain ⟨rfl, ho, hb⟩ := read_within_nil hw hr
      have hend : tail = [] ∧ (∀ slot ∈ slots, slot.optional = true) ∧ d.Beyond (outline rest) := by
        rcases hv with hv | hlast
        · exact readEach_beyond hb hv hs
        · obtain rfl := hlast.eq_nil ho
          obtain ⟨rfl, rfl⟩ := pure_eq_ok_iff.mp hs
          exact ⟨rfl, by simp, hb⟩
      obtain ⟨rfl, hos, hd⟩ := hend
      refine ⟨[], [], rfl, .empty (List.forall_mem_cons.mpr ⟨ho, hos⟩), rfl, .inr ⟨rfl, hd⟩⟩
    | cons t line =>
      rcases read_eq_ok_iff.mp hr with ⟨hn, -⟩ | ⟨u, hn, hu⟩
      · rw [hw.next_cons] at hn
        cases hn
      · rw [hw.next_cons] at hn
        cases hn
        rcases hu with ⟨hk, -⟩ | ⟨hf, rfl⟩
        · exact absurd hk (hw.plain t List.mem_cons_self)
        · obtain ⟨used, left, rfl, hfs, rfl, hd⟩ := ih hw.tail (hv.imp_right .tail) hs
          exact ⟨t :: used, left, rfl, .fill hf hfs, rfl, hd⟩

/-- Tokens that fill the slots and end the line are read. -/
theorem exists_readEach_eq_ok {slots : List Slot} {used rest : List Token}
    (hf : Fills (· ∈ vars) slots used) (ho : OnlyLastOptional slots)
    (hw : c.Within used (rest.map .token)) :
    ∃ d, readEach vars slots c = .ok (used.map Token.value) d ∧ d.At [] rest := by
  induction hf generalizing c with
  | @empty slots hs =>
    match slots with
    | [] => exact ⟨c, pure_eq_ok_iff.mpr ⟨rfl, rfl⟩, .inl hw⟩
    | [slot] =>
      have hslot := hs slot List.mem_cons_self
      obtain ⟨d, hb, hn⟩ := hw.next_nil
      refine ⟨d, readEach_cons_eq_ok_iff.mpr ⟨none, d, [], read_eq_ok_iff.mpr ?_, ?_, rfl⟩,
        .inr ⟨rfl, hb⟩⟩
      · rcases hn with hn | ⟨t, ht, hn⟩
        · exact .inl ⟨hn, hslot, rfl⟩
        · exact .inr ⟨t, hn, .inl ⟨ht, hslot, rfl⟩⟩
      · exact pure_eq_ok_iff.mpr ⟨rfl, rfl⟩
    | slot :: next :: slots =>
      cases ho.eq_nil (hs slot List.mem_cons_self)
  | @fill slot t slots ts hf _ ih =>
    obtain ⟨d, hr, hd⟩ := ih ho.tail hw.tail
    refine ⟨d, readEach_cons_eq_ok_iff.mpr ⟨some t.value, _, _, ?_, hr, rfl⟩, hd⟩
    exact read_eq_ok_iff.mpr (.inr ⟨t, hw.next_cons, .inr ⟨hf, rfl⟩⟩)

end Slot

/-- A member is picked by the token that comes next. -/
theorem OperationGroup.select_eq_ok_iff {group : OperationGroup} {op : Operation} {c d : Cursor} :
    group.select c = .ok op d ↔
      ∃ t, Reader.next c = .ok (some t) d ∧ t.kind ≠ .newline ∧
        group.member? t.kind = some op := by
  unfold select
  rw [bind_eq_ok_iff]
  constructor
  · rintro ⟨token, e, hn, h⟩
    cases token with
    | none => simp at h
    | some t =>
      dsimp only at h
      split at h
      · simp at h
      · next hk =>
        cases hm : group.member? t.kind with
        | none => simp [hm, bind_eq_ok_iff] at h
        | some member =>
          simp only [hm, pure_eq_ok_iff] at h
          obtain ⟨rfl, rfl⟩ := h
          exact ⟨t, hn, hk, hm⟩
  · rintro ⟨t, hn, hk, hm⟩
    exact ⟨some t, d, hn, by simp [hk, hm]⟩

end MlogAsm
