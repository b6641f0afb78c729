import MlogAsm.Symbols
import MlogAsm.Token.Lexeme

/-!
# Outlines

What stands on the lines of a text: declarations and ends of routines first, then at most one
clause, which is a word with the tokens after it on its line. An outline says nothing about whether
a clause is a statement. Blank lines leave no trace in it.
-/

namespace MlogAsm

namespace TokenKind

/-- A token of this kind begins a clause: it is no line end, no declaration and no end of a
routine. -/
def leads : TokenKind → Bool
  | newline | label | routine | endRoutine => false
  | _ => true

/-- A token of this kind may stand in a slot. -/
def isValue : TokenKind → Bool
  | name | sysvar | operator | bool | float | int | string => true
  | _ => false

/-- What may stand in a slot begins a clause where it is met first on a line. -/
theorem leads_of_isValue {k : TokenKind} (h : k.isValue = true) : k.leads = true := by
  cases k <;> simp_all [isValue, leads]

theorem ne_newline_of_leads {k : TokenKind} (h : k.leads = true) : k ≠ newline := by
  rintro rfl
  cases h

theorem cases_of_not_leads {k : TokenKind} (h : ¬ k.leads = true) :
    k = newline ∨ k = label ∨ k = routine ∨ k = endRoutine := by
  cases k <;> simp_all [leads]

theorem leads_of_ne {k : TokenKind} (hn : k ≠ newline) (hl : k ≠ label) (hr : k ≠ routine)
    (he : k ≠ endRoutine) : k.leads = true := by
  cases k <;> simp_all [leads]

end TokenKind

/-- Something that stands on a line. -/
inductive Element where
  /-- A label or a routine header, with its line. -/
  | declare (what : Declared) (name : String) (line : Nat)
  /-- The end of a routine. -/
  | close
  /-- A word and what follows it on its line. -/
  | clause (lead : Token) (operands : List Token)
  deriving DecidableEq, Repr

namespace Element

/-- The elements of a line: the first token that is neither a declaration nor the end of a routine
takes the rest of the line. -/
def ofLine : List Token → List Element
  | [] => []
  | t :: ts =>
    match t.kind with
    | .label => declare .label t.value t.line :: ofLine ts
    | .routine => declare .routine t.value t.line :: ofLine ts
    | .endRoutine => close :: ofLine ts
    | _ => [clause t ts]

theorem ofLine_of_leads {t : Token} (h : t.kind.leads = true) (ts : List Token) :
    ofLine (t :: ts) = [clause t ts] := by
  unfold ofLine
  split <;> simp_all [TokenKind.leads]

end Element

/-- The lines of a text, without the tokens that end them. -/
def tokenLines (ts : List Token) : List (List Token) :=
  ts.splitOnP fun t ↦ t.kind == .newline

/-- The elements of a text. -/
def outline (ts : List Token) : List Element :=
  (tokenLines ts).flatMap Element.ofLine

@[simp] theorem outline_nil : outline [] = [] := by
  simp [outline, tokenLines, Element.ofLine]

/-- A line without its end has no line end in it. -/
theorem tokenLines_of_plain {line : List Token} (h : ∀ t ∈ line, t.kind ≠ .newline) :
    tokenLines line = [line] :=
  List.splitOnP_eq_singleton fun t ht ↦ by simpa using h t ht

/-- Lines after a line end are on their own. -/
theorem outline_append_newline (line : List Token) {t : Token} (h : t.kind = .newline)
    (ts : List Token) : outline (line ++ t :: ts) = outline line ++ outline ts := by
  unfold outline tokenLines
  rw [List.splitOnP_append_cons line ts (by simp [h]), List.flatMap_append]

/-- Line ends at the front do not count. -/
theorem outline_newline {t : Token} (h : t.kind = .newline) (ts : List Token) :
    outline (t :: ts) = outline ts := by
  simpa using outline_append_newline [] h ts

theorem outline_of_plain {line : List Token} (h : ∀ t ∈ line, t.kind ≠ .newline) :
    outline line = Element.ofLine line := by
  simp [outline, tokenLines_of_plain h]

/-- The first token of a line, if it takes nothing with it, leaves the rest as it was. -/
private theorem outline_cons_of_ofLine {t : Token} (hk : t.kind ≠ .newline) {e : Element}
    (he : ∀ ts, Element.ofLine (t :: ts) = e :: Element.ofLine ts) (ts : List Token) :
    outline (t :: ts) = e :: outline ts := by
  unfold outline tokenLines
  rw [List.splitOnP_cons_eq_if_modifyHead, if_neg (by simpa using hk)]
  obtain ⟨line, lines, hl⟩ := List.exists_cons_of_ne_nil
    (List.splitOnP_ne_nil (fun t : Token ↦ t.kind == .newline) ts)
  rw [hl, List.modifyHead_cons, List.flatMap_cons, List.flatMap_cons, he, List.cons_append]

theorem outline_label {t : Token} (h : t.kind = .label) (ts : List Token) :
    outline (t :: ts) = .declare .label t.value t.line :: outline ts :=
  outline_cons_of_ofLine (by simp [h]) (fun _ ↦ by simp [Element.ofLine, h]) ts

theorem outline_routine {t : Token} (h : t.kind = .routine) (ts : List Token) :
    outline (t :: ts) = .declare .routine t.value t.line :: outline ts :=
  outline_cons_of_ofLine (by simp [h]) (fun _ ↦ by simp [Element.ofLine, h]) ts

theorem outline_endRoutine {t : Token} (h : t.kind = .endRoutine) (ts : List Token) :
    outline (t :: ts) = .close :: outline ts :=
  outline_cons_of_ofLine (by simp [h]) (fun _ ↦ by simp [Element.ofLine, h]) ts

/-- A line, or the text, ends before these lexemes. -/
def LineOver (rest : List Lexeme) : Prop :=
  rest = [] ∨ ∃ t tail, rest = .token t :: tail ∧ t.kind = .newline

/-- The end of a line does not count. -/
theorem outline_tail {rest : List Token} (ho : LineOver (rest.map .token)) :
    outline rest.tail = outline rest := by
  rcases ho with hr | ⟨t, tail, hr, ht⟩
  · rw [List.map_eq_nil_iff.mp hr]
    rfl
  · obtain ⟨u, us, rfl, hu, -⟩ := List.map_eq_cons_iff.mp hr
    cases hu
    rw [outline_newline ht, List.tail_cons]

/-- Tokens begin with what is left of a line. -/
theorem exists_line (ts : List Token) :
    ∃ line rest, ts = line ++ rest ∧ (∀ t ∈ line, t.kind ≠ .newline) ∧
      LineOver (rest.map .token) := by
  induction ts with
  | nil => exact ⟨[], [], rfl, by simp, .inl rfl⟩
  | cons t ts ih =>
    by_cases ht : t.kind = .newline
    · exact ⟨[], t :: ts, rfl, by simp, .inr ⟨t, _, rfl, ht⟩⟩
    · obtain ⟨line, rest, rfl, hp, ho⟩ := ih
      refine ⟨t :: line, rest, rfl, ?_, ho⟩
      intro u hu
      rcases List.mem_cons.mp hu with rfl | hu
      · exact ht
      · exact hp u hu

/-- A clause takes the rest of its line. -/
theorem outline_clause {lead : Token} (hl : lead.kind.leads = true) {line rest : List Token}
    (hp : ∀ t ∈ line, t.kind ≠ .newline) (ho : LineOver (rest.map .token)) :
    outline (lead :: (line ++ rest)) = .clause lead line :: outline rest := by
  have hp' : ∀ t ∈ lead :: line, t.kind ≠ .newline := by
    intro t ht
    rcases List.mem_cons.mp ht with rfl | ht
    · exact TokenKind.ne_newline_of_leads hl
    · exact hp t ht
  have hc : outline (lead :: line) = [.clause lead line] := by
    rw [outline_of_plain hp', Element.ofLine_of_leads hl]
  rcases ho with hr | ⟨t, tail, hr, ht⟩
  · rw [List.map_eq_nil_iff.mp hr]
    simpa using hc
  · obtain ⟨t', tail', rfl, he, -⟩ := List.map_eq_cons_iff.mp hr
    cases he
    rw [← List.cons_append, outline_append_newline _ ht, hc, outline_newline ht]
    rfl

/-- A clause comes first where a token begins one. -/
theorem outline_cons_of_leads {lead : Token} (hl : lead.kind.leads = true) (ts : List Token) :
    ∃ line es, outline (lead :: ts) = .clause lead line :: es := by
  obtain ⟨line, rest, rfl, hp, ho⟩ := exists_line ts
  exact ⟨line, outline rest, outline_clause hl hp ho⟩

/-- No clause begins with what may stand in a slot. -/
def NoValueLeads (es : List Element) : Prop :=
  ∀ lead operands, Element.clause lead operands ∈ es → lead.kind.isValue = false

end MlogAsm
