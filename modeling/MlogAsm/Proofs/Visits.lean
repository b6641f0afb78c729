import MlogAsm.Proofs.StatementCode

/-!
# Visits

The turns that an emission takes: at each token that its loop comes to, except the ends of lines,
how many lines there were before and which lines the turn gave. An emission succeeds exactly if it
has such a record, and its code is what the turns gave.
-/

namespace MlogAsm

/-- A turn of an emission. -/
structure Visit where
  /-- The token at the beginning of the turn. -/
  token : Token
  /-- The number of lines before the turn. -/
  emitted : Nat
  /-- The lines that the turn gives. -/
  lines : List CodeLine

namespace Emission

variable {catalog : Catalog} {symbols : Symbols}

/-- The state after a declaration or the end of a routine. -/
def marked? (s : Emission) (t : Token) (c : Cursor) : Option Emission :=
  match t.kind with
  | .label => some { s with cursor := c, pending := some ("label " ++ t.value) }
  | .routine =>
    some { s with
      cursor := c, routine := some t.value, pending := some ("subroutine " ++ t.value) }
  | .endRoutine => some { s with cursor := c, routine := none }
  | _ => none

/-- The turns that lead from a state to the end of the text. -/
inductive Visits (catalog : Catalog) (symbols : Symbols) : Emission → List Visit → Prop where
  | finished {s : Emission} {c : Cursor} (hn : Reader.next s.cursor = .ok none c) :
      Visits catalog symbols s []
  | newline {s : Emission} {c : Cursor} {t : Token} {visits : List Visit}
      (hn : Reader.next s.cursor = .ok (some t) c) (hk : t.kind = .newline)
      (hv : Visits catalog symbols { s with cursor := c } visits) :
      Visits catalog symbols s visits
  | mark {s s' : Emission} {c : Cursor} {t : Token} {visits : List Visit}
      (hn : Reader.next s.cursor = .ok (some t) c) (hm : s.marked? t c = some s')
      (hv : Visits catalog symbols s' visits) :
      Visits catalog symbols s (⟨t, s.emitted, []⟩ :: visits)
  | statement {s : Emission} {c d : Cursor} {t : Token} {lines : List CodeLine}
      {visits : List Visit}
      (hn : Reader.next s.cursor = .ok (some t) c) (hk : t.kind.leads = true)
      (he : catalog.emitStatement (s.context symbols) t c = .ok lines d)
      (hv : Visits catalog symbols
        { s with cursor := d, pending := none, emitted := s.emitted + lines.length } visits) :
      Visits catalog symbols s (⟨t, s.emitted, s.noted lines⟩ :: visits)

/-- What gives no lines is a label, a routine header or the end of a routine. -/
theorem marked?_eq_some_iff {s s' : Emission} {t : Token} {c : Cursor} :
    s.marked? t c = some s' ↔
      (t.kind = .label ∧ s' = { s with cursor := c, pending := some ("label " ++ t.value) }) ∨
      (t.kind = .routine ∧ s' = { s with
        cursor := c, routine := some t.value, pending := some ("subroutine " ++ t.value) }) ∨
      (t.kind = .endRoutine ∧ s' = { s with cursor := c, routine := none }) := by
  unfold marked?
  cases t.kind <;> simp [eq_comm (a := s')]

theorem finish_of_rest_nil {e : Emission} (h : e.cursor.rest = []) :
    finish catalog symbols e = .ok [] := by
  have hn := Reader.next_eq_ok_none_iff.mpr ⟨h, rfl⟩
  rw [finish]
  split <;> simp_all

theorem finish_of_next_error {e : Emission} {f : Fault} {c : Cursor}
    (hn : Reader.next e.cursor = .error f c) : finish catalog symbols e = .error f := by
  rw [finish]
  split <;> simp_all

/-- The state after a token that leads no statement. -/
def passing (e : Emission) (t : Token) (c : Cursor) : Emission :=
  (e.marked? t c).getD { e with cursor := c }

theorem cursor_passing (e : Emission) (t : Token) (c : Cursor) : (e.passing t c).cursor = c := by
  unfold passing marked?
  cases t.kind <;> rfl

theorem finish_of_not_leads {e : Emission} {t : Token} {c : Cursor}
    (hn : Reader.next e.cursor = .ok (some t) c) (hk : ¬ t.kind.leads = true) :
    finish catalog symbols e = finish catalog symbols (e.passing t c) := by
  unfold passing marked?
  conv_lhs => unfold finish
  rcases TokenKind.cases_of_not_leads hk with hk | hk | hk | hk <;> split <;> simp_all

/-- A word that leads a statement is followed by its lines and those of the rest. -/
theorem finish_of_leads {e : Emission} {u : Token} {c : Cursor}
    (hn : Reader.next e.cursor = .ok (some u) c) (hk : u.kind.leads = true) :
    finish catalog symbols e =
      match catalog.emitStatement (e.context symbols) u c with
      | .error f _ => .error f
      | .ok lines d =>
        (finish catalog symbols
          { e with cursor := d, pending := none, emitted := e.emitted + lines.length }).map
          (e.noted lines ++ ·) := by
  conv_lhs => unfold finish
  split
  · simp_all
  · simp_all
  · next v d hv =>
    rw [hn] at hv
    cases hv
    split
    · simp_all [TokenKind.leads]
    · simp_all [TokenKind.leads]
    · simp_all [TokenKind.leads]
    · simp_all [TokenKind.leads]
    · split <;> simp_all
      rfl

/-- A record of turns gives the code. -/
theorem Visits.finish_eq_ok {s : Emission} {visits : List Visit}
    (h : Visits catalog symbols s visits) :
    finish catalog symbols s = .ok (visits.flatMap Visit.lines) := by
  induction h with
  | finished hn => exact finish_of_rest_nil (Reader.next_eq_ok_none_iff.mp hn).1
  | newline hn hk _ ih =>
    rw [finish_of_not_leads hn (by rw [hk]; decide), ← ih]
    simp [passing, marked?, hk]
  | mark hn hm _ ih =>
    have hk := marked?_eq_some_iff.mp hm
    rw [finish_of_not_leads hn
        (by rcases hk with ⟨hk, -⟩ | ⟨hk, -⟩ | ⟨hk, -⟩ <;> rw [hk] <;> decide),
      passing, hm, Option.getD_some, ih]
    rfl
  | statement hn hk he _ ih =>
    rw [finish_of_leads hn hk, he]
    dsimp only
    rw [ih]
    rfl

/-- An emission that succeeds has a record of turns. -/
theorem exists_visits_of_finish_eq_ok {s : Emission} {code : List CodeLine}
    (h : finish catalog symbols s = .ok code) :
    ∃ visits, Visits catalog symbols s visits ∧ code = visits.flatMap Visit.lines := by
  fun_induction finish catalog symbols s generalizing code with
  | case1 => cases h
  | case2 s c hn =>
    cases h
    exact ⟨[], .finished hn, rfl⟩
  | case3 s t c hn hk ih =>
    obtain ⟨visits, hv, rfl⟩ := ih h
    exact ⟨visits, .newline hn hk hv, rfl⟩
  | case4 s t c hn hk ih =>
    obtain ⟨visits, hv, rfl⟩ := ih h
    exact ⟨_, .mark hn (marked?_eq_some_iff.mpr (.inl ⟨hk, rfl⟩)) hv, rfl⟩
  | case5 s t c hn hk ih =>
    obtain ⟨visits, hv, rfl⟩ := ih h
    exact ⟨_, .mark hn (marked?_eq_some_iff.mpr (.inr (.inl ⟨hk, rfl⟩))) hv, rfl⟩
  | case6 s t c hn hk ih =>
    obtain ⟨visits, hv, rfl⟩ := ih h
    exact ⟨_, .mark hn (marked?_eq_some_iff.mpr (.inr (.inr ⟨hk, rfl⟩))) hv, rfl⟩
  | case7 => cases h
  | case8 s t c hn lines d hs h1 h2 h3 h4 ih =>
    have hk := TokenKind.leads_of_ne h1 h2 h3 h4
    cases hf : finish catalog symbols
        { s with cursor := d, pending := none, emitted := s.emitted + lines.length } with
    | error f =>
      rw [hf] at h
      cases h
    | ok rest =>
      rw [hf] at h
      cases h
      obtain ⟨visits, hv, rfl⟩ := ih hf
      exact ⟨_, .statement hn hk hs hv, rfl⟩

end Emission
end MlogAsm
