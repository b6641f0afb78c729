import Mathlib.Data.List.Forall2
import MlogAsm.Proofs.Continuation
import MlogAsm.Proofs.CoupledWalks

/-!
# Surveys line by line

A survey looks at one line after the other, with any catalog: nothing of a line is seen from the
next one but the symbols. So a text that continues another one is surveyed part by part. A part of a
text is coupled with the longer text as long as nobody asks what comes behind it.
-/

namespace MlogAsm

/-- A fault that is met on a later line. -/
def Fault.shift (lines : Nat) (f : Fault) : Fault :=
  { f with line := f.line.map (· + lines) }

@[simp] theorem Fault.shift_zero (f : Fault) : f.shift 0 = f := by
  simp [shift]

/-- A token as it stands some lines further down. It is the same word, at any offset. -/
structure Token.Below (lines : Nat) (t u : Token) : Prop where
  kind_eq : u.kind = t.kind
  value_eq : u.value = t.value
  line_eq : u.line = t.line + lines

namespace Lexeme

/-- A lexeme as it stands some lines further down. -/
inductive Below (lines : Nat) : Lexeme → Lexeme → Prop where
  | token {t u : Token} (h : t.Below lines u) : Below lines (.token t) (.token u)
  | stray {c : Char} {line pos pos' : Nat} :
      Below lines (.stray c line pos) (.stray c (line + lines) pos')

private theorem below_shift (lines chars : Nat) (l : Lexeme) :
    l.Below lines (l.shift lines chars) := by
  cases l with
  | token t => exact .token ⟨rfl, rfl, rfl⟩
  | stray c line pos => exact .stray

theorem forall₂_below_self (ls : List Lexeme) : List.Forall₂ (Below 0) ls ls := by
  rw [List.forall₂_same]
  intro l _
  cases l with
  | token t => exact .token ⟨rfl, rfl, rfl⟩
  | stray c line pos => exact .stray

/-- The last line of some lexemes is over. -/
def WholeLines (ls : List Lexeme) : Prop :=
  ∀ l ∈ ls.getLast?, ∃ t, l = .token t ∧ t.kind = .newline

/-- Lexemes begin with others, which stand some lines further down in them. If there is more behind
these, they are whole lines. -/
structure Begins (lines : Nat) (more ls ms : List Lexeme) : Prop where
  exists_front : ∃ front, List.Forall₂ (Below lines) ls front ∧ ms = front ++ more
  whole : more = [] ∨ WholeLines ls

private theorem Begins.eq_of_nil {lines : Nat} {more ms : List Lexeme}
    (h : Begins lines more [] ms) :
    ms = more := by
  obtain ⟨front, hf, rfl⟩ := h.exists_front
  cases hf
  rfl

/-- The first lexeme stands first in both, and only a line end has nothing of the part behind it. -/
theorem Begins.exists_cons {lines : Nat} {more ms : List Lexeme} {l : Lexeme} {ls : List Lexeme}
    (h : Begins lines more (l :: ls) ms) :
    ∃ m ms', ms = m :: ms' ∧ l.Below lines m ∧ Begins lines more ls ms' ∧
      (ls = [] → more = [] ∨ ∃ t, l = .token t ∧ t.kind = .newline) := by
  obtain ⟨front, hf, rfl⟩ := h.exists_front
  cases hf with
  | @cons _ m _ front hl hf =>
    refine ⟨m, front ++ more, rfl, hl, ⟨⟨front, hf, rfl⟩, ?_⟩, ?_⟩
    · rcases h.whole with hm | hw
      · exact .inl hm
      · refine .inr fun x hx ↦ hw x ?_
        cases ls with
        | nil => cases hx
        | cons y ys => exact hx
    · intro hnil
      rcases h.whole with hm | hw
      · exact .inl hm
      · exact .inr (hw l (by simp [hnil]))

end Lexeme

/-- A cursor in a longer text stands where another one stands in a part of it. A line that is not
over has its end in the part, if there is more behind. -/
structure Cursor.Tracks (lines : Nat) (more : List Lexeme) (c d : Cursor) : Prop where
  begins : Lexeme.Begins lines more c.rest d.rest
  line_eq : d.line = c.line + lines
  atLineEnd_eq : d.atLineEnd = c.atLineEnd
  inside : c.atLineEnd = false → c.rest = [] → more = []

/-- A fault in a longer text is that of a part of it, on a later line. -/
def Fault.Below (lines : Nat) (f g : Fault) : Prop :=
  g = f.shift lines

section Parts

variable {lines : Nat} {more : List Lexeme} {catalog : Catalog}

/-- A part of a text, and the longer text in which it stands some lines further down. -/
def Sides.part (lines : Nat) (more : List Lexeme) : Sides where
  lines := lines
  verbatim := True
  lenient := False
  Cursors place c d := c.Tracks lines more d ∧ (place ≠ .front → c.atLineEnd = false)
  Tokens _ := Token.Below lines
  Faults := Fault.Below lines

/-- The next word is the same, unless the part is over and there is more behind it. -/
private theorem Sides.part_next (place : LinePlace) {c d : Cursor}
    (hb : Lexeme.Begins lines more c.rest d.rest)
    (hnil : c.rest = [] → more = [] ∧ d.line = c.line + lines) :
    Matched False (Fault.Below lines) ((part lines more).Pulled place) (Reader.next c)
      (Reader.next d) := by
  obtain ⟨rest, line, ended⟩ := c
  obtain ⟨rest', line', ended'⟩ := d
  cases rest with
  | nil =>
    obtain ⟨hmore, hline⟩ := hnil rfl
    obtain rfl : rest' = [] := hb.eq_of_nil.trans hmore
    refine .ok (.ended ⟨nofun, rfl, ⟨⟨hb, hline, rfl, nofun⟩, fun hp ↦ absurd rfl hp⟩, ?_⟩)
    intro cause cause' hint _ hcause
    rw [hcause rfl trivial]
    rfl
  | cons l ls =>
    obtain ⟨m, ms, he, hl, hbs, hlast⟩ := hb.exists_cons
    obtain rfl : rest' = m :: ms := he
    cases hl with
    | stray => exact .error rfl
    | @token t u htu =>
      refine .ok (.word ⟨htu, htu.line_eq, ⟨hbs, htu.line_eq, ?_, fun hk hls ↦ ?_⟩, fun hp ↦ ?_⟩)
      · simp [Cursor.pull, htu.kind_eq]
      · rcases hlast hls with hm | ⟨v, hv, hnl⟩
        · exact hm
        · cases hv
          simp [Cursor.pull, hnl] at hk
      · refine beq_eq_false_iff_ne.mpr fun hk ↦ hp ?_
        rw [hk]
        rfl

private theorem Fault.shift_withDefinition (lines : Nat) (definition : String) (f : Fault) :
    (f.shift lines).withDefinition definition = (f.withDefinition definition).shift lines := by
  unfold withDefinition shift
  split <;> rfl

/-- A part of a text is coupled with the longer text. -/
def Coupling.part (lines : Nat) (more : List Lexeme) : Coupling where
  toSides := .part lines more
  kind_eq h := h.kind_eq
  value_eq h _ := h.value_eq
  line_eq h _ := h.1.line_eq
  atLineEnd_eq h := h.1.atLineEnd_eq
  front h _ := ⟨h.1, fun hp ↦ absurd rfl hp⟩
  next {place c d} h hfront := by
    have hc : c.atLineEnd = false := by
      by_cases hp : place = .front
      · exact hfront hp
      · exact h.2 hp
    exact Sides.part_next place h.1.begins fun hnil ↦ ⟨h.1.inside hc hnil, h.1.line_eq⟩
  onLine h := by
    rw [h.eq_of_verbatim trivial]
    rfl
  withDefinition definition h := by
    rw [h, Fault.shift_withDefinition]
    rfl

private theorem Coupling.part_uniform : (part lines more).Uniform :=
  fun h hp _ ↦ ⟨h.1, fun _ ↦ h.2 hp⟩

/-- Nothing is asked of the symbols. -/
private theorem Sides.part_declares : (part lines more).Declares fun _ _ ↦ True where
  addVariable _ _ := trivial
  addLines _ _ := trivial
  label _ _ _ _ := trivial
  routine _ _ _ := trivial

/-- A survey of a part of a text goes as far in the longer text: it fails there in the same way, or
goes on with what is behind the part. -/
theorem Survey.finish_of_begins {s t : Survey}
    (h : Lexeme.Begins lines more s.cursor.rest t.cursor.rest) :
    match finish catalog s with
    | .error f => finish catalog t = .error (f.shift lines)
    | .ok _ => ∃ t', t'.cursor.rest = more ∧ finish catalog t = finish catalog t' := by
  have hsuits : (Coupling.part lines more).Uniform ∨ catalog.WellMade := .inl Coupling.part_uniform
  -- An induction on what is left of the part; each round is a token and what it begins.
  induction hlen : s.cursor.rest.length using Nat.strongRecOn generalizing s t with
  | ind n ih =>
    subst hlen
    by_cases hnil : s.cursor.rest = []
    · rw [hnil] at h
      rw [finish_of_rest_nil hnil]
      exact ⟨t, h.eq_of_nil, rfl⟩
    · have hnext := Sides.part_next .front h fun he ↦ (hnil he).elim
      generalize hx : Reader.next s.cursor = x, hy : Reader.next t.cursor = y at hnext
      cases hnext with
      | error he => rw [finish_of_next_error hx, finish_of_next_error hy, he]
      | excused he => exact he.elim
      | @ok _ _ c d hpulled =>
        cases hpulled with
        | ended => exact (hnil (Reader.next_eq_ok_none_iff.mp hx).1).elim
        | @word a b _ _ hword =>
          have helement := coupled_element Sides.part_declares hsuits a b ⟨c, s.symbols⟩
            ⟨d, t.symbols⟩ ⟨hword, trivial⟩
          generalize hx' : element catalog a ⟨c, s.symbols⟩ = x',
            hy' : element catalog b ⟨d, t.symbols⟩ = y' at helement
          cases helement with
          | error he => rw [finish_of_element_error hx hx', finish_of_element_error hy hy', he]
          | excused he => exact he.elim
          | ok hboth =>
            rw [finish_of_element hx hx', finish_of_element hy hy']
            refine ih _ ?_ hboth.cursor.1.begins rfl
            exact Nat.lt_of_le_of_lt ((forward_element catalog a).ok hx').length_rest_le
              (Reader.length_rest_lt_of_next hx)

end Parts

section Texts

variable {catalog : Catalog} {symbols : Symbols}

/-- A text that continues another one begins with the lines of that one. -/
theorem Lexeme.begins_first (first second : String) :
    Begins 0 ((scan second).map (shift (lineCount first) (first.toList.length + 1)))
      (scan (first ++ "\n")) (scan (first ++ "\n" ++ second)) where
  exists_front := by
    refine ⟨scan (first ++ "\n"), forall₂_below_self _, ?_⟩
    rw [scan_append_newline, scan_newline, List.append_assoc]
    rfl
  whole := by
    refine .inr fun l hl ↦ ⟨lineEnd first, ?_, rfl⟩
    rw [scan_newline, List.getLast?_concat] at hl
    exact (Option.some.inj hl).symm

/-- Behind the lines of another one a text stands as a whole. -/
theorem Lexeme.begins_second (lines chars : Nat) (text : String) :
    Begins lines [] (scan text) ((scan text).map (shift lines chars)) where
  exists_front := by
    refine ⟨_, ?_, (List.append_nil _).symm⟩
    rw [List.forall₂_map_right_iff, List.forall₂_same]
    intro l _
    exact below_shift lines chars l
  whole := .inl rfl

/-- What is found in a text without stray characters is what its elements hold. -/
theorem Symbols.survey_eq_ok_iff {text : String} :
    survey catalog text = .ok symbols ↔
      Lexeme.AllTokens text ∧ Survey.Gathers catalog .empty (elements text) symbols := by
  rw [Lexeme.allTokens_iff]
  constructor
  · intro h
    obtain ⟨ts, hts, hg⟩ := Survey.exists_gathers_of_finish h
    rw [elements_of_scan hts]
    exact ⟨⟨ts, hts⟩, hg⟩
  · rintro ⟨⟨ts, hts⟩, hg⟩
    rw [elements_of_scan hts] at hg
    exact Survey.finish_eq_ok_of_gathers hg hts

/-- A line end behind a text changes nothing that is found in it. -/
theorem Symbols.survey_newline_eq_ok_iff {text : String} :
    survey catalog (text ++ "\n") = .ok symbols ↔ survey catalog text = .ok symbols := by
  rw [survey_eq_ok_iff, survey_eq_ok_iff, Lexeme.allTokens_newline, elements_newline]

/-- The names in the tables are those that the text declares. -/
theorem Symbols.contains_table_of_survey {text : String} (h : survey catalog text = .ok symbols)
    (what : Declared) (name : String) :
    (symbols.table what).contains name = true ↔
      (what, name) ∈ Element.declared (elements text) := by
  rw [(survey_eq_ok_iff.mp h).2.contains_table]
  cases what <;> simp [empty, table, SymbolTable.contains]

/-- The redeclarations of a text are those among its elements. -/
theorem Symbols.warnings_of_survey {text : String} (h : survey catalog text = .ok symbols) :
    symbols.warnings = Element.redeclared [] (elements text) := by
  refine (survey_eq_ok_iff.mp h).2.warnings_eq fun what name ↦ ?_
  cases what <;> simp [empty, table, SymbolTable.contains, Element.declared]

/-- The symbols of two parts are joined, and the redeclarations of the second are those of names
that were declared before in either part. -/
theorem Symbols.survey_append_of_ok {first second : String} {s t : Symbols}
    (hs : survey catalog first = .ok s) (ht : survey catalog second = .ok t) :
    survey catalog (first ++ "\n" ++ second) =
      .ok (s.continuedBy t ((Element.redeclared (elements first) (elements second)).map
        (Redeclaration.shift (lineCount first)))) := by
  have hknown (what : Declared) (name : String) :
      (s.table what).contains name = true ∨ (empty.table what).contains name = true ↔
        (what, name) ∈ Element.declared (elements first) := by
    rw [contains_table_of_survey hs]
    cases what <;> simp [empty, table, SymbolTable.contains]
  rw [survey_eq_ok_iff] at hs ht ⊢
  rw [Lexeme.allTokens_append_newline, elements_append_newline]
  refine ⟨⟨hs.1, ht.1⟩, hs.2.append ?_⟩
  have hg := @Survey.Gathers.continuedBy _ s _ _ _ ht.2 (lineCount first)
    (first.toList.length + 1) [] _ hknown
  rwa [continuedBy_empty, List.nil_append] at hg

end Texts

/-- A survey of two texts with a line end between them, with any catalog, is that of the first and
then that of the second. A fault in the first is the fault of both, whatever the second is. A fault
in the second is met as many lines further down as the first one has. Otherwise the symbols of the
second are added to those of the first, further down by its size, with a warning for each name of
the second that was declared before as the same thing in either of them. -/
theorem survey_append_newline (catalog : Catalog) (first second : String) :
    Symbols.survey catalog (first ++ "\n" ++ second) = do
      let s ← Symbols.survey catalog (first ++ "\n")
      let t ← (Symbols.survey catalog second).mapError (Fault.shift (lineCount first))
      return s.continuedBy t
        ((Element.redeclared (elements first) (elements second)).map
          (Redeclaration.shift (lineCount first))) := by
  have hfirst := @Survey.finish_of_begins _ _ catalog ⟨Cursor.ofText (first ++ "\n"), .empty⟩
    ⟨Cursor.ofText (first ++ "\n" ++ second), .empty⟩ (Lexeme.begins_first first second)
  cases hs : Symbols.survey catalog (first ++ "\n") with
  | error f =>
    rw [← Symbols.survey, ← Symbols.survey, hs] at hfirst
    rw [hfirst, Fault.shift_zero]
    rfl
  | ok s =>
    rw [← Symbols.survey, ← Symbols.survey, hs] at hfirst
    obtain ⟨rest, hrest, hfinish⟩ := hfirst
    cases ht : Symbols.survey catalog second with
    | error f =>
      have hsecond := @Survey.finish_of_begins _ _ catalog ⟨Cursor.ofText second, .empty⟩ rest
        (by rw [hrest]; exact Lexeme.begins_second _ _ second)
      rw [← Symbols.survey, ht] at hsecond
      rw [hfinish, hsecond]
      rfl
    | ok t =>
      rw [Symbols.survey_append_of_ok (Symbols.survey_newline_eq_ok_iff.mp hs) ht]
      rfl

end MlogAsm
