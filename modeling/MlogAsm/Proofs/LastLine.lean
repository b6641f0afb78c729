import MlogAsm.Proofs.SurveyLines

/-!
# The end of the last line

Two texts with the same words on the same lines, of which the second may have one more line end
behind them. Both are assembled in the same steps. A statement that asks for more than there is can
tell them apart, since it meets the end of the text in one of them and the line end in the other,
but it fails in both.
-/

namespace MlogAsm

section Sides

variable {last : Option Token} {c d : Cursor}

/-- Two cursors stand at the same word of two texts, of which the second has `last` behind the words
of the first. -/
structure Cursor.Abreast (last : Option Token) (c d : Cursor) : Prop where
  exists_front : ∃ front, List.Forall₂ (Lexeme.Below 0) c.rest front ∧
    d.rest = front ++ last.toList.map .token
  line_eq : d.line = c.line
  atLineEnd_eq : d.atLineEnd = c.atLineEnd
  isLineEnd : ∀ t ∈ last, t.kind = .newline

/-- Two cursors have pulled all there is in two texts, and then met the end of the first and `last`
in the second. -/
structure Cursor.Spent (last : Option Token) (c d : Cursor) : Prop where
  rest_eq : c.rest = [] ∧ d.rest = []
  atLineEnd_eq : c.atLineEnd = true ∧ d.atLineEnd = true
  isLineEnd : ∀ t ∈ last, t.kind = .newline ∧ d.line = t.line

/-- A fault as it is met in the second text. What is met at the end of the first text is met at the
line end that stands there in the second. -/
inductive Fault.Alike (last : Option Token) : Fault → Fault → Prop where
  | same {f : Fault} (h : f.line = none → last = none) : Alike last f f
  | ended {f g : Fault} {t : Token} (ht : last = some t) (hf : f.line = none)
      (hg : g.line = some t.line) (hc : g.cause.category = f.cause.category) : Alike last f g

theorem Fault.Alike.onLine (cause : Cause) (line : Nat) (hint : Option Hint) :
    Alike last ⟨cause, some line, hint⟩ ⟨cause, some line, hint⟩ :=
  .same fun h ↦ nomatch h

namespace Fault.Alike

variable {f g : Fault}

theorem category_eq (h : f.Alike last g) : g.cause.category = f.cause.category := by
  cases h with
  | same => rfl
  | ended _ _ _ hc => exact hc

private theorem eq_of_line_ne_none (h : f.Alike last g) (hf : f.line ≠ none) : g = f := by
  cases h with
  | same => rfl
  | ended _ hnone => exact absurd hnone hf

private theorem eq_of_none (h : f.Alike none g) : g = f := by
  cases h with
  | same => rfl
  | ended ht => cases ht

/-- What is met at the end of the first text is met in the last line of the second. -/
theorem line_eq {t : Token} (h : f.Alike (some t) g) (hf : f.line = none) :
    g.line = some t.line := by
  cases h with
  | same h => cases h hf
  | ended ht _ hg =>
    cases ht
    exact hg

end Fault.Alike

theorem Fault.Alike.withDefinition {f g : Fault} (h : f.Alike last g) (definition : String) :
    (f.withDefinition definition).Alike last (g.withDefinition definition) := by
  unfold Fault.withDefinition
  cases h with
  | same h => split <;> exact .same h
  | ended ht hf hg hc =>
    rw [hc]
    split <;> exact .ended ht hf hg hc

/-- Two texts with the same words, of which the second has `last` behind them. -/
def Sides.lastLine (last : Option Token) : Sides where
  lines := 0
  verbatim := True
  lenient := False
  Cursors place c d := c.Abreast last d ∨ place = .front ∧ c.Spent last d
  Tokens _ := Token.Below 0
  Faults := Fault.Alike last

private theorem Sides.lastLine_next (h : c.Abreast last d) (place : LinePlace) :
    Matched False (Fault.Alike last) ((lastLine last).Pulled place) (Reader.next c)
      (Reader.next d) := by
  obtain ⟨rest, line, ended⟩ := c
  obtain ⟨rest', line', ended'⟩ := d
  obtain ⟨front, hf, hrest⟩ := h.exists_front
  obtain rfl : rest' = front ++ last.toList.map .token := hrest
  cases hf with
  | nil =>
    cases hl : last with
    | none =>
      refine .ok (.ended ⟨nofun, rfl, .inr ⟨rfl, ⟨rfl, rfl⟩, ⟨rfl, rfl⟩, nofun⟩, ?_⟩)
      intro cause cause' hint _ hcause
      rw [hcause rfl trivial]
      exact .same fun _ ↦ rfl
    | some t =>
      have hk := h.isLineEnd t hl
      have hspent : Cursor.Spent (some t) (Cursor.pull ⟨[], line, ended⟩)
          (Cursor.pull ⟨[.token t], line', ended'⟩) := by
        refine ⟨⟨rfl, rfl⟩, ⟨rfl, by simp [Cursor.pull, hk]⟩, ?_⟩
        rintro u ⟨⟩
        exact ⟨hk, rfl⟩
      refine .ok (.ended ⟨fun u hu ↦ (hspent.isLineEnd u hu).1, rfl, .inr ⟨rfl, hspent⟩, ?_⟩)
      intro cause cause' hint hcategory _
      exact .ended rfl rfl rfl hcategory
  | @cons l m ls front hlm hf =>
    cases hlm with
    | stray => exact .error (.onLine _ _ _)
    | @token t u htu =>
      refine .ok (.word ⟨htu, htu.line_eq, .inl ⟨⟨front, hf, rfl⟩, htu.line_eq, ?_, h.isLineEnd⟩⟩)
      simp [Cursor.pull, htu.kind_eq]

/-- A text is coupled with the same text and one more line end. -/
def Coupling.lastLine (last : Option Token) : Coupling where
  toSides := .lastLine last
  kind_eq h := h.kind_eq
  value_eq h _ := h.value_eq
  line_eq h hp := by
    rcases h with h | ⟨hfront, -⟩
    · exact h.line_eq
    · exact absurd hfront hp
  atLineEnd_eq h := by
    rcases h with h | ⟨-, h⟩
    · exact h.atLineEnd_eq
    · rw [h.atLineEnd_eq.1, h.atLineEnd_eq.2]
  front h _ := h.imp_right fun h ↦ ⟨rfl, h.2⟩
  next {place c d} h hfront := by
    rcases h with h | ⟨hp, h⟩
    · exact Sides.lastLine_next h place
    · cases h.atLineEnd_eq.1.symm.trans (hfront hp)
  onLine h := by
    rw [h.eq_of_verbatim trivial]
    exact .onLine _ _ _
  withDefinition definition h := h.withDefinition definition

private theorem Coupling.lastLine_walks : (lastLine last).Walks := by
  rintro c d (h | ⟨-, h⟩)
  · exact .inr (Sides.lastLine_next h .front)
  · exact .inl h.rest_eq

private theorem Sides.lastLine_declares : (lastLine last).Declares (· = ·) where
  addVariable name h := by rw [h]
  addLines count h := by rw [h]
  label line hab _ h := by
    rw [h, hab.value_eq]
    rfl
  routine name line h := by
    rw [h]
    rfl

private theorem Sides.lastLine_knows (s : Symbols) : (lastLine last).Knows s s where
  vars _ h := h
  noOtherVars _ h := .inl h
  label h _ := by
    rw [h.value_eq]
    exact .refl _
  routine _ := .refl _

end Sides

section Texts

variable {last : Option Token} {catalog : Catalog} {text other : String}

/-- Two texts have the same words on the same lines, and the second has `last` behind them. -/
structure SameWords (last : Option Token) (text other : String) : Prop where
  exists_front : ∃ front, List.Forall₂ (Lexeme.Below 0) (Lexeme.scan text) front ∧
    Lexeme.scan other = front ++ last.toList.map .token
  isLineEnd : ∀ t ∈ last, t.kind = .newline

/-- Texts with the same words are assembled alike. -/
theorem SameWords.alike_ofTextWith (h : SameWords last text other) (hc : catalog.WellMade) :
    Outcomes False (Fault.Alike last) (fun a b ↦ b = a) (Assembly.ofTextWith catalog text)
      (Assembly.ofTextWith catalog other) := by
  have hstart : (Sides.lastLine last).Cursors .front (Cursor.ofText text) (Cursor.ofText other) :=
    .inl ⟨h.exists_front, rfl, rfl, h.isLineEnd⟩
  refine (Coupling.ofTextWith Coupling.lastLine_walks Sides.lastLine_declares rfl ?_ hc
    hstart).imp fun a b hab ↦ ?_
  · rintro s t rfl
    exact Sides.lastLine_knows s
  · obtain ⟨symbols, code⟩ := a
    obtain ⟨symbols', code'⟩ := b
    obtain ⟨hsymbols, hcode⟩ := hab
    have hsame := hcode.kept trivial
    rw [CodeLine.map_kept_true] at hsame
    exact congrArg₂ Assembly.mk hsymbols.symm hsame

/-- Nothing tells two texts apart if there is nothing behind the words of either. -/
theorem SameWords.ofTextWith_eq (h : SameWords none text other) (hc : catalog.WellMade) :
    Assembly.ofTextWith catalog other = Assembly.ofTextWith catalog text := by
  have houtcomes := h.alike_ofTextWith hc
  generalize Assembly.ofTextWith catalog text = x, Assembly.ofTextWith catalog other = y
    at houtcomes ⊢
  cases houtcomes with
  | ok hab => rw [hab]
  | error hfg => rw [hfg.eq_of_none]
  | excused h => exact h.elim

/-- A line end behind a text changes none of its words. -/
theorem sameWords_newline (text : String) :
    SameWords (some (Lexeme.lineEnd text)) text (text ++ "\n") where
  exists_front :=
    ⟨Lexeme.scan text, Lexeme.forall₂_below_self _, Lexeme.scan_newline text⟩
  isLineEnd t ht := by
    cases ht
    rfl

end Texts

/-- A line end behind a text does not matter. With it the text can be assembled exactly if it can
without, and what comes of it is the same: its symbols, its warnings and its lines. Faults are of
the same category, and they are the same fault, unless it is met at the end of the text. Then it is
met at the end of the last line instead. -/
theorem final_newline_is_optional (text : String) :
    (∀ a, Assembly.ofText text = .ok a ↔ Assembly.ofText (text ++ "\n") = .ok a) ∧
      ∀ f, Assembly.ofText text = .error f →
        ∃ g, Assembly.ofText (text ++ "\n") = .error g ∧
          g.cause.category = f.cause.category ∧ (f.line ≠ none → g = f) ∧
          (f.line = none → g.line = some (1 + text.toList.count '\n')) := by
  have h := (sameWords_newline text).alike_ofTextWith Catalog.standard_wellMade
  unfold Assembly.ofText
  generalize Assembly.ofTextWith .standard text = x,
    Assembly.ofTextWith .standard (text ++ "\n") = y at h ⊢
  cases h with
  | ok hab =>
    rw [hab]
    exact ⟨fun _ ↦ Iff.rfl, by rintro f ⟨⟩⟩
  | excused h => exact h.elim
  | @error f g hfg =>
    refine ⟨fun _ ↦ ⟨by rintro ⟨⟩, by rintro ⟨⟩⟩, ?_⟩
    rintro _ ⟨⟩
    refine ⟨g, rfl, ?_⟩
    exact ⟨hfg.category_eq, hfg.eq_of_line_ne_none, hfg.line_eq⟩

/-- A group without its member at the end of a text. -/
theorem final_newline_is_optional_group :
    let text := "x: set x 1\ndraw"
    Assembly.ofText text = .error ⟨.missingMember, none, none⟩ ∧
      ∃ g, Assembly.ofText (text ++ "\n") = .error g ∧ g.cause.category = .structural ∧
        g.line = some 2 := by
  intro text
  have hf : Assembly.ofText text = .error ⟨.missingMember, none, none⟩ := by decide +kernel
  obtain ⟨g, hg, hcategory, -, hline⟩ := (final_newline_is_optional text).2 _ hf
  have hcount : 1 + text.toList.count '\n' = 2 := by decide +kernel
  exact ⟨hf, g, hg, hcategory, by rw [hline rfl, hcount]⟩

end MlogAsm
