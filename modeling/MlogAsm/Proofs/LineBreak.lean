import MlogAsm.Proofs.Outline
import MlogAsm.Proofs.RuleLanguage

/-!
# Line breaks

A text can be cut behind the end of a line. No lexical rule looks further than the end of its line,
so the two parts are scanned on their own: the lexemes of the second part only stand on later lines
and at greater offsets than they would alone.
-/

namespace MlogAsm

namespace Rule

/-- No rule but that for line ends looks at one. -/
private theorem lexeme?_append_newline {rule : Rule} (h : rule ≠ newline) (cs rest : List Char) :
    rule.lexeme? (cs ++ '\n' :: rest) = rule.lexeme? cs :=
  lexeme?_append_cons (fun _ ↦ newline_not_mem_of_matches h) cs rest

/-- At the end of a line no rule but the one for it applies. -/
private theorem lexeme?_newline_cons {rule : Rule} (h : rule ≠ newline) (rest : List Char) :
    rule.lexeme? ('\n' :: rest) = none := by
  have hnil : rule.lexeme? [] = none := by
    cases hl : rule.lexeme? [] with
    | none => rfl
    | some piece =>
      obtain ⟨hne, hp⟩ := rule.takes_lexeme? hl
      exact absurd (List.prefix_nil.mp hp) hne
  rw [← hnil]
  exact lexeme?_append_newline h [] rest

/-- On a line that is not over, no rule looks further than its end. -/
private theorem lexeme?_cons_append_newline (rule : Rule) (c : Char) (cs rest : List Char) :
    rule.lexeme? (c :: (cs ++ '\n' :: rest)) = rule.lexeme? (c :: cs) := by
  by_cases hr : rule = newline
  · rw [hr]
    by_cases hc : c = '\n'
    · simp [lexeme?, hc]
    · simp [lexeme?, hc]
  · exact lexeme?_append_newline hr (c :: cs) rest

end Rule

namespace Segment

/-- The end of a line is a segment of its own. -/
theorem first_newline (rest : List Char) : first '\n' rest = .piece .newline ['\n'] := by
  have hblank : isBlank '\n' = false := by decide
  have hpiece : firstPiece? ('\n' :: rest) = some (.newline, ['\n']) := by
    simp [firstPiece?, Rule.all, Rule.lexeme?_newline_cons]
    rfl
  simp [first, hblank, hpiece]

/-- A segment ends with its line. -/
private theorem first_append_newline (c : Char) (cs rest : List Char) :
    first c (cs ++ '\n' :: rest) = first c cs := by
  unfold first firstPiece?
  simp only [Rule.lexeme?_cons_append_newline]

/-- A text can be cut before the end of a line. -/
private theorem split_append_newline (cs rest : List Char) :
    split (cs ++ '\n' :: rest) = split cs ++ .piece .newline ['\n'] :: split rest := by
  match cs with
  | [] =>
    rw [List.nil_append, split_cons, first_newline]
    rfl
  | c :: tail =>
    obtain ⟨hne, hp⟩ := first_takes c tail
    have hle := hp.length_le
    rw [List.cons_append, split_cons, split_cons, first_append_newline, ← List.cons_append,
      List.drop_append_of_le_length hle, split_append_newline, List.cons_append]
termination_by cs.length
decreasing_by
  have := List.length_pos_iff.mpr hne
  simp only [List.length_drop, List.length_cons]
  omega

end Segment

/-- The number of lines of a text, with the last one, which is not ended. -/
def lineCount (text : String) : Nat :=
  text.toList.count '\n' + 1

/-- A token that stands on a later line and at a greater offset. -/
def Token.shift (lines chars : Nat) (t : Token) : Token :=
  { t with line := t.line + lines, pos := t.pos + chars }

namespace Lexeme

/-- A lexeme that stands on a later line and at a greater offset. -/
def shift (lines chars : Nat) : Lexeme → Lexeme
  | token t => token (t.shift lines chars)
  | stray c line pos => stray c (line + lines) (pos + chars)

private theorem ofSegment?_shift (lines chars line pos : Nat) (segment : Segment) :
    ofSegment? (line + lines) (pos + chars) segment =
      (ofSegment? line pos segment).map (shift lines chars) := by
  cases segment with
  | blank c => rfl
  | piece rule piece => cases h : rule.reading? piece <;> simp [ofSegment?, h, shift, Token.shift]
  | stray c => rfl

/-- Where segments begin is where their lexemes stand. -/
private theorem ofSegments_shift (lines chars line pos : Nat) (segments : List Segment) :
    ofSegments (line + lines) (pos + chars) segments =
      (ofSegments line pos segments).map (shift lines chars) := by
  induction segments generalizing line pos with
  | nil => rfl
  | cons segment rest ih =>
    rw [ofSegments, ofSegments, List.map_append, ofSegment?_shift, ← ih,
      Nat.add_right_comm line lines, Nat.add_right_comm pos chars]
    cases ofSegment? line pos segment <;> rfl

private theorem ofSegments_append (line pos : Nat) (front back : List Segment) :
    ofSegments line pos (front ++ back) =
      ofSegments line pos front ++
        ofSegments (line + (front.flatMap Segment.chars).count '\n')
          (pos + (front.flatMap Segment.chars).length) back := by
  induction front generalizing line pos with
  | nil => simp [ofSegments]
  | cons segment rest ih =>
    rw [List.cons_append, ofSegments, ofSegments, ih, List.append_assoc, List.flatMap_cons,
      List.count_append, List.length_append, Nat.add_assoc, Nat.add_assoc]

/-- The token that ends the last line of a text. -/
def lineEnd (text : String) : Token :=
  ⟨.newline, "\n", 1 + text.toList.count '\n', text.toList.length⟩

/-- A text of two parts with a line end between them is scanned part by part. -/
theorem scan_append_newline (first second : String) :
    scan (first ++ "\n" ++ second) =
      scan first ++ token (lineEnd first) ::
        (scan second).map (shift (lineCount first) (first.toList.length + 1)) := by
  unfold scan
  have htext : (first ++ "\n" ++ second).toList = first.toList ++ '\n' :: second.toList := by simp
  rw [htext, Segment.split_append_newline, ofSegments_append, Segment.flatMap_chars_split,
    ofSegments, ← ofSegments_shift]
  rw [Nat.zero_add, ← Nat.add_assoc, Nat.zero_add]
  rfl

/-- A line end behind a text is one more token. -/
theorem scan_newline (text : String) :
    scan (text ++ "\n") = scan text ++ [token (lineEnd text)] := by
  have h := scan_append_newline text ""
  rwa [String.append_empty] at h

end Lexeme

/-- An element that stands further down. -/
def Element.shift (lines chars : Nat) : Element → Element
  | declare what name line => declare what name (line + lines)
  | close => close
  | clause lead operands =>
    clause (lead.shift lines chars) (operands.map (Token.shift lines chars))

private theorem Element.ofLine_map_shift (lines chars : Nat) (ts : List Token) :
    ofLine (ts.map (Token.shift lines chars)) = (ofLine ts).map (shift lines chars) := by
  induction ts with
  | nil => rfl
  | cons t ts ih =>
    rw [List.map_cons]
    by_cases hl : t.kind.leads = true
    · have hs : (t.shift lines chars).kind.leads = true := hl
      rw [ofLine_of_leads hl, ofLine_of_leads hs]
      rfl
    · rcases TokenKind.cases_of_not_leads hl with hk | hk | hk | hk
      all_goals simp [ofLine, Token.shift, hk, shift, ih]

/-- Lines are where they were among the tokens, wherever these stand in the text. -/
theorem tokenLines_map_shift (lines chars : Nat) (ts : List Token) :
    tokenLines (ts.map (Token.shift lines chars)) =
      (tokenLines ts).map (List.map (Token.shift lines chars)) := by
  unfold tokenLines
  induction ts with
  | nil => simp
  | cons t ts ih =>
    have hs : (t.shift lines chars).kind = t.kind := rfl
    rw [List.map_cons, List.splitOnP_cons_eq_if_modifyHead, List.splitOnP_cons_eq_if_modifyHead, ih,
      hs]
    split
    · rfl
    · cases List.splitOnP (fun t : Token ↦ t.kind == .newline) ts <;> rfl

/-- The outline of tokens further down has the same elements, further down. -/
private theorem outline_map_shift (lines chars : Nat) (ts : List Token) :
    outline (ts.map (Token.shift lines chars)) = (outline ts).map (Element.shift lines chars) := by
  unfold outline
  rw [tokenLines_map_shift, List.flatMap_map, List.map_flatMap]
  simp only [Element.ofLine_map_shift]

namespace Lexeme

/-- The token of a lexeme that is one. -/
def token? : Lexeme → Option Token
  | token t => some t
  | stray _ _ _ => none

theorem filterMap_token?_map (ts : List Token) : (ts.map token).filterMap token? = ts := by
  rw [List.filterMap_map]
  exact List.filterMap_some

/-- All lexemes of a text are tokens. -/
def AllTokens (text : String) : Prop :=
  ∀ l ∈ scan text, ∃ t, l = token t

theorem allTokens_iff {text : String} :
    AllTokens text ↔ ∃ ts : List Token, scan text = ts.map token := by
  constructor
  · intro h
    refine ⟨(scan text).filterMap token?, ?_⟩
    unfold AllTokens at h
    generalize scan text = ls at h ⊢
    induction ls with
    | nil => rfl
    | cons l ls ih =>
      rw [List.forall_mem_cons] at h
      obtain ⟨⟨t, rfl⟩, hls⟩ := h
      simpa [token?] using ih hls
  · rintro ⟨ts, hts⟩ l hl
    rw [hts] at hl
    obtain ⟨t, -, rfl⟩ := List.mem_map.mp hl
    exact ⟨t, rfl⟩

/-- Two parts have a stray character where either of them has one. -/
theorem allTokens_append_newline {first second : String} :
    AllTokens (first ++ "\n" ++ second) ↔ AllTokens first ∧ AllTokens second := by
  unfold AllTokens
  rw [scan_append_newline, List.forall_mem_append, List.forall_mem_cons, List.forall_mem_map]
  have hshift (l : Lexeme) (lines chars : Nat) :
      (∃ t, l.shift lines chars = token t) ↔ ∃ t, l = token t := by
    cases l <;> simp [shift]
  simp [hshift]

theorem allTokens_newline {text : String} : AllTokens (text ++ "\n") ↔ AllTokens text := by
  have h := @allTokens_append_newline text ""
  rw [String.append_empty] at h
  rw [h, and_iff_left]
  intro l hl
  cases hl

end Lexeme

/-- The elements of a text. Stray characters leave no trace in them. -/
def elements (text : String) : List Element :=
  outline ((Lexeme.scan text).filterMap Lexeme.token?)

theorem elements_of_scan {text : String} {ts : List Token}
    (h : Lexeme.scan text = ts.map .token) : elements text = outline ts := by
  unfold elements
  rw [h, Lexeme.filterMap_token?_map]

/-- The elements of two parts of a text are those of the first, then those of the second, which
stand further down. -/
theorem elements_append_newline (first second : String) :
    elements (first ++ "\n" ++ second) = elements first ++
      (elements second).map (Element.shift (lineCount first) (first.toList.length + 1)) := by
  have hshift (lines chars : Nat) (ls : List Lexeme) :
      (ls.map (Lexeme.shift lines chars)).filterMap Lexeme.token? =
        (ls.filterMap Lexeme.token?).map (Token.shift lines chars) := by
    rw [List.filterMap_map, List.map_filterMap]
    congr 1
    funext l
    cases l <;> rfl
  unfold elements
  rw [Lexeme.scan_append_newline, List.filterMap_append, ← outline_map_shift, ← hshift]
  exact outline_append_newline _ rfl _

/-- A line end behind a text adds nothing to its elements. -/
theorem elements_newline (text : String) : elements (text ++ "\n") = elements text := by
  have h := elements_append_newline text ""
  rw [String.append_empty] at h
  rw [h]
  exact List.append_nil _

end MlogAsm
