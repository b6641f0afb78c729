import MlogAsm.Proofs.Layout
import MlogAsm.Proofs.Program
import MlogAsm.Proofs.RuleLanguage

/-!
# Spelling

Which characters a token has. A token stands in the text at its offset with the characters of its
value, unless it declares a name, and what is spelled as a word has no space in it.
-/

namespace MlogAsm

namespace Segment

/-- A segment was taken off the front of what is left of the text. -/
theorem exists_first_of_split {cs : List Char} {front back : List Segment} {segment : Segment}
    (h : split cs = front ++ segment :: back) :
    ∃ c rest, segment = first c rest ∧ c :: rest = segment.chars ++ back.flatMap chars := by
  induction front generalizing cs with
  | nil =>
    cases cs with
    | nil => simp [split, splitFrom] at h
    | cons c rest =>
      rw [split_cons] at h
      obtain ⟨rfl, rfl⟩ := List.cons.inj h
      obtain ⟨-, tail, ht⟩ := first_takes c rest
      refine ⟨c, rest, rfl, ?_⟩
      rw [flatMap_chars_split, ← ht, List.drop_left]
  | cons other front ih =>
    cases cs with
    | nil => simp [split, splitFrom] at h
    | cons c rest =>
      rw [split_cons] at h
      exact ih (List.cons.inj h).2

theorem firstPiece?_of_first_eq_piece {c : Char} {rest piece : List Char} {rule : Rule}
    (h : first c rest = .piece rule piece) : firstPiece? (c :: rest) = some (rule, piece) := by
  unfold first at h
  split at h
  · cases h
  · split at h
    · next hf =>
      cases h
      exact hf
    · cases h

/-- A piece is a word of the rule that takes it. -/
theorem matches_of_firstPiece? {cs piece : List Char} {rule : Rule}
    (h : firstPiece? cs = some (rule, piece)) : rule.Matches piece := by
  obtain ⟨found, _, hf⟩ := List.exists_of_findSome?_eq_some h
  obtain ⟨taken, ht, he⟩ := Option.map_eq_some_iff.mp hf
  cases he
  exact (rule.takesLongest_lexeme?.sound ht).1

end Segment

namespace Lexeme

/-- A token is what a rule reads in a segment that begins at its offset. -/
theorem exists_segment_of_mem {line pos : Nat} {segments : List Segment} {t : Token}
    (h : token t ∈ ofSegments line pos segments) :
    ∃ front rule piece back, segments = front ++ .piece rule piece :: back ∧
      t.pos = pos + (front.flatMap Segment.chars).length ∧
      rule.reading? piece = some (t.kind, t.value) := by
  induction segments generalizing line pos with
  | nil => simp [ofSegments] at h
  | cons segment rest ih =>
    rw [ofSegments] at h
    rcases List.mem_append.mp h with h | h
    · rw [Option.mem_toList] at h
      cases segment with
      | blank c => cases h
      | stray c => cases h
      | piece rule piece =>
        obtain ⟨⟨kind, value⟩, hr, he⟩ := Option.map_eq_some_iff.mp h
        cases he
        exact ⟨[], rule, piece, rest, rfl, by simp, hr⟩
    · obtain ⟨front, rule, piece, back, rfl, hp, hr⟩ := ih h
      refine ⟨segment :: front, rule, piece, back, rfl, ?_, hr⟩
      rw [hp, List.flatMap_cons, List.length_append, Nat.add_assoc]

/-- A token is what the first rule that applies reads in the text at its offset. -/
private theorem exists_firstPiece?_of_mem_scan {text : String} {t : Token}
    (h : token t ∈ scan text) :
    ∃ (front : List Char) (rule : Rule) (piece back : List Char),
      text.toList = front ++ (piece ++ back) ∧ t.pos = front.length ∧
      Segment.firstPiece? (piece ++ back) = some (rule, piece) ∧
      rule.reading? piece = some (t.kind, t.value) := by
  obtain ⟨front, rule, piece, back, hs, hp, hr⟩ := exists_segment_of_mem h
  obtain ⟨c, rest, hf, hc⟩ := Segment.exists_first_of_split hs
  refine ⟨front.flatMap Segment.chars, rule, piece, back.flatMap Segment.chars, ?_,
    by simpa using hp, ?_, hr⟩
  · rw [← Segment.flatMap_chars_split text.toList, hs, List.flatMap_append, List.flatMap_cons]
    rfl
  · have hl := Segment.firstPiece?_of_first_eq_piece hf.symm
    rwa [hc] at hl

end Lexeme

namespace Rule

/-- The characters of a token are its value, unless it declares a name. -/
theorem toList_value_of_reading? {rule : Rule} {piece : List Char} {kind : TokenKind}
    {value : String} (h : rule.reading? piece = some (kind, value))
    (hk : kind.isDeclaration = false) : value.toList = piece := by
  cases rule <;> simp only [reading?, Option.some.injEq, Prod.mk.injEq, reduceCtorEq] at h <;>
    obtain ⟨rfl, rfl⟩ := h
  · cases hk
  · cases hk
  all_goals exact String.toList_ofList

/-- A routine header is read as the name between the gap and the colon. -/
theorem dropLast_dropWhile_drop {gap word : List Char} (hg : Run isGap gap)
    (hw : Run isWordChar word) :
    (((routineWord ++ (gap ++ (word ++ [':']))).drop routineWord.length).dropWhile isGap).dropLast =
      word := by
  obtain ⟨c, tail, hcons, hc⟩ := hw.exists_cons
  have hdrop : (gap ++ (word ++ [':'])).dropWhile isGap = word ++ [':'] := by
    rw [hcons, List.cons_append]
    exact hg.dropWhile_append_cons (not_isGap_of_isWordChar hc) _
  rw [List.drop_left, hdrop, List.dropLast_concat]

/-- What is declared is a word. -/
private theorem isWordChar_of_declaration {rule : Rule} {piece : List Char} {kind : TokenKind}
    {value : String} (hm : rule.Matches piece) (h : rule.reading? piece = some (kind, value))
    (hr : rule = routine ∨ rule = label) : ∀ c ∈ value.toList, isWordChar c = true := by
  rcases hr with rfl | rfl
  · obtain ⟨gap, word, hpiece, hg, hw⟩ := hm
    simp only [reading?, Option.some.injEq, Prod.mk.injEq] at h
    rw [← h.2, String.toList_ofList, hpiece, dropLast_dropWhile_drop hg hw]
    exact hw.all
  · obtain ⟨word, hpiece, hw⟩ := hm
    simp only [reading?, Option.some.injEq, Prod.mk.injEq] at h
    rw [← h.2, String.toList_ofList, hpiece, List.dropLast_concat]
    exact hw.all

private theorem isWordChar_of_name {piece : List Char} {kind : TokenKind} {value : String}
    (hm : name.Matches piece) (h : name.reading? piece = some (kind, value)) :
    ∀ c ∈ value.toList, isWordChar c = true := by
  obtain ⟨c, tail, hpiece, hc, ht⟩ := hm
  simp only [reading?, Option.some.injEq, Prod.mk.injEq] at h
  rw [← h.2, String.toList_ofList, hpiece]
  refine List.forall_mem_cons.mpr ⟨?_, ht⟩
  rcases Bool.or_eq_true_iff.mp hc with hc | hc
  · simp [isWordChar, Char.isAlphanum, hc]
  · simp [isWordChar, hc]

end Rule

/-- The kinds of tokens whose value consists of letters, digits and underscores. -/
def TokenKind.isPlainWord : TokenKind → Bool
  | float | int | string | sysvar | newline => false
  | _ => true

/-- The kinds that are spelled as words. -/
def TokenKind.isWord : TokenKind → Bool
  | routine | sysvar | name | operator => true
  | _ => false

namespace Lexeme

variable {text : String} {t : Token}

/-- A token stands in the text as it is, unless it declares a name. -/
theorem value_at_pos (h : token t ∈ scan text) (hk : t.kind.isDeclaration = false) :
    t.value.toList <+: text.toList.drop t.pos := by
  obtain ⟨front, rule, piece, back, ht, hp, -, hr⟩ := exists_firstPiece?_of_mem_scan h
  refine ⟨back, ?_⟩
  rw [Rule.toList_value_of_reading? hr hk, ht, hp, List.drop_left]

/-- Names and reserved words are made of letters, digits and underscores. -/
theorem isWordChar_of_mem_value (h : token t ∈ scan text) (hk : t.kind.isPlainWord = true) :
    ∀ c ∈ t.value.toList, isWordChar c = true := by
  obtain ⟨_, rule, piece, _, _, _, hf, hr⟩ := exists_firstPiece?_of_mem_scan h
  have hm := Segment.matches_of_firstPiece? hf
  cases rule with
  | routine => exact Rule.isWordChar_of_declaration hm hr (.inl rfl)
  | label => exact Rule.isWordChar_of_declaration hm hr (.inr rfl)
  | name => exact Rule.isWordChar_of_name hm hr
  | float | int | string | sysvar | newline =>
    simp only [Rule.reading?, Option.some.injEq, Prod.mk.injEq] at hr
    rw [← hr.1] at hk
    cases hk
  | comment => cases hr

/-- Words have no space in them. -/
theorem space_not_mem_value (h : token t ∈ scan text) (hk : t.kind.isWord = true) :
    ' ' ∉ t.value.toList := by
  obtain ⟨_, rule, piece, _, _, _, hf, hr⟩ := exists_firstPiece?_of_mem_scan h
  have hm := Segment.matches_of_firstPiece? hf
  have hspace : isWordChar ' ' = false := by decide
  cases rule with
  | routine =>
    intro hs
    rw [Rule.isWordChar_of_declaration hm hr (.inl rfl) _ hs] at hspace
    cases hspace
  | sysvar =>
    simp only [Rule.reading?, Option.some.injEq, Prod.mk.injEq] at hr
    rw [← hr.2, String.toList_ofList]
    exact Rule.not_mem_of_isUnbroken rfl hm (.inl rfl)
  | name =>
    intro hs
    rw [Rule.isWordChar_of_name hm hr _ hs] at hspace
    cases hspace
  | label | float | int | string | newline =>
    simp only [Rule.reading?, Option.some.injEq, Prod.mk.injEq] at hr
    rw [← hr.1] at hk
    cases hk
  | comment => cases hr

/-- The word that stands for no condition is no operator. -/
theorem value_ne_always (h : token t ∈ scan text) (hk : t.kind = .operator) :
    t.value ≠ "always" := by
  obtain ⟨-, rule, piece, back, -, -, -, hr⟩ := exists_firstPiece?_of_mem_scan h
  rw [hk] at hr
  intro ha
  rw [ha] at hr
  cases rule with
  | name =>
    simp only [Rule.reading?, Option.some.injEq, Prod.mk.injEq] at hr
    rw [hr.2] at hr
    exact absurd hr.1 (by decide)
  | routine | label | float | int | string | sysvar | newline | comment =>
    simp [Rule.reading?] at hr

end Lexeme

section Outline

variable {ts : List Token}

private theorem mem_of_mem_tokenLines {line : List Token} (h : line ∈ tokenLines ts) {t : Token}
    (ht : t ∈ line) : t ∈ ts := by
  unfold tokenLines at h
  induction ts generalizing line with
  | nil =>
    rw [List.splitOnP_nil, List.mem_singleton] at h
    rwa [h] at ht
  | cons u ts ih =>
    rw [List.splitOnP_cons_eq_if_modifyHead] at h
    split at h
    · rcases List.mem_cons.mp h with rfl | h
      · cases ht
      · exact List.mem_cons_of_mem u (ih h ht)
    · obtain ⟨first, others, he⟩ := List.exists_cons_of_ne_nil
        (List.splitOnP_ne_nil (fun t : Token ↦ t.kind == .newline) ts)
      rw [he, List.modifyHead_cons] at h
      rcases List.mem_cons.mp h with rfl | h
      · rcases List.mem_cons.mp ht with rfl | ht
        · exact List.mem_cons_self
        · exact List.mem_cons_of_mem u (ih (by rw [he]; exact List.mem_cons_self) ht)
      · exact List.mem_cons_of_mem u (ih (by rw [he]; exact List.mem_cons_of_mem first h) ht)

private theorem Element.mem_of_clause_mem_ofLine {line : List Token} {lead : Token}
    {operands : List Token} (h : clause lead operands ∈ ofLine line) {t : Token}
    (ht : t ∈ lead :: operands) :
    t ∈ line := by
  fun_induction ofLine line with
  | case1 => cases h
  | case2 u us _ ih | case3 u us _ ih | case4 u us _ ih =>
    exact List.mem_cons_of_mem u (ih (by simpa using h))
  | case5 u us _ _ _ =>
    cases List.mem_singleton.mp h
    exact ht

private theorem Element.exists_of_declare_mem_ofLine {line : List Token} {what : Declared}
    {name : String} {n : Nat} (h : declare what name n ∈ ofLine line) :
    ∃ t ∈ line, t.kind = what.kind ∧ t.value = name := by
  fun_induction ofLine line with
  | case1 => cases h
  | case2 u us hk ih | case3 u us hk ih =>
    rcases List.mem_cons.mp h with he | h
    · cases he
      exact ⟨u, List.mem_cons_self, hk, rfl⟩
    · obtain ⟨t, ht, hkt⟩ := ih h
      exact ⟨t, List.mem_cons_of_mem u ht, hkt⟩
  | case4 u us _ ih =>
    obtain ⟨t, ht, hkt⟩ := ih (by simpa using h)
    exact ⟨t, List.mem_cons_of_mem u ht, hkt⟩
  | case5 u us _ _ _ => simp at h

end Outline

namespace Program

variable {catalog : Catalog} {text : String} {p : Program}

/-- A statement of a program is written with tokens of its text. -/
theorem Reads.exists_written (h : p.Reads catalog text) {s : Statement} (hs : s ∈ p.statements) :
    ∃ lead operands, s.Written catalog p.Writes (lead :: operands) ∧
      ∀ t ∈ lead :: operands, Lexeme.token t ∈ Lexeme.scan text := by
  obtain ⟨ts, hts, hp⟩ := h
  obtain ⟨e, he, hw⟩ := exists_element_of_mem hp (mem_statements.mp hs)
  cases hw with
  | @statement _ lead operands hw =>
    refine ⟨lead, operands, hw, fun t ht ↦ ?_⟩
    obtain ⟨line, hl, hc⟩ := List.mem_flatMap.mp he
    rw [hts]
    exact List.mem_map_of_mem
      (mem_of_mem_tokenLines hl (Element.mem_of_clause_mem_ofLine hc ht))

/-- A declaration of a program is a token of its text. -/
theorem Reads.exists_declaration (h : p.Reads catalog text) {what : Declared} {name : String}
    (hd : p.Declares what name) :
    ∃ t, Lexeme.token t ∈ Lexeme.scan text ∧ t.kind = what.kind ∧ t.value = name := by
  obtain ⟨ts, hts, hp⟩ := h
  obtain ⟨e, he, hw⟩ := exists_element_of_mem hp hd
  cases hw with
  | declare =>
    obtain ⟨line, hl, hc⟩ := List.mem_flatMap.mp he
    obtain ⟨t, ht, hk, hv⟩ := Element.exists_of_declare_mem_ofLine hc
    refine ⟨t, ?_, hk, hv⟩
    rw [hts]
    exact List.mem_map_of_mem (mem_of_mem_tokenLines hl ht)

/-- The name of a routine is a word. -/
theorem Reads.space_not_mem_routine (h : p.Reads catalog text) {r : String}
    (hd : p.Declares .routine r) : ' ' ∉ r.toList := by
  obtain ⟨t, ht, hk, rfl⟩ := h.exists_declaration hd
  exact Lexeme.space_not_mem_value ht (by rw [hk]; rfl)

end Program
end MlogAsm
