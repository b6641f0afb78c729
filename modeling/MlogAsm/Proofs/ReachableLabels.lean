import MlogAsm.Proofs.Lossless
import MlogAsm.Proofs.ProgramJoin
import MlogAsm.Proofs.Translation
import MlogAsm.Proofs.Words

/-!
# Labels that can be reached

A word with a colon declares a label, whatever the word is. A jump has to read the same word as a
name, and the rules for names come behind those for numbers and reserved words. So there are labels
that no jump can name. All others can be reached from behind any text that can be assembled.
-/

namespace MlogAsm

section Words

variable {w : List Char}

/-- A word with a colon behind it is a label. It may begin with digits, and it may be reserved. -/
private theorem Segment.split_label (hw : Run isWordChar w) :
    split (w ++ [':']) = [.piece .label (w ++ [':'])] := by
  have hcolon : isWordChar ':' = false := by decide
  have hlabel : Rule.label.lexeme? (w ++ [':']) = some (w ++ [':']) := by
    simp [Rule.lexeme?, Rule.labelLexeme?, hw.takeWhile_append_cons hcolon,
      hw.dropWhile_append_cons hcolon, hw.ne_nil]
  -- A routine header has a gap in it.
  have hroutine : Rule.routine.lexeme? (w ++ [':']) = none := by
    cases hp : Rule.routine.lexeme? (w ++ [':']) with
    | none => rfl
    | some piece =>
      obtain ⟨⟨gap, word, hcut, hgap, -⟩, hpre⟩ := Rule.routine.takesLongest_lexeme?.sound hp
      obtain ⟨c, tail, htail, hc⟩ := hgap.exists_cons
      have hm : c ∈ w ++ [':'] := hpre.subset (by simp [hcut, htail])
      have hblank : c = ' ' ∨ c = '\t' := by simpa [isGap] using hc
      rcases List.mem_append.mp hm with hm | hm
      · have hword := hw.all c hm
        rcases hblank with rfl | rfl <;> exact absurd hword (by decide)
      · rw [List.mem_singleton.mp hm] at hc
        cases hc
  have hpiece : firstPiece? (w ++ [':']) = some (.label, w ++ [':']) := by
    apply firstPiece?_eq_some_iff.mpr
    refine ⟨hlabel, fun other ho ↦ ?_⟩
    obtain rfl : other = .routine := List.mem_singleton.mp ho
    exact hroutine
  obtain ⟨c, tail, hcons, hc⟩ := hw.exists_cons
  rw [hcons, List.cons_append] at hpiece ⊢
  have hfirst : first c (tail ++ [':']) = .piece .label (c :: (tail ++ [':'])) := by
    rw [first, not_isBlank_of_isWordChar hc, hpiece]
    rfl
  rw [split_cons, hfirst]
  simp [chars, split, splitFrom]

/-- The tokens of a word end no line. -/
private theorem ne_newline_of_mem_readings (hw : ∀ c ∈ w, isWordChar c = true)
    {reading : TokenKind × String} (h : reading ∈ readings w) : reading.1 ≠ .newline := by
  obtain ⟨segment, hs, hread⟩ := List.mem_filterMap.mp h
  rcases Segment.mem_split_word hw hs with rfl | rfl
  · cases hread
    exact TokenKind.noConfusion
  · cases hread
    exact (Reserved.kindOf_ne _).2

/-- The words that are names are those that are not reserved. -/
theorem Reserved.kindOf_eq_name_iff {word : String} :
    kindOf word = .name ↔ word ∉ table.map Prod.fst := by
  have hno : ∀ entry ∈ table, entry.2 ≠ .name := by decide
  unfold kindOf
  cases hl : table.lookup word with
  | none =>
    have hnone := List.lookup_eq_none_iff.mp hl
    simp only [Option.getD_none, true_iff, List.mem_map, not_exists, not_and]
    rintro entry he rfl
    simpa using hnone entry he
  | some kind =>
    obtain ⟨front, back, hcut, -⟩ := List.lookup_eq_some_iff.mp hl
    have he : (word, kind) ∈ table := by simp [hcut]
    have hkind : kind ≠ .name := hno _ he
    simp only [Option.getD_some, hkind, false_iff, not_not]
    exact List.mem_map_of_mem he

/-- A word is read as a name exactly if it begins with no digit and is not reserved. -/
theorem readings_eq_name_iff {name value : String} (hn : Run isWordChar name.toList) :
    readings name.toList = [(.name, value)] ↔
      value = name ∧ (∀ c ∈ name.toList.head?, c.isDigit = false) ∧
        name ∉ Reserved.table.map Prod.fst := by
  obtain ⟨c, tail, hcons, hc⟩ := hn.exists_cons
  have hall := hn.all
  rw [hcons] at hall
  by_cases hd : c.isDigit = true
  · have hsplit := Segment.split_digits hall (Text.isDecimalDigit_of_isDigit hd)
    simp [readings, hcons, hsplit, Segment.reading?, Rule.reading?, hd]
  · have halpha : (c.isAlpha || c == '_') = true := by
      simpa [isWordChar, Char.isAlphanum, hd] using hc
    have hsplit := Segment.split_name hall halpha
    have hhead : ∀ d ∈ name.toList.head?, d.isDigit = false := by simp [hcons, hd]
    rw [← hcons] at hsplit
    rw [and_iff_right hhead, ← Reserved.kindOf_eq_name_iff, and_comm]
    simp [readings, hsplit, Segment.reading?, Rule.reading?, eq_comm]

end Words

section Programs

variable {p : Program} {what : Declared} {name : String}

/-- The last declaration of a name counts: that of the second part if there is one. -/
private theorem Program.entryIndex?_append (p q : Program) :
    entryIndex? what name (p ++ q) =
      ((entryIndex? what name q).map (· + p.statements.length)).or (entryIndex? what name p) := by
  induction p with
  | nil => simp [entryIndex?, statements]
  | cons item p ih =>
    cases item with
    | declare what' name' => simp [ih, Option.or_assoc]
    | close => simp [ih]
    | statement s =>
      rw [List.cons_append, entryIndex?_statement, entryIndex?_statement, ih, Option.map_or,
        Option.map_map]
      rfl

private theorem Program.length_lines (p : Program) :
    (p.lines false).length = Statement.total p.statements := by
  rw [lines, Placed.length_linesFrom, placed, map_statement_placedFrom]

/-- A label that is declared in front of the last statement stands for that statement, whatever was
declared before. -/
private theorem Program.lineIndex_append_declare (p : Program) (what : Declared) (name : String)
    (s : Statement) :
    lineIndex (p ++ [.declare what name, .statement s]) what name = (p.lines false).length := by
  have hentry : entryIndex? what name (p ++ [.declare what name, .statement s]) =
      some p.statements.length := by
    simp [entryIndex?_append, entryIndex?]
  rw [lineIndex, hentry, Option.map_some, Option.getD_some, offset, statements_append,
    List.take_left, length_lines]

/-- The line of a jump that a label stands in front of, with what the notes say about it. -/
private theorem Placed.lines_goto (index : Declared → String → Nat) (debug : Bool) (before : Nat)
    (routine : Option String) (name : String) :
    lines index debug before ⟨routine, some ("label " ++ name), .goto name⟩ =
      ["jump " ++ toString (index .label name) ++ " always" ++
        if debug then " # goto " ++ name ++ " # label " ++ name else ""] := by
  have hwords : " ".intercalate ["jump", toString (index .label name), "always"] =
      "jump " ++ toString (index .label name) ++ " always" := by
    apply String.toList_injective
    simp
  have hnotes : String.join [" # " ++ ("goto " ++ name), " # " ++ ("label " ++ name)] =
      " # goto " ++ name ++ " # label " ++ name := by
    apply String.toList_injective
    simp
  rw [lines, Statement.words, List.map_singleton, hwords]
  cases debug with
  | false => simp
  | true =>
    rw [← hnotes]
    rfl

/-- A jump to the label in front of it comes last, and goes to itself. -/
theorem Program.getLast?_lines_append_goto {catalog : Catalog} {known : String → Prop}
    {es : List Element} (hp : List.Forall₂ (Item.Written catalog known) p es) (debug : Bool) :
    (lines debug (p ++ [.declare .label name, .statement (.goto name)])).getLast? =
      some ("jump " ++ toString (p.lines false).length ++ " always" ++
        if debug then " # goto " ++ name ++ " # label " ++ name else "") := by
  obtain ⟨note, hplaced⟩ :=
    exists_placedFrom_append hp [.declare .label name, .statement (.goto name)] none none
  rw [lines, placed, hplaced, Placed.linesFrom_append, placedFrom, placedFrom, placedFrom,
    Placed.linesFrom, Placed.linesFrom, Placed.lines_goto, lineIndex_append_declare,
    List.append_nil]
  exact List.getLast?_concat

theorem Statement.Resolved.append {s : Statement} {routine : Option String}
    (h : s.Resolved p routine) (q : Program) : s.Resolved (p ++ q) routine := by
  cases s with
  | plain => trivial
  | jumpAlways label | jumpIf label _ _ | goto label => exact List.mem_append_left q h
  | gosub callee => exact ⟨List.mem_append_left q h.1, h.2⟩
  | leave => exact h

/-- A jump to the label in front of it can be resolved behind any program. -/
theorem Program.Resolved.append_goto {catalog : Catalog} {known : String → Prop}
    {es : List Element} (h : p.Resolved) (hp : List.Forall₂ (Item.Written catalog known) p es)
    (name : String) : Resolved (p ++ [.declare .label name, .statement (.goto name)]) := by
  obtain ⟨note, hplaced⟩ :=
    exists_placedFrom_append hp [.declare .label name, .statement (.goto name)] none none
  intro x hx
  rw [placed, hplaced, placedFrom, placedFrom, placedFrom] at hx
  rcases List.mem_append.mp hx with hx | hx
  · exact (h x hx).append _
  · rw [List.mem_singleton.mp hx]
    exact List.mem_append_right p List.mem_cons_self

/-- The word that jumps reads one name, and nothing else on its line. -/
theorem Statement.written_goto_iff {known : String → Prop} {s : Statement} {lead : Token}
    {operands : List Token} (hl : lead.kind = .keyword "GOTO") :
    s.Written .standard known (lead :: operands) ↔
      ∃ label, operands = [label] ∧ label.kind = .name ∧ s = .goto label.value := by
  have hfind : Catalog.standard.find? lead.kind = some (.control .goto) := by
    rw [hl]
    decide
  constructor
  · intro h
    cases h with
    | operation hl' _ | member hl' _ _ =>
      rw [hfind] at hl'
      cases hl'
    | compute hl' hc _ | jumpAlways hl' hc _ _ | jumpIf hl' hc _ _ _ | gosub hl' hc _
    | leave hl' hc =>
      rw [hfind] at hl'
      cases hl'
      cases hc
    | goto hl' hc hn => exact ⟨_, rfl, hn, rfl⟩
  · rintro ⟨label, rfl, hn, rfl⟩
    exact .goto hfind rfl hn

end Programs

section Texts

variable {name : String}

/-- A word with a colon spells the declaration of a label. -/
private theorem Program.reads_label (catalog : Catalog) (hn : Run isWordChar name.toList) :
    Reads catalog (name ++ ":") [.declare .label name] := by
  have hcut : (name ++ ":").toList = name.toList ++ [':'] := String.toList_append
  have hscan : Lexeme.scan (name ++ ":") = [Lexeme.token ⟨.label, name, 1, 0⟩] := by
    rw [Lexeme.scan, hcut, Segment.split_label hn]
    simp [Lexeme.ofSegments, Lexeme.ofSegment?, Rule.reading?]
  refine ⟨[⟨.label, name, 1, 0⟩], hscan, ?_⟩
  rw [outline_label rfl, outline_nil]
  exact .cons .declare .nil

/-- A jump to a word is read as the word that jumps and the tokens of the other. -/
private theorem elements_goto (hn : Run isWordChar name.toList) :
    Lexeme.AllTokens (" ".intercalate ["goto", name]) ∧
      ∃ lead operands, elements (" ".intercalate ["goto", name]) = [.clause lead operands] ∧
        lead.kind = .keyword "GOTO" ∧ operands.map Token.reading = readings name.toList := by
  have hgoto : Spells "goto" (.keyword "GOTO") := by decide
  have hsolid : ∀ w ∈ ["goto", name], Solid w.toList :=
    List.forall_mem_cons.mpr ⟨hgoto.1, List.forall_mem_singleton.mpr (.of_run hn)⟩
  have hall := Lexeme.allTokens_intercalate hsolid
  refine ⟨hall, ?_⟩
  obtain ⟨ts, hts⟩ := Lexeme.allTokens_iff.mp hall
  have hread := Lexeme.map_reading_of_scan_eq hts
  rw [readings_intercalate hsolid, List.flatMap_cons, hgoto.2, List.flatMap_singleton,
    List.singleton_append] at hread
  obtain ⟨lead, operands, rfl, hlead, hoperands⟩ := List.map_eq_cons_iff.mp hread
  have hkind : lead.kind = .keyword "GOTO" := congrArg Prod.fst hlead
  have hplain : ∀ t ∈ lead :: operands, t.kind ≠ .newline := by
    rw [List.forall_mem_cons, hkind]
    refine ⟨TokenKind.noConfusion, fun t ht ↦ ?_⟩
    have hm : t.reading ∈ readings name.toList := by
      rw [← hoperands]
      exact List.mem_map_of_mem ht
    exact ne_newline_of_mem_readings hn.all hm
  refine ⟨lead, operands, ?_, hkind, hoperands⟩
  rw [elements_of_scan hts, outline_of_plain hplain, Element.ofLine_of_leads]
  rw [hkind]
  rfl

/-- A jump to a word that is read as a name is a statement. -/
private theorem Program.reads_goto (hn : Run isWordChar name.toList)
    (hname : readings name.toList = [(.name, name)]) :
    Reads .standard (" ".intercalate ["goto", name]) [.statement (.goto name)] := by
  obtain ⟨hall, lead, operands, he, hlead, hoperands⟩ := elements_goto hn
  rw [hname, List.map_eq_singleton_iff] at hoperands
  obtain ⟨label, rfl, hlabel⟩ := hoperands
  obtain ⟨hkind, hvalue⟩ := Prod.mk.inj hlabel
  rw [reads_iff, he]
  refine ⟨hall, .cons (.statement ?_) .nil⟩
  exact (Statement.written_goto_iff hlead).mpr ⟨label, rfl, hkind, by rw [hvalue]⟩

/-- Behind any text, a word that a jump can go to is read as a name. -/
private theorem Program.Reads.readings_of_goto {p : Program} {text : String}
    (hn : Run isWordChar name.toList)
    (hp : p.Reads .standard (text ++ "\n" ++ " ".intercalate ["goto", name])) :
    ∃ value, readings name.toList = [(.name, value)] := by
  obtain ⟨-, lead, operands, he, hlead, hoperands⟩ := elements_goto hn
  obtain ⟨-, hp⟩ := reads_iff.mp hp
  rw [elements_append_newline, he] at hp
  have hlast := List.forall₂_drop_append _ _ _ hp
  obtain ⟨item, _, hitem, -, -⟩ := List.forall₂_cons_right_iff.mp hlast
  cases hitem with
  | statement hw =>
    have hshift : (lead.shift (lineCount text) (text.toList.length + 1)).kind = .keyword "GOTO" :=
      hlead
    obtain ⟨label, hlabel, hkind, -⟩ := (Statement.written_goto_iff hshift).mp hw
    obtain ⟨operand, rfl, rfl⟩ := List.map_eq_singleton_iff.mp hlabel
    refine ⟨operand.value, ?_⟩
    have hreading : operand.reading = (.name, operand.value) := congrArg (·, operand.value) hkind
    rw [← hoperands, List.map_singleton, hreading]

/-- Behind the text of a program, a label and a jump to it spell a program exactly if a jump can
name the label, and then they come last in it. -/
theorem Program.Reads.append_goto_iff {p r : Program} {text : String} (hp : p.Reads .standard text)
    (hn : Run isWordChar name.toList) :
    Reads .standard (text ++ "\n" ++ (name ++ ":") ++ "\n" ++ " ".intercalate ["goto", name]) r ↔
      ((∀ c ∈ name.toList.head?, c.isDigit = false) ∧ name ∉ Reserved.table.map Prod.fst) ∧
        r = p ++ [.declare .label name, .statement (.goto name)] := by
  have happend (hname : readings name.toList = [(.name, name)]) :
      Reads .standard (text ++ "\n" ++ (name ++ ":") ++ "\n" ++ " ".intercalate ["goto", name])
        (p ++ [.declare .label name, .statement (.goto name)]) := by
    have h := (hp.append (reads_label .standard hn)).append (reads_goto hn hname)
    rw [List.append_assoc] at h
    exact h
  constructor
  · intro hr
    obtain ⟨value, hvalue⟩ := hr.readings_of_goto hn
    obtain ⟨rfl, hname⟩ := (readings_eq_name_iff hn).mp hvalue
    exact ⟨hname, hr.unique (happend hvalue)⟩
  · rintro ⟨hname, rfl⟩
    exact happend ((readings_eq_name_iff hn).mpr ⟨rfl, hname⟩)

end Texts

/-- Behind a text that can be assembled, a label and a jump to it can be assembled exactly if the
label begins with no digit and is not reserved. The jump is then one more line, and goes to itself,
whatever the text declares. -/
theorem declared_label_is_reached (text name : String) (a : Assembly)
    (ha : Assembly.ofText text = .ok a) (hn : Run isWordChar name.toList) :
    let joined := text ++ "\n" ++ name ++ ":" ++ "\n" ++ "goto " ++ name
    ((∃ b, Assembly.ofText joined = .ok b) ↔
      (∀ c ∈ name.toList.head?, c.isDigit = false) ∧ name ∉ Reserved.table.map Prod.fst) ∧
    ∀ b, Assembly.ofText joined = .ok b →
      (b.lines false).length = (a.lines false).length + 1 ∧
      ∀ debug, (b.lines debug).getLast? =
        some ("jump " ++ toString (a.lines false).length ++ " always" ++
          if debug then " # goto " ++ name ++ " # label " ++ name else "") := by
  intro joined
  have hjoined : joined =
      text ++ "\n" ++ (name ++ ":") ++ "\n" ++ " ".intercalate ["goto", name] := by
    apply String.toList_injective
    simp [joined]
  obtain ⟨p, hp, hres, hlines⟩ := Assembly.exists_reads_lines_eq ha
  have hwritten := (Program.reads_iff.mp hp).2
  rw [hjoined]
  constructor
  · constructor
    · rintro ⟨b, hb⟩
      obtain ⟨r, hr, -, -⟩ := Assembly.exists_reads_lines_eq hb
      exact ((hp.append_goto_iff hn).mp hr).1
    · intro hname
      have hread := (hp.append_goto_iff hn).mpr ⟨hname, rfl⟩
      exact hread.exists_ofTextWith Catalog.standard_regular (hres.append_goto hwritten name)
  · intro b hb
    obtain ⟨r, hr, -, hlast⟩ := Assembly.exists_reads_lines_eq hb
    obtain ⟨-, rfl⟩ := (hp.append_goto_iff hn).mp hr
    constructor
    · rw [hlast, hlines, Program.length_lines, Program.length_lines, Program.statements_append,
        Statement.total_append]
      rfl
    · intro debug
      rw [hlast, hlines]
      exact Program.getLast?_lines_append_goto hwritten debug

/-- The text declares a label, a routine and a variable of the name, and the routine is open. Words
that begin with a digit and reserved words declare labels, but no jump goes to them. -/
theorem declared_label_is_reached_everywhere :
    let text := "a: set a 1\nroutine a:\ngoto a"
    let joined := fun name ↦ text ++ "\n" ++ name ++ ":" ++ "\n" ++ "goto " ++ name
    (∃ b, Assembly.ofText (joined "a") = .ok b ∧
      (b.lines true).getLast? = some "jump 2 always # goto a # label a") ∧
    (¬ ∃ b, Assembly.ofText (joined "1a") = .ok b) ∧
      ¬ ∃ b, Assembly.ofText (joined "end") = .ok b := by
  intro text joined
  have hlines : (Assembly.ofText text).map (Assembly.lines false) =
      .ok ["set a 1", "jump 0 always"] := by
    decide +kernel
  cases ha : Assembly.ofText text with
  | error f =>
    rw [ha] at hlines
    cases hlines
  | ok a =>
    rw [ha] at hlines
    have hlines : a.lines false = ["set a 1", "jump 0 always"] := Except.ok.inj hlines
    refine ⟨?_, ?_, ?_⟩
    · obtain ⟨hiff, hlast⟩ := declared_label_is_reached text "a" a ha
        ⟨by decide, List.all_eq_true.mp (by decide)⟩
      obtain ⟨b, hb⟩ := hiff.mpr ⟨by simp, by decide⟩
      refine ⟨b, hb, ?_⟩
      rw [(hlast b hb).2, hlines]
      rfl
    · rw [(declared_label_is_reached text "1a" a ha
        ⟨by decide, List.all_eq_true.mp (by decide)⟩).1]
      simp
    · rw [(declared_label_is_reached text "end" a ha
        ⟨by decide, List.all_eq_true.mp (by decide)⟩).1]
      exact fun h ↦ h.2 (by decide)

end MlogAsm
