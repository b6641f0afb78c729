import MlogAsm.Proofs.FaultPlaces
import MlogAsm.Proofs.Lossless
import MlogAsm.Proofs.StatementLines

/-!
# The lines of faults

A pass fails where a statement should begin, or in a statement, and what it has pulled last is to
blame. A statement is all on one line, so this is on the line of the word that leads the statement,
and that is the line that the fault names.
-/

namespace MlogAsm

namespace Lexeme

/-- What a statement would begin with: anything but a line end, a label, a routine header and the
end of a routine. -/
def leads : Lexeme → Bool
  | token t => t.kind.leads
  | stray _ _ _ => true

/-- No statement was begun since the last line end. -/
def BeginsLine (met : List Lexeme) : Prop :=
  ∃ earlier marks, met = earlier ++ marks ∧ (∀ l ∈ marks, l.leads = false) ∧
    ∀ l ∈ earlier.getLast?, l.isLineEnd = true

variable {met : List Lexeme} {l : Lexeme}

private theorem beginsLine_nil : BeginsLine [] :=
  ⟨[], [], rfl, by simp, by simp⟩

private theorem beginsLine_concat_lineEnd (h : l.isLineEnd = true) : BeginsLine (met ++ [l]) :=
  ⟨met ++ [l], [], by simp, by simp, by simpa using h⟩

private theorem BeginsLine.concat (h : BeginsLine met) (hl : l.leads = false) :
    BeginsLine (met ++ [l]) := by
  obtain ⟨earlier, marks, rfl, hmarks, hlast⟩ := h
  refine ⟨earlier, marks ++ [l], by simp, ?_, hlast⟩
  exact List.forall_mem_append.mpr ⟨hmarks, by simpa using hl⟩

end Lexeme

section Walks

variable {catalog : Catalog} {ls : List Lexeme} {f : Fault} {start stop : Cursor}

/-- A fault is met in a turn: at its first lexeme, where a statement should begin, or on the line of
a statement from its leading word on. -/
inductive Fault.MetIn (turn : Turn) (stop : Cursor) (f : Fault) : Prop where
  | first {l : Lexeme} (hls : turn.lexemes = l :: stop.rest) (hl : l.leads = true)
      (hb : f.cause.Blames turn.catalog turn.routine [] l) (hline : f.line = some l.line) :
      MetIn turn stop f
  | behind {rest : List Lexeme} {lead : Token} {instruction : Instruction}
      (hls : turn.lexemes = .token lead :: rest) (hl : lead.kind.leads = true)
      (hfind : turn.catalog.find? lead.kind = some instruction) (h : f.MetOn turn stop) :
      MetIn turn stop f

/-- A cursor stands where a statement may begin. -/
def Cursor.Begins (ls : List Lexeme) (c : Cursor) : Prop :=
  ∃ met, ls = met ++ c.rest ∧ Lexeme.BeginsLine met

/-- A cursor stands where a statement may begin, or at the end. -/
def Cursor.Ready (ls : List Lexeme) (c : Cursor) : Prop :=
  c.rest = [] ∨ c.Begins ls

namespace Cursor.Ready

variable {c d : Cursor} {t : Token}

theorem begins (h : c.Ready ls) (hn : c.rest ≠ []) : c.Begins ls :=
  h.resolve_left hn

/-- What leads no statement is passed over. -/
private theorem of_not_leads (h : c.Ready ls) (hn : Reader.next c = .ok (some t) d)
    (hk : ¬ t.kind.leads = true) : d.Ready ls := by
  obtain ⟨rest, hrest, rfl⟩ := Reader.next_eq_ok_some_iff.mp hn
  obtain ⟨met, hls, hmet⟩ := h.begins (by simp [hrest])
  have hleads : (Lexeme.token t).leads = false := Bool.eq_false_iff.mpr hk
  exact .inr ⟨met ++ [.token t], by simp [hls, hrest, past], hmet.concat hleads⟩

/-- Behind a statement a new line begins. -/
private theorem of_over {turn : Turn} (h : c.Begins ls) (hturn : turn.lexemes = c.rest)
    (hd : d.Over turn) : d.Ready ls := by
  obtain ⟨met, hls, -⟩ := h
  obtain ⟨token, ⟨before, htook⟩, hk⟩ := hd
  cases htook with
  | @token t _ hlater hline hl he =>
    refine .inr ⟨met ++ before.map .token ++ [.token t], by simp [hls, ← hturn, hlater], ?_⟩
    exact Lexeme.beginsLine_concat_lineEnd (by simpa [Lexeme.isLineEnd] using hk t rfl)
  | ended hlater hline hr he => exact .inl hr

end Cursor.Ready

section Turns

variable {routine : Option String} {c d : Cursor} {t : Token}

/-- The first token of a turn is pulled first. -/
private theorem Cursor.took_of_next (hn : Reader.next c = .ok (some t) d) :
    d.Took ⟨catalog, routine, c.rest⟩ [] (some t) := by
  obtain ⟨rest, hrest, rfl⟩ := Reader.next_eq_ok_some_iff.mp hn
  exact .token hrest (by simp) rfl rfl

/-- A stray character where a statement should begin. -/
private theorem Fault.metIn_of_next (hn : Reader.next c = .error f d) :
    c.rest ≠ [] ∧ f.MetIn ⟨catalog, routine, c.rest⟩ d := by
  cases hrest : c.rest with
  | nil =>
    rw [Reader.next_of_nil hrest] at hn
    cases hn
  | cons l rest =>
    unfold Reader.next at hn
    rw [hrest] at hn
    cases l with
    | token t => cases hn
    | stray ch line pos =>
      cases hn
      have hls : Lexeme.stray ch line pos :: rest = .stray ch line pos :: c.pull.rest := by
        simp [Cursor.pull, hrest]
      exact ⟨by simp, .first hls rfl rfl rfl⟩

/-- A word that leads nothing is met where a statement should begin. -/
private theorem Fault.metIn_unexpected (hn : Reader.next c = .ok (some t) d)
    (hk : t.kind.leads = true) :
    Fault.MetIn ⟨catalog, routine, c.rest⟩ d ⟨.unexpectedToken t.describe, some d.line, none⟩ := by
  obtain ⟨rest, hrest, rfl⟩ := Reader.next_eq_ok_some_iff.mp hn
  exact .first hrest hk rfl rfl

end Turns

private theorem Survey.reported_statement (catalog : Catalog) {s : Survey} {t : Token} {c : Cursor}
    (hn : Reader.next s.cursor = .ok (some t) c) (hk : t.kind.leads = true) :
    Reported cursor ⟨catalog, none, s.cursor.rest⟩
      (fun _ s' ↦ s'.cursor.Over ⟨catalog, none, s.cursor.rest⟩)
      (statement catalog t { s with cursor := c }) :=
  reports_statement (TokenKind.ne_newline_of_leads hk) _ (Cursor.took_of_next hn)

private theorem Emission.reported_statement (hc : catalog.Complete) (symbols : Symbols)
    {e : Emission} {t : Token} {c : Cursor} (hn : Reader.next e.cursor = .ok (some t) c)
    (hk : t.kind.leads = true) :
    Reported id ⟨catalog, e.routine, e.cursor.rest⟩
      (fun _ d ↦ d.Over ⟨catalog, e.routine, e.cursor.rest⟩)
      (catalog.emitStatement (e.context symbols) t c) :=
  Catalog.reports_emitStatement hc rfl (TokenKind.ne_newline_of_leads hk) _
    (Cursor.took_of_next hn)

/-- What leads no statement is surveyed without pulling anything. -/
private theorem Survey.exists_element_of_not_leads {t : Token} (hk : ¬ t.kind.leads = true)
    (s : Survey) : ∃ symbols, element catalog t s = .ok () ⟨s.cursor, symbols⟩ := by
  rcases TokenKind.cases_of_not_leads hk with hk | hk | hk | hk <;> simp only [element, hk] <;>
    exact ⟨_, rfl⟩

private theorem Survey.statement_of_none {t : Token} (h : catalog.find? t.kind = none) :
    statement catalog t = read (Reader.fail (.unexpectedToken t.describe)) := by
  unfold statement
  rw [h]

private theorem Catalog.emitStatement_of_none {ctx : Context} {t : Token}
    (h : catalog.find? t.kind = none) :
    catalog.emitStatement ctx t = Reader.fail (.unexpectedToken t.describe) := by
  unfold emitStatement
  rw [h]

/-- A survey fails in a statement or where one should begin. -/
theorem Survey.FailsIn.metIn {s : Survey} (h : FailsIn catalog f s start stop)
    (hs : s.cursor.Ready ls) : start.Begins ls ∧ f.MetIn ⟨catalog, none, start.rest⟩ stop := by
  induction h with
  | pull hn =>
    obtain ⟨hne, hmet⟩ := Fault.metIn_of_next hn
    exact ⟨hs.begins hne, hmet⟩
  | @element s s' t c hn he =>
    obtain ⟨rest, hrest, -⟩ := Reader.next_eq_ok_some_iff.mp hn
    refine ⟨hs.begins (by simp [hrest]), ?_⟩
    by_cases hk : t.kind.leads = true
    · rw [element_of_leads hk] at he
      cases hfind : catalog.find? t.kind with
      | none =>
        rw [statement_of_none hfind] at he
        cases he
        exact Fault.metIn_unexpected hn hk
      | some instruction =>
        have hreport := reported_statement catalog hn hk
        rw [he] at hreport
        cases hreport with
        | error hmet => exact .behind hrest hk hfind hmet
    · obtain ⟨symbols, hok⟩ := Survey.exists_element_of_not_leads hk { s with cursor := c }
      rw [hok] at he
      cases he
  | @later s s' t c _ _ hn he _ ih =>
    refine ih ?_
    by_cases hk : t.kind.leads = true
    · obtain ⟨rest, hrest, -⟩ := Reader.next_eq_ok_some_iff.mp hn
      rw [element_of_leads hk] at he
      have hreport := reported_statement catalog hn hk
      rw [he] at hreport
      cases hreport with
      | ok hover => exact .of_over (hs.begins (by simp [hrest])) rfl hover
    · obtain ⟨symbols, hok⟩ := Survey.exists_element_of_not_leads hk { s with cursor := c }
      rw [hok] at he
      cases he
      exact hs.of_not_leads hn hk

/-- An emission fails in a statement or where one should begin. -/
theorem Emission.FailsIn.metIn (hc : catalog.Complete) {symbols : Symbols} {e : Emission}
    {routine : Option String} (h : FailsIn catalog symbols f e routine start stop)
    (hready : e.cursor.Ready ls) :
    start.Begins ls ∧ f.MetIn ⟨catalog, routine, start.rest⟩ stop := by
  induction h with
  | pull hn =>
    obtain ⟨hne, hmet⟩ := Fault.metIn_of_next hn
    exact ⟨hready.begins hne, hmet⟩
  | @statement e t c stop hn hk hs =>
    obtain ⟨rest, hrest, -⟩ := Reader.next_eq_ok_some_iff.mp hn
    refine ⟨hready.begins (by simp [hrest]), ?_⟩
    cases hfind : catalog.find? t.kind with
    | none =>
      rw [catalog.emitStatement_of_none hfind] at hs
      cases hs
      exact Fault.metIn_unexpected hn hk
    | some instruction =>
      have hreport := reported_statement hc symbols hn hk
      rw [hs] at hreport
      cases hreport with
      | error hmet => exact .behind hrest hk hfind hmet
  | @behindMark e t c _ _ _ hn hk _ ih =>
    refine ih ?_
    rw [cursor_passing]
    exact hready.of_not_leads hn hk
  | @behindStatement e t c d _ _ lines _ hn hk hs _ ih =>
    refine ih ?_
    obtain ⟨rest, hrest, -⟩ := Reader.next_eq_ok_some_iff.mp hn
    have hreport := reported_statement hc symbols hn hk
    rw [hs] at hreport
    cases hreport with
    | ok hover => exact .of_over (hready.begins (by simp [hrest])) rfl hover

/-- A pass over a text fails in a statement or where one should begin. -/
theorem Listing.FailsIn.metIn (hc : catalog.Complete) {debug : Bool} {text : String}
    {routine : Option String} (h : FailsIn debug catalog text f routine start stop) :
    start.Begins (Lexeme.scan text) ∧ f.MetIn ⟨catalog, routine, start.rest⟩ stop := by
  have hready : (Cursor.ofText text).Ready (Lexeme.scan text) :=
    .inr ⟨[], rfl, Lexeme.beginsLine_nil⟩
  cases h with
  | survey h => exact h.metIn hready
  | emission _ h => exact h.metIn hc hready

end Walks

section Lines

variable {text : String}

/-- The line, counted from one, of the character at an offset. -/
def lineAt (text : String) (pos : Nat) : Nat :=
  1 + (text.toList.take pos).count '\n'

private theorem lineAt_le (text : String) (pos : Nat) : lineAt text pos ≤ lineCount text := by
  have hle : (text.toList.take pos).count '\n' ≤ text.toList.count '\n' :=
    (List.take_sublist pos text.toList).count_le '\n'
  unfold lineAt lineCount
  omega

namespace Lexeme

/-- A segment has as many line ends in it as it leaves. -/
private theorem count_chars_eq {segment : Segment} (line pos : Nat)
    (h : segment = .piece .newline ['\n'] ∨
      '\n' ∉ segment.chars ∧ ∀ piece, segment ≠ .piece .newline piece) :
    segment.chars.count '\n' = (ofSegment? line pos segment).toList.countP isLineEnd := by
  rcases h with rfl | ⟨hn, hne⟩
  · rfl
  · rw [List.count_eq_zero_of_not_mem hn]
    cases hl : ofSegment? line pos segment with
    | none => rfl
    | some l => simp [isLineEnd_of_ofSegment? hl hne]

/-- The line of a lexeme counts the line ends that were met before it. -/
private theorem line_eq_of_ofSegments {segments : List Segment} {line pos : Nat}
    {front back : List Lexeme} {l : Lexeme}
    (h : ∀ segment ∈ segments, segment = .piece .newline ['\n'] ∨
      '\n' ∉ segment.chars ∧ ∀ piece, segment ≠ .piece .newline piece)
    (hcut : ofSegments line pos segments = front ++ l :: back) :
    l.line = line + front.countP isLineEnd := by
  induction segments generalizing line pos front with
  | nil => simp [ofSegments] at hcut
  | cons segment rest ih =>
    obtain ⟨hs, hrest⟩ := List.forall_mem_cons.mp h
    have hcount := count_chars_eq line pos hs
    rw [ofSegments] at hcut
    cases hl : ofSegment? line pos segment with
    | none =>
      rw [hl] at hcut hcount
      rw [ih hrest hcut, hcount]
      rfl
    | some m =>
      rw [hl] at hcut hcount
      cases front with
      | nil =>
        obtain ⟨rfl, -⟩ := List.cons.inj hcut
        exact (line_pos_of_lexeme? (s := ⟨segment, line, pos⟩) hl).1
      | cons m' front =>
        obtain ⟨rfl, htail⟩ := List.cons.inj hcut
        rw [ih hrest htail, hcount, List.countP_cons, Option.toList_some, List.countP_singleton]
        omega

private theorem line_eq_countP {front back : List Lexeme} {l : Lexeme}
    (h : scan text = front ++ l :: back) : l.line = 1 + front.countP isLineEnd :=
  line_eq_of_ofSegments (fun _ ↦ Segment.eq_newline_or_not_mem) h

private theorem lineCount_eq_countP (text : String) :
    lineCount text = 1 + (scan text).countP isLineEnd := by
  -- A line end behind the text stands on its last line.
  have hlast := line_eq_countP (scan_newline text)
  change 1 + text.toList.count '\n' = _ at hlast
  rw [lineCount, Nat.add_comm, hlast]

/-- The first lexeme of a line that is no label, no routine header and no end of a routine. -/
structure LeadsLine (text : String) (l : Lexeme) : Prop where
  mem : l ∈ scan text
  leads : l.leads = true
  not_leads_before : ∀ m ∈ scan text, lineAt text m.pos = lineAt text l.pos → m.pos < l.pos →
    m.leads = false

private theorem lineAt_pos {l : Lexeme} (h : l ∈ scan text) : lineAt text l.pos = l.line :=
  (line_eq_count h).symm

private theorem leadsLine_of_beginsLine {met rest : List Lexeme} {l : Lexeme}
    (h : scan text = met ++ l :: rest) (hmet : BeginsLine met) (hl : l.leads = true) :
    LeadsLine text l where
  mem := by simp [h]
  leads := hl
  not_leads_before := by
    intro m hm hline hpos
    have hmem : l ∈ scan text := by simp [h]
    rw [lineAt_pos hm, lineAt_pos hmem] at hline
    obtain ⟨earlier, marks, rfl, hmarks, hlast⟩ := hmet
    have hpairs := pairwise_pos_scan text
    rw [h, List.pairwise_append] at hpairs
    rw [h, List.mem_append, List.mem_append, List.mem_cons] at hm
    rcases hm with (hm | hm) | rfl | hm
    · -- The line of what was met earlier is over.
      obtain ⟨front, back, rfl⟩ := List.append_of_mem hm
      have hend : 0 < (m :: back).countP isLineEnd := by
        have hne : m :: back ≠ [] := List.cons_ne_nil m back
        rw [List.getLast?_append_of_ne_nil front hne, List.getLast?_eq_some_getLast hne] at hlast
        exact List.countP_pos_iff.mpr ⟨_, List.getLast_mem hne, hlast _ rfl⟩
      have hlead := line_eq_countP h
      rw [List.append_assoc, List.append_assoc, List.cons_append] at h
      rw [line_eq_countP h, hlead, List.countP_append, List.countP_append] at hline
      omega
    · exact hmarks m hm
    · omega
    · have hlt := (List.pairwise_cons.mp hpairs.2.1).1 m hm
      omega

private theorem countP_isLineEnd_of_plain {line : List Token} (h : ∀ t ∈ line, t.kind ≠ .newline) :
    (line.map token).countP isLineEnd = 0 := by
  rw [List.countP_map, List.countP_eq_zero]
  intro t ht
  simpa [isLineEnd] using h t ht

/-- What follows a lexeme without a line end between them stands on its line. -/
private theorem lineAt_eq_of_plain {met rest : List Lexeme} {line : List Token} {l : Lexeme}
    (h : scan text = met ++ (line.map token ++ l :: rest)) (hline : ∀ u ∈ line, u.kind ≠ .newline) :
    lineAt text l.pos = 1 + met.countP isLineEnd := by
  rw [← List.append_assoc] at h
  rw [lineAt_pos (by simp [h]), line_eq_countP h, List.countP_append,
    countP_isLineEnd_of_plain hline, Nat.add_zero]

end Lexeme

/-- A text with a line end behind it has one as its last lexeme. -/
private theorem Lexeme.exists_scan_eq_concat (h : text.toList.getLast? = some '\n') :
    ∃ front t, scan text = front ++ [token t] ∧ t.kind = .newline := by
  have htext : text = .ofList text.toList.dropLast ++ "\n" := by
    apply String.toList_injective
    rw [String.toList_append, String.toList_ofList]
    exact (List.dropLast_append_getLast? _ h).symm
  rw [htext, scan_newline]
  exact ⟨_, _, rfl, rfl⟩

namespace Fault

variable {f : Fault} {turn : Turn} {stop : Cursor} {met : List Lexeme}

theorem MetOn.category_mem (h : f.MetOn turn stop) :
    f.cause.category ∈ [.lexical, .structural, .resolution, .semantic] := by
  cases h with
  | blamed _ _ hb _ => exact hb.category_mem
  | ended _ _ he _ => simp [he.category_eq]

theorem MetIn.category_mem (h : f.MetIn turn stop) :
    f.cause.category ∈ [.lexical, .structural, .resolution, .semantic] := by
  cases h with
  | first _ _ hb _ => exact hb.category_mem
  | behind _ _ _ h => exact h.category_mem

/-- A fault without a line is met behind an instruction word on the last line, which is not
ended. -/
theorem MetIn.exists_last_line (h : f.MetIn turn stop)
    (hscan : Lexeme.scan text = met ++ turn.lexemes) (hmet : Lexeme.BeginsLine met)
    (hf : f.line = none) :
    f.cause.MeetsEnd ∧ text.toList.getLast? ≠ some '\n' ∧
      ∃ lead instruction, Lexeme.LeadsLine text (.token lead) ∧
        turn.catalog.find? lead.kind = some instruction ∧
        lineAt text lead.pos = lineCount text := by
  cases h with
  | first _ _ _ hline =>
    rw [hf] at hline
    cases hline
  | @behind rest lead instruction hls hl hfind h =>
    cases h with
    | blamed _ _ _ hline =>
      rw [hf] at hline
      cases hline
    | @ended line hrest hline he _ =>
      rw [hls] at hscan hrest
      have hlead := Lexeme.leadsLine_of_beginsLine hscan hmet hl
      have hzero : (Lexeme.token lead :: rest).countP Lexeme.isLineEnd = 0 := by
        rw [hrest]
        exact Lexeme.countP_isLineEnd_of_plain hline
      refine ⟨he, ?_, lead, instruction, hlead, hfind, ?_⟩
      · intro hlast
        obtain ⟨front, t, hend, ht⟩ := Lexeme.exists_scan_eq_concat hlast
        have hend : (met ++ line.map Lexeme.token).getLast? = some (.token t) := by
          rw [← hrest, ← hscan, hend, List.getLast?_concat]
        have hne : line.map Lexeme.token ≠ [] := by simp [← hrest]
        rw [List.getLast?_append_of_ne_nil met hne] at hend
        obtain ⟨u, hu, hut⟩ := List.mem_map.mp (List.mem_of_getLast? hend)
        rw [Lexeme.token.inj hut] at hu
        exact hline t hu ht
      · change lineAt text (Lexeme.token lead).pos = _
        rw [Lexeme.lineAt_pos hlead.mem, Lexeme.line_eq_countP hscan, Lexeme.lineCount_eq_countP,
          hscan, List.countP_append, hzero, Nat.add_zero]

/-- A fault with a line is blamed on the last lexeme that was pulled, which is on that line. It is
the first thing on the line or stands behind the instruction word there. -/
theorem MetIn.exists_offender (h : f.MetIn turn stop)
    (hscan : Lexeme.scan text = met ++ turn.lexemes) (hmet : Lexeme.BeginsLine met) {n : Nat}
    (hf : f.line = some n) :
    ∃ (before : List Token) (offender : Lexeme),
      turn.lexemes = before.map .token ++ offender :: stop.rest ∧
      f.cause.Blames turn.catalog turn.routine before offender ∧ lineAt text offender.pos = n ∧
      ∃ lead ∈ (before.map Lexeme.token ++ [offender]).head?,
        Lexeme.LeadsLine text lead ∧ lineAt text lead.pos = n ∧ lead.pos ≤ offender.pos ∧
        (lead = offender ∨ ∃ t instruction, lead = .token t ∧
          turn.catalog.find? t.kind = some instruction) := by
  cases h with
  | @first l hls hl hb hline =>
    rw [hf, Option.some.injEq] at hline
    rw [hls] at hscan
    have hlead := Lexeme.leadsLine_of_beginsLine hscan hmet hl
    have hn : lineAt text l.pos = n := by rw [Lexeme.lineAt_pos hlead.mem, hline]
    exact ⟨[], l, hls, hb, hn, l, rfl, hlead, hn, Nat.le_refl _, .inl rfl⟩
  | @behind rest lead instruction hls hl hfind h =>
    cases h with
    | ended _ _ _ hline =>
      rw [hf] at hline
      cases hline
    | @blamed before l hrest hplain hb hline =>
      rw [hf, Option.some.injEq] at hline
      have hplace : Lexeme.scan text = met ++ (before.map .token ++ l :: stop.rest) := by
        rw [hscan, hrest]
      rw [hls] at hscan
      have hlead := Lexeme.leadsLine_of_beginsLine hscan hmet hl
      have hmem : l ∈ Lexeme.scan text := by simp [hplace]
      have hn : lineAt text l.pos = n := by rw [Lexeme.lineAt_pos hmem, hline]
      have hsame : lineAt text (Lexeme.token lead).pos = n := by
        rw [Lexeme.lineAt_pos hlead.mem, Lexeme.line_eq_countP hscan, ← hn,
          Lexeme.lineAt_eq_of_plain hplace hplain]
      refine ⟨before, l, hrest, hb, hn, .token lead, ?_, hlead, hsame, ?_,
        .inr ⟨lead, instruction, rfl, hfind⟩⟩
      · have hhead := congrArg List.head? (hls.symm.trans hrest)
        cases before <;> simpa using hhead.symm
      · rw [hls] at hrest
        cases before with
        | nil =>
          obtain ⟨rfl, -⟩ := List.cons.inj hrest
          exact Nat.le_refl _
        | cons u before =>
          have hpairs := Lexeme.pairwise_pos_scan text
          rw [hscan, List.pairwise_append, List.pairwise_cons] at hpairs
          obtain ⟨-, hlater⟩ := List.cons.inj hrest
          exact Nat.le_of_lt (hpairs.2.1.1 l (by simp [hlater]))

end Fault

/-- A text that cannot be assembled has a fault of one of four categories, never one of the catalog.
A fault without a line is met at the end of the text: the text does not end with a line feed, its
last line has an instruction word on it, and the message says so. A fault with a line is blamed on
the last lexeme that the failing pass has pulled, and that is on the line. The turn in which the
pass fails begins on the line as well, with the first thing there that is no label, routine header
or end of a routine. This is what is blamed, or else it is an instruction word. -/
theorem faults_are_on_their_lines (debug : Bool) (text : String) (f : Fault)
    (h : Listing.ofText debug text = .error f) :
    f.cause.category ∈ [.lexical, .structural, .resolution, .semantic] ∧
    (f.line = none →
      text.toList.getLast? ≠ some '\n' ∧
      (∃ lead instruction, Lexeme.LeadsLine text (.token lead) ∧
        Catalog.standard.find? lead.kind = some instruction ∧
        lineAt text lead.pos = 1 + text.toList.count '\n') ∧
      ∃ front, f.cause.message = front ++ "got EOF") ∧
    ∀ n, f.line = some n →
      1 ≤ n ∧ n ≤ 1 + text.toList.count '\n' ∧
      (∃ routine start stop, Listing.FailsIn debug .standard text f routine start stop) ∧
      ∀ routine start stop, Listing.FailsIn debug .standard text f routine start stop →
        ∃ (met : List Lexeme) (before : List Token) (offender : Lexeme),
          Lexeme.scan text = met ++ start.rest ∧
          start.rest = before.map .token ++ offender :: stop.rest ∧
          f.cause.Blames .standard routine before offender ∧ lineAt text offender.pos = n ∧
          ∃ lead ∈ (before.map Lexeme.token ++ [offender]).head?,
            Lexeme.LeadsLine text lead ∧ lineAt text lead.pos = n ∧ lead.pos ≤ offender.pos ∧
            (lead = offender ∨ ∃ t instruction, lead = .token t ∧
              Catalog.standard.find? t.kind = some instruction) := by
  obtain ⟨routine, start, stop, hfails⟩ := Listing.ofTextWith_eq_error_iff.mp h
  obtain ⟨⟨met, hscan, hmet⟩, hfault⟩ := hfails.metIn Catalog.standard_complete
  refine ⟨hfault.category_mem, fun hf ↦ ?_, fun n hf ↦ ?_⟩
  · obtain ⟨hend, hlast, lead, instruction, hlead, hfind, hline⟩ :=
      hfault.exists_last_line hscan hmet hf
    refine ⟨hlast, ⟨lead, instruction, hlead, hfind, ?_⟩, hend.exists_message⟩
    rw [hline, lineCount, Nat.add_comm]
  · obtain ⟨-, offender, -, -, hline, -⟩ := hfault.exists_offender hscan hmet hf
    have hle := lineAt_le text offender.pos
    refine ⟨?_, ?_, ⟨routine, start, stop, hfails⟩, fun routine start stop hfails ↦ ?_⟩
    · rw [← hline, lineAt]
      omega
    · rw [← hline]
      unfold lineCount at hle
      omega
    · obtain ⟨⟨met, hscan, hmet⟩, hfault⟩ := hfails.metIn Catalog.standard_complete
      obtain ⟨before, offender, hrest, hoffender⟩ := hfault.exists_offender hscan hmet hf
      exact ⟨met, before, offender, hscan, hrest, hoffender⟩

/-- A jump that lacks what it compares, at the end of a text and at the end of its line, which is
the last thing that is pulled. -/
theorem faults_are_on_their_lines_jump :
    let text := "set x 1\nl: jump l lessThan"
    let hint := some (.definition Control.jump.definition)
    Listing.ofText true text = .error ⟨.missingOperand "any", none, hint⟩ ∧
      (∃ lead instruction, Lexeme.LeadsLine text (.token lead) ∧
        Catalog.standard.find? lead.kind = some instruction ∧ lineAt text lead.pos = 2) ∧
      Listing.ofText false (text ++ "\n") = .error ⟨.misfitOperand "any" "newline", some 2, hint⟩ ∧
      ∃ (front : List Lexeme) (t : Token) (stop : Cursor),
        Lexeme.scan (text ++ "\n") = front ++ .token t :: stop.rest ∧ t.describe = "newline" ∧
        lineAt (text ++ "\n") t.pos = 2 := by
  intro text hint
  have hcut : Listing.ofText true text = .error ⟨.missingOperand "any", none, hint⟩ := by
    decide +kernel
  have hended : Listing.ofText false (text ++ "\n") =
      .error ⟨.misfitOperand "any" "newline", some 2, hint⟩ := by
    decide +kernel
  have hcount : 1 + text.toList.count '\n' = 2 := by decide +kernel
  obtain ⟨-, hlead, -⟩ := (faults_are_on_their_lines true text _ hcut).2.1 rfl
  rw [hcount] at hlead
  obtain ⟨-, -, ⟨routine, start, stop, hfails⟩, hoffender⟩ :=
    (faults_are_on_their_lines false (text ++ "\n") _ hended).2.2 2 rfl
  obtain ⟨met, before, offender, hscan, hrest, hblames, hline, -⟩ := hoffender _ _ _ hfails
  refine ⟨hcut, hlead, hended, ?_⟩
  cases offender with
  | stray => exact hblames.elim
  | token t =>
    rw [hrest, ← List.append_assoc] at hscan
    exact ⟨_, t, stop, hscan, hblames, hline⟩

end Lines

end MlogAsm
