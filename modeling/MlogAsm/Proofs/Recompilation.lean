import MlogAsm.Proofs.PlainOutput

/-!
# Recompilation

Code without jumps is a source text again. Its tokens are those of the statements it came from, in
other places, and the declarations and comments that it lacks do not matter: assembling it gives the
same code.
-/

namespace MlogAsm

/-- The kinds of the words that lead a jump, a call or a return. -/
def TokenKind.transfers : List TokenKind :=
  [keyword "JUMP", keyword "GOTO", keyword "GOSUB", keyword "RETURN"]

/-- A jump, a call or a return. -/
def Element.IsTransfer : Element → Prop
  | clause lead _ => lead.kind ∈ TokenKind.transfers
  | _ => False

instance : DecidablePred Element.IsTransfer
  | .clause lead _ => inferInstanceAs (Decidable (lead.kind ∈ TokenKind.transfers))
  | .declare _ _ _ => .isFalse id
  | .close => .isFalse id

namespace Statement

/-- A statement that is written as it runs. -/
def IsPlain : Statement → Prop
  | plain _ _ _ => True
  | _ => False

/-- The words of the line of a statement that is written as it runs. -/
def plainWords : Statement → List String
  | plain words _ operands => words ++ operands.map Token.value
  | _ => []

private theorem IsPlain.words_eq {s : Statement} (h : s.IsPlain) (index : Declared → String → Nat)
    (routine : Option String) (before : Nat) : s.words index routine before = [s.plainWords] := by
  cases s with
  | plain words slots operands => rfl
  | jumpAlways _ | jumpIf _ _ _ | goto _ | gosub _ | leave => cases h

/-- Only jumps, calls and returns are written in other words than they run. -/
theorem Written.isPlain {known : String → Prop} {s : Statement} {lead : Token} {rest : List Token}
    (h : s.Written .standard known (lead :: rest)) (hl : lead.kind ∉ TokenKind.transfers) :
    s.IsPlain := by
  have hforms : ∀ instruction ∈ Catalog.standard.instructions,
      instruction.leadWords = [] → instruction.token ∈ TokenKind.transfers := by decide
  have hcontrol {control : Control}
      (hf : Catalog.standard.find? lead.kind = some (.control control))
      (hc : control.form ≠ .compute) : False := by
    have hmem := hforms _ (List.mem_of_find?_eq_some hf) (if_neg hc)
    rw [Catalog.token_of_find? hf] at hmem
    exact hl hmem
  cases h with
  | operation _ _ | member _ _ _ | compute _ _ _ => trivial
  | jumpAlways hf hc _ _ | jumpIf hf hc _ _ _ | goto hf hc _ | gosub hf hc _ | leave hf hc =>
    exact hcontrol hf (by simp [hc])

private theorem Written.leads_of_isPlain {known : String → Prop} {s : Statement} {lead : Token}
    {rest : List Token} (h : s.Written .standard known (lead :: rest)) (hp : s.IsPlain) :
    lead.kind.leads = true := by
  cases s with
  | plain words slots operands => exact (h.kinds_of_plain.2.2 lead List.mem_cons_self).leads
  | jumpAlways _ | jumpIf _ _ _ | goto _ | gosub _ | leave => cases hp

/-- Two statements that are written as they run, and differ in the places of their operands only. -/
inductive Respelled : Statement → Statement → Prop where
  | plain {words : List String} {slots : List Slot} {operands operands' : List Token}
      (h : operands'.map Token.reading = operands.map Token.reading) :
      Respelled (plain words slots operands) (plain words slots operands')

end Statement

/-- What operands write to depends on what they are read as. -/
private theorem Slot.map_reading_targets (slots : List Slot) (ts : List Token) :
    (targets slots ts).map Token.reading =
      ((slots.zip (ts.map Token.reading)).filter fun x ↦ x.1.writes).map Prod.snd := by
  unfold targets
  rw [List.zip_map_right, List.filter_map, List.map_map, List.map_map]
  rfl

private theorem map_value_of_map_reading {ts us : List Token}
    (h : us.map Token.reading = ts.map Token.reading) :
    us.map Token.value = ts.map Token.value := by
  have hsnd := congrArg (List.map Prod.snd) h
  rw [List.map_map, List.map_map] at hsnd
  exact hsnd

namespace Statement.Respelled

variable {s s' : Statement}

private theorem isPlain (h : Respelled s s') : s'.IsPlain := by
  cases h
  trivial

private theorem plainWords_eq (h : Respelled s s') : s'.plainWords = s.plainWords := by
  cases h with
  | plain h => rw [plainWords, plainWords, map_value_of_map_reading h]

theorem targets_eq (h : Respelled s s') :
    s'.targets.map Token.reading = s.targets.map Token.reading := by
  cases h with
  | plain h => rw [targets, targets, Slot.map_reading_targets, Slot.map_reading_targets, h]

/-- The same names are written. -/
theorem writes_iff (h : Respelled s s') {name : String} :
    (∃ t ∈ s'.targets, t.kind = .name ∧ t.value = name) ↔
      ∃ t ∈ s.targets, t.kind = .name ∧ t.value = name := by
  have hmem (ts : List Token) : (∃ t ∈ ts, t.kind = .name ∧ t.value = name) ↔
      (TokenKind.name, name) ∈ ts.map Token.reading := by
    simp [Token.reading]
  rw [hmem, hmem, h.targets_eq]

/-- Statements that differ in places only have the same lines. -/
theorem forall_isPlain {ss ss' : List Statement} (h : List.Forall₂ Respelled ss ss') :
    (∀ s ∈ ss', s.IsPlain) ∧ ss'.map plainWords = ss.map plainWords := by
  induction h with
  | nil => exact ⟨by simp, rfl⟩
  | cons hs _ ih =>
    refine ⟨List.forall_mem_cons.mpr ⟨hs.isPlain, ih.1⟩, ?_⟩
    rw [List.map_cons, List.map_cons, hs.plainWords_eq, ih.2]

end Statement.Respelled

section Respelling

variable {catalog : Catalog} {known : String → Prop} {text : String}

/-- Tokens that are read like the line of a statement spell the statement. -/
private theorem Statement.Written.exists_respelled {s : Statement} {lead : Token}
    {rest line : List Token} (h : s.Written catalog known (lead :: rest)) (hp : s.IsPlain)
    (hs : catalog.WellSpelled) (htext : ∀ t ∈ lead :: rest, Lexeme.token t ∈ Lexeme.scan text)
    (hline : line.map Token.reading = s.plainWords.flatMap fun w ↦ readings w.toList) :
    ∃ lead' rest' s', line = lead' :: rest' ∧ lead'.kind = lead.kind ∧
      s'.Written catalog known (lead' :: rest') ∧ Respelled s s' := by
  cases s with
  | jumpAlways _ | jumpIf _ _ _ | goto _ | gosub _ | leave => cases hp
  | plain words slots operands =>
    obtain ⟨heads, hcut, hheads, hwritten⟩ := h.exists_heads hs
    have hspells : List.Forall₂ Spells (operands.map Token.value) (operands.map Token.kind) :=
      h.fills_of_plain.forall₂_spells fun t ht ↦ htext t (by rw [hcut]; simp [ht])
    have hvalues : (operands.map Token.kind).zip (operands.map Token.value) =
        operands.map Token.reading := List.zip_map'
    rw [plainWords, List.flatMap_append, (flatMap_readings_of_spells hheads).2,
      (flatMap_readings_of_spells hspells).2, hvalues] at hline
    obtain ⟨heads', operands', hcut', hheads', hoperands'⟩ := List.map_eq_append_iff.mp hline
    have hkinds : heads'.map Token.kind = heads.map Token.kind := by
      have hfst := congrArg (List.map Prod.fst) hheads'
      rw [List.map_map, List.map_fst_zip hheads.length_eq.ge] at hfst
      exact hfst
    have hw := hwritten heads' operands' hkinds hoperands'
    rw [← hcut'] at hw
    have hall : line.map Token.kind = (lead :: rest).map Token.kind := by
      have hothers : operands'.map Token.kind = operands.map Token.kind := by
        have hfst := congrArg (List.map Prod.fst) hoperands'
        rw [List.map_map, List.map_map] at hfst
        exact hfst
      rw [hcut', hcut, List.map_append, List.map_append, hkinds, hothers]
    obtain ⟨lead', rest', hcons, hlead, _⟩ := List.map_eq_cons_iff.mp hall
    rw [hcons] at hw
    exact ⟨lead', rest', _, hcons, hlead, hw, .plain hoperands'⟩

/-- Lines that are read like the lines of statements spell the statements. -/
private theorem exists_respelled_of_lines {ss : List Statement} {lines : List (List Token)}
    (h : ∀ s ∈ ss, s.IsPlain ∧ ∃ lead rest, s.Written .standard known (lead :: rest) ∧
      ∀ t ∈ lead :: rest, Lexeme.token t ∈ Lexeme.scan text)
    (hlines : lines.map (List.map Token.reading) =
      ss.map fun s ↦ s.plainWords.flatMap fun w ↦ readings w.toList) :
    ∃ ss', List.Forall₂ (Item.Written .standard known) (ss'.map .statement)
        (lines.flatMap Element.ofLine) ∧ List.Forall₂ Statement.Respelled ss ss' := by
  induction ss generalizing lines with
  | nil =>
    rw [List.map_nil, List.map_eq_nil_iff] at hlines
    rw [hlines]
    exact ⟨[], .nil, .nil⟩
  | cons s ss ih =>
    obtain ⟨⟨hplain, lead, rest, hw, htext⟩, hss⟩ := List.forall_mem_cons.mp h
    obtain ⟨line, others, hcons, hline, hothers⟩ := List.map_eq_cons_iff.mp hlines
    obtain ⟨lead', rest', s', hline', hlead, hw', hr⟩ :=
      hw.exists_respelled hplain Catalog.standard_wellSpelled htext hline
    obtain ⟨ss', hwritten, hrespelled⟩ := ih hss hothers
    have hleads : lead'.kind.leads = true := by
      rw [hlead]
      exact hw.leads_of_isPlain hplain
    refine ⟨s' :: ss', ?_, .cons hr hrespelled⟩
    rw [hcons, List.flatMap_cons, hline', Element.ofLine_of_leads hleads]
    exact .cons (.statement hw') hwritten

end Respelling

namespace Program

variable {p : Program} {text : String}

/-- The lines of a program whose statements are written as they run. -/
theorem lines_of_isPlain (h : ∀ s ∈ p.statements, s.IsPlain) :
    p.lines false = p.statements.map fun s ↦ " ".intercalate s.plainWords := by
  have hfrom (xs : List Placed) (before : Nat) (hxs : ∀ x ∈ xs, x.statement.IsPlain) :
      Placed.linesFrom p.lineIndex false before xs =
        xs.map fun x ↦ " ".intercalate x.statement.plainWords := by
    induction xs generalizing before with
    | nil => rfl
    | cons x xs ih =>
      obtain ⟨hx, hxs⟩ := List.forall_mem_cons.mp hxs
      rw [Placed.linesFrom, ih _ hxs, Placed.lines, hx.words_eq]
      rfl
  have hmap := map_statement_placedFrom none none p
  rw [lines, hfrom, ← hmap, List.map_map]
  · rfl
  · intro x hx
    apply h
    rw [← hmap]
    exact List.mem_map_of_mem hx

private theorem statements_map_statement (ss : List Statement) :
    statements (ss.map .statement) = ss := by
  induction ss with
  | nil => rfl
  | cons s ss ih => rw [List.map_cons, statements_statement, ih]

/-- Statements that are written as they run need no names. -/
theorem resolved_of_isPlain (h : ∀ s ∈ p.statements, s.IsPlain) : p.Resolved := by
  intro x hx
  have hmem : x.statement ∈ p.statements := by
    rw [← map_statement_placedFrom none none p]
    exact List.mem_map_of_mem hx
  have hplain := h _ hmem
  cases hs : x.statement with
  | plain words slots operands => trivial
  | jumpAlways _ | jumpIf _ _ _ | goto _ | gosub _ | leave =>
    rw [hs] at hplain
    cases hplain

/-- Programs whose statements write the same names in order write the same names. -/
private theorem writes_iff_of_respelled {q : Program}
    (h : List.Forall₂ Statement.Respelled p.statements q.statements) (name : String) :
    q.Writes name ↔ p.Writes name := by
  unfold Writes
  generalize p.statements = ss at h ⊢
  generalize q.statements = ss' at h ⊢
  induction h with
  | nil => simp
  | cons hs _ ih =>
    rw [List.exists_mem_cons_iff, List.exists_mem_cons_iff, hs.writes_iff, ih]

/-- A text without jumps, calls and returns spells a program that is written as it runs. -/
theorem Reads.isPlain (hp : p.Reads .standard text)
    (h : ∀ e ∈ elements text, ¬ e.IsTransfer) : ∀ s ∈ p.statements, s.IsPlain := by
  intro s hs
  obtain ⟨ts, hts, hw⟩ := hp
  obtain ⟨e, he, hwritten⟩ := exists_element_of_mem hw (mem_statements.mp hs)
  rw [← elements_of_scan hts] at he
  cases hwritten with
  | statement hw => exact hw.isPlain (h _ he)

/-- A statement that is written as it runs is made of words. -/
private theorem Reads.solid_plainWords (hp : p.Reads .standard text) {s : Statement}
    (hs : s ∈ p.statements) (h : s.IsPlain) : ∀ w ∈ s.plainWords, Solid w.toList := by
  obtain ⟨lead, rest, hw, htext⟩ := hp.exists_written hs
  have hcode : ∀ ws ∈ s.words (fun _ _ ↦ 0) none 0, CodeWords 0 ws := by
    refine hw.codeWords htext (fun hl ↦ ?_) fun _ _ ↦ Nat.le_refl 0
    rw [hl] at h
    cases h
  rw [h.words_eq, List.forall_mem_singleton] at hcode
  exact hcode.solid

/-- What is read on the lines of the code, with or without debug comments. -/
private theorem Reads.readings_lines {a : Assembly} (hp : p.Reads .standard text)
    (ha : Assembly.ofText text = .ok a) (hlines : a.lines false = p.lines false)
    (h : ∀ s ∈ p.statements, s.IsPlain) (debug : Bool) :
    (a.lines debug).map (fun line ↦ readings line.toList) =
      p.statements.map fun s ↦ s.plainWords.flatMap fun w ↦ readings w.toList := by
  have hdebug : (a.lines debug).map (fun line ↦ readings line.toList) =
      (a.lines false).map fun line ↦ readings line.toList := by
    rw [Assembly.lines, Assembly.lines, List.map_map, List.map_map]
    apply List.map_congr_left
    intro line hl
    exact (Assembly.readings_render ha debug hl).1
  rw [hdebug, hlines, lines_of_isPlain h, List.map_map]
  apply List.map_congr_left
  intro s hs
  exact readings_intercalate (hp.solid_plainWords hs (h s hs))

/-- The code of a program that is written as it runs spells a program with the same statements. -/
theorem Reads.exists_reads_text {a : Assembly} (hp : p.Reads .standard text)
    (ha : Assembly.ofText text = .ok a) (hlines : a.lines false = p.lines false)
    (h : ∀ s ∈ p.statements, s.IsPlain) (debug : Bool) :
    ∃ q : Program, q.Reads .standard (a.text debug) ∧
      List.Forall₂ Statement.Respelled p.statements q.statements := by
  obtain ⟨ts, lines, hscan, _, _, hcut, hread⟩ := Assembly.exists_tokens_text ha debug
  rw [hp.readings_lines ha hlines h debug] at hread
  obtain ⟨ss, hwritten, hrespelled⟩ := exists_respelled_of_lines
    (fun s hs ↦ ⟨h s hs, hp.exists_written hs⟩) hread
  have hstatements : p.statements.Forall₂ Statement.Respelled (statements (ss.map .statement)) := by
    rw [statements_map_statement]
    exact hrespelled
  -- No declaration is left, but the variables are the same.
  have hknown : p.Writes = Writes (ss.map .statement) :=
    funext fun name ↦ propext (writes_iff_of_respelled hstatements name).symm
  have houtline : outline ts = lines.flatMap Element.ofLine := by
    rw [outline, hcut, List.flatMap_append]
    exact List.append_nil _
  refine ⟨ss.map .statement, ⟨ts, hscan, ?_⟩, hstatements⟩
  rw [← hknown, houtline]
  exact hwritten

end Program

/-- Assembling the code of a text without jumps, calls and returns gives the same code, whether or
not it has debug comments. -/
theorem recompilation_is_fixpoint (text : String) (a : Assembly) (h : Assembly.ofText text = .ok a)
    (hplain : ∀ e ∈ elements text, ¬ e.IsTransfer) (debug : Bool) :
    (Assembly.ofText (a.text debug)).map (Assembly.text false) = .ok (a.text false) := by
  obtain ⟨p, hp, _, hlines⟩ := Assembly.exists_reads_lines_eq h
  have hp' := hp.isPlain hplain
  obtain ⟨q, hq, hrespelled⟩ := hp.exists_reads_text h (hlines false) hp' debug
  obtain ⟨hq', hwords⟩ := Statement.Respelled.forall_isPlain hrespelled
  obtain ⟨b, hb⟩ := hq.exists_ofTextWith Catalog.standard_regular (Program.resolved_of_isPlain hq')
  have hb' : Assembly.ofText (a.text debug) = .ok b := hb
  obtain ⟨r, hr, _, hblines⟩ := Assembly.exists_reads_lines_eq hb'
  have hsame : b.lines false = a.lines false := by
    have hjoin := congrArg (List.map " ".intercalate) hwords
    rw [List.map_map, List.map_map] at hjoin
    rw [hblines, ← hq.unique hr, hlines, Program.lines_of_isPlain hq', Program.lines_of_isPlain hp']
    exact hjoin
  rw [hb', Except.map, Assembly.text, hsame]
  rfl

/-- Tokens that touch each other in the source, a routine that is called like a number, and a
variable that is read before it is written. -/
theorem recompilation_is_fixpoint_touching :
    let text :=
      "routine 7: x: op add@a_b-2 # y\ndraw line 1-2 3-4\nset _b\"# \\\"\"\nendroutine end"
    let code := "op add @a _b -2\ndraw line 1 -2 3 -4\nset _b \"# \\\"\"\nend\n"
    let debugged := "op add @a _b -2 # label x\ndraw line 1 -2 3 -4\nset _b \"# \\\"\"\nend\n"
    (Assembly.ofText text).map (Assembly.text true) = .ok debugged ∧
      (∀ e ∈ elements text, ¬ e.IsTransfer) ∧
      (Assembly.ofText debugged).map (Assembly.text false) = .ok code := by
  intro text code debugged
  have hdebugged : (Assembly.ofText text).map (Assembly.text true) = .ok debugged := by
    decide +kernel
  have hcode : (Assembly.ofText text).map (Assembly.text false) = .ok code := by decide +kernel
  have hplain : ∀ e ∈ elements text, ¬ e.IsTransfer := by decide +kernel
  refine ⟨hdebugged, hplain, ?_⟩
  cases ha : Assembly.ofText text with
  | error f =>
    rw [ha] at hcode
    cases hcode
  | ok a =>
    rw [ha] at hdebugged hcode
    have h := recompilation_is_fixpoint text a ha hplain true
    rwa [show a.text true = debugged from Except.ok.inj hdebugged,
      show a.text false = code from Except.ok.inj hcode] at h

end MlogAsm
