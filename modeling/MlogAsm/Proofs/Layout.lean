import MlogAsm.Proofs.SurveyOutline
import MlogAsm.Proofs.Visits

/-!
# Layout

A survey counts lines by what instructions declare, and an emission gives them. The two walk over
the text in different ways: the survey leaves a statement at the end of its line, while the emission
may take more line ends with the slots that stay empty. They agree all the same, for every catalog
in which no value leads a statement: there are as many lines as the survey counts, and every name
stands for the line that comes next where the emission meets its last declaration.
-/

namespace MlogAsm

/-- The kind of the token that declares something. -/
def Declared.kind : Declared → TokenKind
  | label => .label
  | routine => .routine

theorem Declared.kind_injective {what what' : Declared} (h : what.kind = what'.kind) :
    what = what' := by
  cases what <;> cases what' <;> simp_all [kind]

namespace Visit

/-- The turn is a declaration of a name. -/
def Declares (what : Declared) (name : String) (v : Visit) : Prop :=
  v.token.kind = what.kind ∧ v.token.value = name

instance (what : Declared) (name : String) (v : Visit) : Decidable (v.Declares what name) :=
  inferInstanceAs (Decidable (_ ∧ _))

private theorem kind_eq_of_declares {what : Declared} {name : String} {v : Visit}
    (h : v.Declares what name) : v.token.kind = .label ∨ v.token.kind = .routine := by
  cases what with
  | label => exact .inl h.1
  | routine => exact .inr h.1

/-- The turn is a statement. -/
def IsStatement (v : Visit) : Prop :=
  v.token.kind.leads = true

instance (v : Visit) : Decidable v.IsStatement :=
  inferInstanceAs (Decidable (_ = true))

end Visit

/-- No instruction is led by what may stand in a slot. -/
def Catalog.LeadsNoValue (catalog : Catalog) : Prop :=
  ∀ instruction ∈ catalog.instructions, instruction.token.isValue = false

instance (catalog : Catalog) : Decidable catalog.LeadsNoValue :=
  inferInstanceAs (Decidable (∀ instruction ∈ catalog.instructions, _))

theorem Catalog.token_of_find? {catalog : Catalog} {kind : TokenKind} {instruction : Instruction}
    (h : catalog.find? kind = some instruction) : instruction.token = kind := by
  simpa using List.find?_some h

/-- What was surveyed begins no line with a value. -/
private theorem Survey.Gathers.noValueLeads {catalog : Catalog} (hc : catalog.LeadsNoValue)
    {s s' : Symbols} {es : List Element} (h : Gathers catalog s es s') : NoValueLeads es := by
  induction h with
  | done => simp [NoValueLeads]
  | declare _ ih =>
    intro lead operands hm
    exact ih lead operands (by simpa using hm)
  | close _ ih =>
    intro lead operands hm
    exact ih lead operands (by simpa using hm)
  | clause hl _ _ _ _ ih =>
    intro lead operands hm
    rcases List.mem_cons.mp hm with he | hm
    · cases he
      rw [← Catalog.token_of_find? hl]
      exact hc _ (List.mem_of_find?_eq_some hl)
    · exact ih lead operands hm

/-- A statement gives at least one line. -/
private theorem Statement.code?_ne_nil {ctx : Context} {s : Statement} {lines : List CodeLine}
    (h : s.code? ctx = some lines) : lines ≠ [] := by
  rintro rfl
  cases s with
  | plain words slots operands => simp [code?] at h
  | jumpAlways label => simp [code?] at h
  | jumpIf label operator operands => simp [code?] at h
  | goto label => simp [code?] at h
  | gosub routine =>
    simp only [code?] at h
    split at h
    · cases h
    · simp at h
  | leave => simp [code?] at h

namespace Emission

variable {catalog : Catalog} {symbols : Symbols}

/-- What a survey adds to its symbols, against the turns of an emission over the same elements. -/
structure Agrees (before after : Symbols) (visits : List Visit) : Prop where
  size_eq : after.size = before.size + (visits.flatMap Visit.lines).length
  get?_table : ∀ what name, (after.table what).get? name =
    ((visits.reverse.find? fun v ↦ v.Declares what name).map fun v ↦ (v.emitted : Int)).or
      ((before.table what).get? name)
  lines_ne_nil : ∀ v ∈ visits, v.IsStatement → v.lines ≠ []

/-- A turn without a declaration leaves the tables as they are. -/
theorem Agrees.cons {before before' after : Symbols} {visits : List Visit} {v : Visit}
    (h : Agrees before' after visits) (ht : before'.table = before.table)
    (hv : ∀ what name, ¬ v.Declares what name)
    (hn : before'.size = before.size + v.lines.length) (hs : v.IsStatement → v.lines ≠ []) :
    Agrees before after (v :: visits) where
  size_eq := by
    rw [h.size_eq, hn, List.flatMap_cons, List.length_append, Int.natCast_add, Int.add_assoc]
  get?_table what name := by
    rw [h.get?_table, ht, List.reverse_cons, List.find?_append]
    simp [hv what name]
  lines_ne_nil := List.forall_mem_cons.mpr ⟨hs, h.lines_ne_nil⟩

theorem Agrees.declare {before after : Symbols} {visits : List Visit} {t : Token} {n : Nat}
    {what : Declared} (hk : t.kind = what.kind) (hn : before.size = n)
    (h : Agrees (before.declare what t.value t.line) after visits) :
    Agrees before after (⟨t, n, []⟩ :: visits) where
  size_eq := by simpa using h.size_eq
  get?_table what' name := by
    rw [h.get?_table, Symbols.get?_table_declare, List.reverse_cons, List.find?_append, hn]
    by_cases hd : what' = what ∧ name = t.value
    · obtain ⟨rfl, rfl⟩ := hd
      have hv : Visit.Declares what' t.value ⟨t, n, []⟩ := ⟨hk, rfl⟩
      cases hf : visits.reverse.find? fun v ↦ v.Declares what' t.value with
      | none => simp [hv]
      | some v => simp
    · have hv : ¬ Visit.Declares what' name ⟨t, n, []⟩ := by
        rintro ⟨hk', rfl⟩
        refine hd ⟨?_, rfl⟩
        rw [hk] at hk'
        exact Declared.kind_injective hk'.symm
      simp [hd, hv]
  lines_ne_nil := by
    refine List.forall_mem_cons.mpr ⟨fun hs ↦ ?_, h.lines_ne_nil⟩
    rw [Visit.IsStatement, hk] at hs
    cases what <;> cases hs

/-- The two walks stay together. The invariant is that what is left of the text has the same outline
for both, and that the lines counted so far are those given so far. -/
theorem Visits.agrees (hc : catalog.LeadsNoValue) {s : Emission} {visits : List Visit}
    (hv : Visits catalog symbols s visits) {ts : List Token} {before after : Symbols}
    (hr : s.cursor.rest = ts.map .token) (hn : before.size = s.emitted)
    (hg : Survey.Gathers catalog before (outline ts) after) : Agrees before after visits := by
  induction hv generalizing ts before with
  | finished hnext =>
    obtain ⟨hnil, -⟩ := Reader.next_eq_ok_none_iff.mp hnext
    rw [hr] at hnil
    rw [List.map_eq_nil_iff.mp hnil, outline_nil] at hg
    cases hg
    exact ⟨by simp, by simp, by simp⟩
  | newline hnext hk _ ih =>
    obtain ⟨us, rfl, rfl⟩ := Reader.next_of_rest_eq hr hnext
    rw [outline_newline hk] at hg
    exact ih rfl hn hg
  | mark hnext hm _ ih =>
    obtain ⟨us, rfl, rfl⟩ := Reader.next_of_rest_eq hr hnext
    rcases marked?_eq_some_iff.mp hm with ⟨hk, rfl⟩ | ⟨hk, rfl⟩ | ⟨hk, rfl⟩
    · rw [outline_label hk] at hg
      cases hg with
      | declare hg =>
        exact Agrees.declare (by rw [hk]; rfl) hn (ih rfl (by simpa using hn) hg)
    · rw [outline_routine hk] at hg
      cases hg with
      | declare hg =>
        exact Agrees.declare (by rw [hk]; rfl) hn (ih rfl (by simpa using hn) hg)
    · rw [outline_endRoutine hk] at hg
      cases hg with
      | close hg =>
        refine (ih rfl hn hg).cons rfl ?_ (by simp) fun hs ↦ ?_
        · rintro what name ⟨hk', -⟩
          rw [hk] at hk'
          cases what <;> cases hk'
        · rw [Visit.IsStatement, hk] at hs
          cases hs
  | @statement s c d t lines visits hnext hk he _ ih =>
    obtain ⟨us, rfl, rfl⟩ := Reader.next_of_rest_eq hr hnext
    obtain ⟨line, rest, rfl, hp, ho⟩ := exists_line us
    rw [outline_clause hk hp ho] at hg
    cases hg with
    | @clause _ _ _ _ args slots instruction _ hl _ _ _ hg =>
      have hw := Cursor.within_past hk hp ho
      obtain ⟨instruction', st, hl', -, hcode, hlen, -, ws, hws, hout⟩ :=
        Catalog.emitStatement_within hw (.inl (hg.noValueLeads hc)) he
      rw [hl] at hl'
      cases hl'
      rw [← hout] at hg
      have hsize : (before.addLines instruction.emits).size = (s.emitted + lines.length : Nat) := by
        rw [Symbols.size_addLines, hn, ← hlen, Int.natCast_add]
      have ha := ih hws (by simpa using hsize) hg
      have hne : s.noted lines ≠ [] := by
        intro hnil
        have hnl := length_noted s lines
        rw [hnil] at hnl
        exact Statement.code?_ne_nil hcode (List.eq_nil_of_length_eq_zero hnl.symm)
      refine ha.cons ?_ ?_ ?_ fun _ ↦ hne
      · funext what
        simp
      · rintro what name ⟨hk', -⟩
        rw [hk'] at hk
        cases what <;> cases hk
      · rw [Symbols.size_addTargets, hsize, hn, length_noted, Int.natCast_add]

private theorem emitted_of_marked? {s s' : Emission} {t : Token} {c : Cursor}
    (h : s.marked? t c = some s') : s'.emitted = s.emitted := by
  rcases marked?_eq_some_iff.mp h with ⟨-, rfl⟩ | ⟨-, rfl⟩ | ⟨-, rfl⟩ <;> rfl

/-- A turn knows how many lines were given before it. -/
theorem Visits.emitted_eq {s : Emission} {visits before after : List Visit} {v : Visit}
    (h : Visits catalog symbols s visits) (he : visits = before ++ v :: after) :
    v.emitted = s.emitted + (before.flatMap Visit.lines).length := by
  induction h generalizing before with
  | finished => simp at he
  | newline _ _ _ ih => exact ih he
  | mark _ hm _ ih =>
    cases before with
    | nil =>
      cases he
      rfl
    | cons u before =>
      cases he
      rw [ih rfl, emitted_of_marked? hm]
      simp
  | statement _ _ _ _ ih =>
    cases before with
    | nil =>
      cases he
      rfl
    | cons u before =>
      cases he
      rw [ih rfl, List.flatMap_cons, List.length_append, length_noted, Nat.add_assoc]

/-- Only statements give lines. -/
private theorem Visits.lines_eq_nil {s : Emission} {visits : List Visit}
    (h : Visits catalog symbols s visits) {v : Visit} (hv : v ∈ visits) (hs : ¬ v.IsStatement) :
    v.lines = [] := by
  induction h with
  | finished => cases hv
  | newline _ _ _ ih => exact ih hv
  | mark _ _ _ ih =>
    rcases List.mem_cons.mp hv with rfl | hv
    · rfl
    · exact ih hv
  | statement _ hk _ _ ih =>
    rcases List.mem_cons.mp hv with rfl | hv
    · exact absurd hk hs
    · exact ih hv

end Emission

namespace Visit

/-- The line at an index is the first one of the first statement among some turns. If there is no
statement among them, the index is that of the end. -/
def FirstLineAt (debug : Bool) (symbols : Symbols) (code : List CodeLine) (index : Nat)
    (visits : List Visit) : Prop :=
  ((∀ v ∈ visits, ¬ v.IsStatement) ∧ (index : Int) = symbols.size) ∨
  ∃ skipped v rest line, visits = skipped ++ v :: rest ∧ (∀ u ∈ skipped, ¬ u.IsStatement) ∧
    v.IsStatement ∧ v.lines.head? = some line ∧
    (code.map (CodeLine.render debug))[index]? = some (line.render debug)

private theorem not_isStatement_of_declares {what : Declared} {name : String} {v : Visit}
    (h : v.Declares what name) : ¬ v.IsStatement := by
  intro hs
  unfold IsStatement at hs
  rcases kind_eq_of_declares h with hk | hk <;>
  · rw [hk] at hs
    cases hs

end Visit

namespace Emission

variable {catalog : Catalog} {symbols : Symbols} {s : Emission} {visits : List Visit}

private theorem Visits.flatMap_lines_eq_nil (h : Visits catalog symbols s visits)
    {part : List Visit} (hp : ∀ v ∈ part, v ∈ visits) (hs : ∀ v ∈ part, ¬ v.IsStatement) :
    part.flatMap Visit.lines = [] := by
  rw [List.flatMap_eq_nil_iff]
  intro v hv
  exact h.lines_eq_nil (hp v hv) (hs v hv)

/-- What comes next after a declaration is the first line of the first statement behind it. -/
theorem Visits.firstLineAt {before after : List Visit} {v : Visit} {what : Declared} {name : String}
    (h : Visits catalog symbols s visits) (hz : s.emitted = 0)
    (ha : Agrees .empty symbols visits) (hsplit : visits = before ++ v :: after)
    (hv : v.Declares what name) (debug : Bool) :
    Visit.FirstLineAt debug symbols (visits.flatMap Visit.lines) v.emitted after := by
  have hindex : v.emitted = (before.flatMap Visit.lines).length := by
    rw [h.emitted_eq hsplit, hz, Nat.zero_add]
  have hnone : v.lines = [] :=
    h.lines_eq_nil (by simp [hsplit]) (Visit.not_isStatement_of_declares hv)
  cases hf : after.find? fun u ↦ u.IsStatement with
  | none =>
    have hs : ∀ u ∈ after, ¬ u.IsStatement := by simpa using List.find?_eq_none.mp hf
    have hrest : after.flatMap Visit.lines = [] :=
      h.flatMap_lines_eq_nil (fun u hu ↦ by simp [hsplit, hu]) hs
    refine .inl ⟨hs, ?_⟩
    rw [ha.size_eq, hindex, hsplit, List.flatMap_append, List.flatMap_cons, hnone, hrest]
    simp [Symbols.empty]
  | some u =>
    obtain ⟨hu, skipped, rest, rfl, hs⟩ := List.find?_eq_some_iff_append.mp hf
    have hu : u.IsStatement := by simpa using hu
    have hs : ∀ w ∈ skipped, ¬ w.IsStatement := by simpa using hs
    have hrest : skipped.flatMap Visit.lines = [] :=
      h.flatMap_lines_eq_nil (fun w hw ↦ by simp [hsplit, hw]) hs
    obtain ⟨line, lines, hl⟩ := List.exists_cons_of_ne_nil
      (ha.lines_ne_nil u (by simp [hsplit]) hu)
    refine .inr ⟨skipped, u, rest, line, rfl, hs, hu, by rw [hl]; rfl, ?_⟩
    rw [List.getElem?_map, hindex, hsplit, List.flatMap_append, List.flatMap_cons,
      List.flatMap_append, List.flatMap_cons, hnone, hrest, hl]
    simp

end Emission

/-- No instruction of the processor language is led by a value. -/
theorem Catalog.standard_leadsNoValue : standard.LeadsNoValue := by
  decide

/-- The survey and the emission of a text agree on where lines stand, with any catalog in which no
value leads a statement: there are as many lines as were counted, and a name has the index that the
emission has come to at its last declaration, which is that of the first line of the next statement,
or the number of all lines if there is none. -/
theorem survey_agrees_with_emission :
    Catalog.standard.LeadsNoValue ∧
    ∀ (catalog : Catalog) (text : String) (symbols : Symbols) (code : List CodeLine) (debug : Bool),
      catalog.LeadsNoValue → Symbols.survey catalog text = .ok symbols →
      CodeLine.emit catalog symbols text = .ok code →
      ((code.map (CodeLine.render debug)).length : Int) = symbols.size ∧
      ∃ visits, Emission.Visits catalog symbols (.start true text) visits ∧
        code = visits.flatMap Visit.lines ∧
        ∀ what name,
          ((symbols.table what).contains name = true ↔ ∃ v ∈ visits, v.Declares what name) ∧
          ∀ before v after, visits = before ++ v :: after → v.Declares what name →
            (∀ u ∈ after, ¬ u.Declares what name) →
            (symbols.table what).get? name = some (v.emitted : Int) ∧
            v.emitted = (before.flatMap Visit.lines).length ∧
            Visit.FirstLineAt debug symbols code v.emitted after := by
  refine ⟨Catalog.standard_leadsNoValue, ?_⟩
  intro catalog text symbols code debug hc hs he
  obtain ⟨ts, hts, hg⟩ := Survey.exists_gathers_of_finish hs
  obtain ⟨visits, hv, rfl⟩ := Emission.exists_visits_of_finish_eq_ok he
  have ha : Emission.Agrees .empty symbols visits := hv.agrees hc hts rfl hg
  have htable : ∀ what name, (symbols.table what).get? name =
      (visits.reverse.find? fun v ↦ v.Declares what name).map fun v ↦ (v.emitted : Int) := by
    intro what name
    rw [ha.get?_table]
    cases what <;> simp [Symbols.empty, Symbols.table]
  refine ⟨?_, visits, hv, rfl, fun what name ↦ ⟨?_, ?_⟩⟩
  · rw [List.length_map, ha.size_eq]
    simp [Symbols.empty]
  · rw [SymbolTable.contains, htable, Option.isSome_map, List.find?_isSome]
    simp
  · intro before v after hsplit hd hlast
    refine ⟨?_, by simpa [Emission.start] using hv.emitted_eq hsplit,
      hv.firstLineAt rfl ha hsplit hd debug⟩
    have hfind : (visits.reverse.find? fun u ↦ u.Declares what name) = some v := by
      rw [List.find?_eq_some_iff_append]
      refine ⟨by simpa using hd, after.reverse, before.reverse, by simp [hsplit], ?_⟩
      intro u hu
      simpa using hlast u (List.mem_reverse.mp hu)
    rw [htable, hfind]
    rfl

/-- A catalog with one instruction, of which both slots may stay empty. -/
def Catalog.loose : Catalog where
  instructions :=
    [.operation
      { name := "set"
        token := .keyword "SET"
        args :=
          [{ name := "a", kind := .any, optional := true },
           { name := "b", kind := .any, optional := true }] }]

/-- The first statement takes two line ends with its empty slots, and the labels still stand for the
second statement and for the end. -/
theorem survey_agrees_with_emission_loose :
    let text := "set\n\nx: set 1\ny:"
    let symbols : Symbols := ⟨⟨[("y", 2), ("x", 1)]⟩, ⟨[]⟩, [], 2, []⟩
    let code : List CodeLine := [⟨.words ["set"], []⟩, ⟨.words ["set", "1"], ["label x"]⟩]
    Catalog.loose.LeadsNoValue ∧ Symbols.survey .loose text = .ok symbols ∧
      CodeLine.emit .loose symbols text = .ok code ∧
      ((code.map (CodeLine.render true)).length : Int) = symbols.size := by
  have hc : Catalog.loose.LeadsNoValue := by decide
  have hs : Symbols.survey .loose "set\n\nx: set 1\ny:" =
      .ok ⟨⟨[("y", 2), ("x", 1)]⟩, ⟨[]⟩, [], 2, []⟩ := by decide +kernel
  have he : CodeLine.emit .loose ⟨⟨[("y", 2), ("x", 1)]⟩, ⟨[]⟩, [], 2, []⟩ "set\n\nx: set 1\ny:" =
      .ok [⟨.words ["set"], []⟩, ⟨.words ["set", "1"], ["label x"]⟩] := by decide +kernel
  exact ⟨hc, hs, he, (survey_agrees_with_emission.2 _ _ _ _ true hc hs he).1⟩

end MlogAsm
