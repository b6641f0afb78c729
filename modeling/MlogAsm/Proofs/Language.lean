import MlogAsm.Assembly
import MlogAsm.Proofs.ProgramCode

/-!
# The language

Which texts can be assembled: those that spell a program all of whose names can be resolved. The
survey and the emission check different things, each on its own walk over the text, and together
they check this and nothing else.
-/

namespace MlogAsm

namespace Program

variable {p : Program} {what : Declared} {name : String}

/-- Symbols are those of a program: its names stand for the lines where they were declared last, and
its variables are the names that it writes. -/
structure Surveyed (p : Program) (symbols : Symbols) : Prop where
  get?_table : ∀ what name, (symbols.table what).get? name =
    (p.entryIndex? what name).map fun i ↦ (p.offset i : Int)
  mem_vars : ∀ name, name ∈ symbols.vars ↔ p.Writes name

variable {symbols : Symbols}

/-- The index of a name is that of the line before which it was declared last. -/
theorem Surveyed.get?_table_eq_some_iff (hs : p.Surveyed symbols) {index : Int} :
    (symbols.table what).get? name = some index ↔
      p.Declares what name ∧ index = p.lineIndex what name := by
  rw [hs.get?_table, ← isSome_entryIndex?_iff, lineIndex]
  cases p.entryIndex? what name with
  | none => simp
  | some i => simp [eq_comm (a := index)]

theorem Surveyed.get?_labels_eq_some_iff (hs : p.Surveyed symbols) {label : String} {index : Int} :
    symbols.labels.get? label = some index ↔
      p.Declares .label label ∧ index = p.lineIndex .label label :=
  @get?_table_eq_some_iff p .label label symbols hs index

theorem Surveyed.get?_routines_eq_some_iff (hs : p.Surveyed symbols) {callee : String}
    {index : Int} :
    symbols.routines.get? callee = some index ↔
      p.Declares .routine callee ∧ index = p.lineIndex .routine callee :=
  @get?_table_eq_some_iff p .routine callee symbols hs index

private theorem Surveyed.known_eq (hs : p.Surveyed symbols) : (· ∈ symbols.vars) = p.Writes :=
  funext fun name ↦ propext (hs.mem_vars name)

/-- A survey of the elements of a program finds its symbols. -/
private theorem surveyed_of_gathers {catalog : Catalog} {known : String → Prop} {es : List Element}
    (hg : Survey.Gathers catalog .empty es symbols)
    (hp : List.Forall₂ (Item.Written catalog known) p es) (hr : catalog.Regular) :
    p.Surveyed symbols where
  get?_table what name := by
    rw [hg.get?_table hp hr]
    cases what <;> simp [Symbols.empty, Symbols.table]
  mem_vars name := by
    rw [hg.mem_vars hp hr]
    simp [Symbols.empty]

end Program

section Resolution

variable {p : Program} {symbols : Symbols}

/-- The statements with code are those that can be resolved. -/
theorem Statement.exists_code?_iff (hs : p.Surveyed symbols) {s : Statement}
    {debug : Bool} {routine : Option String} {before : Int} :
    (∃ lines, s.code? ⟨symbols, debug, routine, before⟩ = some lines) ↔ s.Resolved p routine := by
  cases s with
  | plain words slots operands => simp [code?, Resolved]
  | jumpAlways label | jumpIf label operator operands | goto label =>
    simp only [code?, Resolved, Option.map_eq_some_iff, hs.get?_labels_eq_some_iff]
    constructor
    · rintro ⟨lines, index, ⟨hd, -⟩, -⟩
      exact hd
    · intro hd
      exact ⟨_, _, ⟨hd, rfl⟩, rfl⟩
  | gosub callee =>
    simp only [code?, Resolved]
    by_cases hself : routine = some callee
    · simp [hself]
    · simp only [hself, if_false, Option.map_eq_some_iff, hs.get?_routines_eq_some_iff]
      constructor
      · rintro ⟨lines, index, ⟨hd, -⟩, -⟩
        exact ⟨hd, hself⟩
      · rintro ⟨hd, -⟩
        exact ⟨_, _, ⟨hd, rfl⟩, rfl⟩
  | leave => cases routine <;> simp [code?, Resolved]

/-- The programs with code are those in which every statement can be resolved. -/
theorem Placed.exists_codeFrom?_iff (hs : p.Surveyed symbols) {before : Nat} {xs : List Placed} :
    (∃ code, codeFrom? symbols before xs = some code) ↔
      ∀ x ∈ xs, x.statement.Resolved p x.routine := by
  induction xs generalizing before with
  | nil => simp [codeFrom?]
  | cons x xs ih =>
    rw [List.forall_mem_cons, ← @ih (before + x.statement.size),
      ← @Statement.exists_code?_iff p symbols hs x.statement true x.routine before]
    constructor
    · rintro ⟨code, h⟩
      obtain ⟨lines, rest, hl, hrest, -⟩ := codeFrom?_cons_eq_some_iff.mp h
      exact ⟨⟨lines, hl⟩, rest, hrest⟩
    · rintro ⟨⟨lines, hl⟩, rest, hrest⟩
      exact ⟨_, codeFrom?_cons_eq_some_iff.mpr ⟨lines, rest, hl, hrest, rfl⟩⟩

end Resolution

section Assembly

variable {catalog : Catalog} {text : String}

/-- An assembly has what a survey finds and what an emission gives with it. -/
theorem Assembly.ofTextWith_eq_ok_iff {a : Assembly} :
    ofTextWith catalog text = .ok a ↔
      Symbols.survey catalog text = .ok a.symbols ∧
        CodeLine.emit catalog a.symbols text = .ok a.code := by
  unfold ofTextWith
  cases hsym : Symbols.survey catalog text with
  | error f => simp [bind, Except.bind]
  | ok symbols =>
    constructor
    · intro h
      cases hcode : CodeLine.emit catalog symbols text with
      | error f =>
        simp only [bind, Except.bind, hcode] at h
        cases h
      | ok code =>
        simp only [bind, Except.bind, hcode] at h
        cases h
        exact ⟨rfl, hcode⟩
    · rintro ⟨hs, hcode⟩
      cases hs
      simp only [bind, Except.bind, hcode]
      rfl

/-- A text that can be assembled spells a program, and gives its symbols and its code. -/
theorem Assembly.exists_program (hr : catalog.Regular) {a : Assembly}
    (h : ofTextWith catalog text = .ok a) :
    ∃ p, Program.Reads catalog text p ∧ p.Surveyed a.symbols ∧
      Placed.codeFrom? a.symbols 0 p.placed = some a.code := by
  obtain ⟨hsym, hcode⟩ := ofTextWith_eq_ok_iff.mp h
  obtain ⟨ts, hts, hg⟩ := Survey.exists_gathers_of_finish hsym
  obtain ⟨visits, hv, he⟩ := Emission.exists_visits_of_finish_eq_ok hcode
  obtain ⟨p, hp, hcode⟩ := hv.exists_program rfl hts hr.onlyLastOptional
  have hs := Program.surveyed_of_gathers hg hp hr
  rw [hs.known_eq] at hp
  exact ⟨p, ⟨ts, hts, hp⟩, hs, hcode.trans (congrArg some he.symm)⟩

/-- A text that spells a program with code gives that code. -/
theorem Program.Reads.ofTextWith_eq_ok {p : Program} {symbols : Symbols} {code : List CodeLine}
    (hp : p.Reads catalog text) (hr : catalog.Regular)
    (hsym : Symbols.survey catalog text = .ok symbols)
    (hcode : Placed.codeFrom? symbols 0 p.placed = some code) :
    Assembly.ofTextWith catalog text = .ok ⟨symbols, code⟩ := by
  obtain ⟨ts, hts, hp⟩ := hp
  obtain ⟨us, hus, hg⟩ := Survey.exists_gathers_of_finish hsym
  obtain rfl : ts = us :=
    List.map_injective_iff.mpr (fun _ _ ↦ Lexeme.token.inj) (hts.symm.trans hus)
  have hs := surveyed_of_gathers hg hp hr
  rw [← hs.known_eq] at hp
  obtain ⟨visits, hv, rfl⟩ := exists_visits (s := .start true text) hr hp rfl hts hcode
  exact Assembly.ofTextWith_eq_ok_iff.mpr ⟨hsym, hv.finish_eq_ok⟩

/-- A text that spells a program with names that can be resolved can be assembled. -/
theorem Program.Reads.exists_ofTextWith {p : Program} (hp : p.Reads catalog text)
    (hr : catalog.Regular) (hres : p.Resolved) : ∃ a, Assembly.ofTextWith catalog text = .ok a := by
  obtain ⟨ts, hts, hw⟩ := hp
  obtain ⟨symbols, hg⟩ := exists_gathers hw hr .empty
  have hs := surveyed_of_gathers hg hw hr
  have hsym : Symbols.survey catalog text = .ok symbols :=
    Survey.finish_eq_ok_of_gathers hg hts
  obtain ⟨code, hcode⟩ := (Placed.exists_codeFrom?_iff hs).mpr hres
  exact ⟨_, ofTextWith_eq_ok ⟨ts, hts, hw⟩ hr hsym hcode⟩

end Assembly

/-- A text can be assembled, with or without debug comments, exactly if it spells a program with the
instructions of the processor, and every name in it that is jumped to or called is declared, no
routine calls itself, and every return stands in a routine. Only the last slot of an instruction may
stay empty. -/
theorem assembles_iff_reads_resolved :
    Catalog.standard.EverySlots Slot.OnlyLastOptional ∧
    ∀ (text : String) (debug : Bool),
      (∃ lines, (Assembly.ofText text).map (Assembly.lines debug) = .ok lines) ↔
        ∃ p, Program.Reads .standard text p ∧ p.Resolved := by
  refine ⟨Catalog.standard_regular.onlyLastOptional, fun text debug ↦ ?_⟩
  constructor
  · rintro ⟨lines, h⟩
    cases ha : Assembly.ofText text with
    | error f =>
      rw [ha] at h
      cases h
    | ok a =>
      obtain ⟨p, hp, hs, hcode⟩ := Assembly.exists_program Catalog.standard_regular ha
      exact ⟨p, hp, (Placed.exists_codeFrom?_iff hs).mp ⟨_, hcode⟩⟩
  · rintro ⟨p, hp, hres⟩
    obtain ⟨a, ha⟩ := hp.exists_ofTextWith Catalog.standard_regular hres
    refine ⟨a.lines debug, ?_⟩
    rw [Assembly.ofText, ha]
    rfl

end MlogAsm
