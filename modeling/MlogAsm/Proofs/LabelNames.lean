import Mathlib.Data.Set.Function
import Mathlib.Logic.Equiv.Basic
import MlogAsm.Proofs.CoupledWalks
import MlogAsm.Proofs.Linking

/-!
# The names of labels

Two texts that differ in nothing but how their labels are called, where a label is declared and
where a jump goes to it. Which words are names of labels depends on where they stand on their line.
Such texts are assembled in the same steps. The tables of labels differ by the names, and so do the
notes on the lines, but no instruction does.
-/

namespace MlogAsm

/-- A word and the same word of a text in which labels are renamed. -/
structure Token.Relabels (r : String → String) (names : Set String) (place : LinePlace)
    (t u : Token) : Prop where
  kind_eq : u.kind = t.kind
  line_eq : u.line = t.line
  value_eq : u.value = if place.namesLabel t.kind then r t.value else t.value
  mem_names : place.namesLabel t.kind = true → t.value ∈ names

instance {r : String → String} {names : Set String} [DecidablePred (· ∈ names)]
    (place : LinePlace) (t u : Token) : Decidable (t.Relabels r names place u) :=
  decidable_of_iff
    (u.kind = t.kind ∧ u.line = t.line ∧
      (u.value = if place.namesLabel t.kind then r t.value else t.value) ∧
      (place.namesLabel t.kind = true → t.value ∈ names))
    ⟨fun h ↦ ⟨h.1, h.2.1, h.2.2.1, h.2.2.2⟩, fun h ↦ ⟨h.1, h.2, h.3, h.4⟩⟩

namespace Lexeme

/-- The words of two texts from a place on. In the second one the labels with the given names are
renamed. Nothing behind a stray character is read, and it does not matter which one it is. -/
inductive Relabels (r : String → String) (names : Set String) :
    LinePlace → List Lexeme → List Lexeme → Prop where
  | nil {place : LinePlace} : Relabels r names place [] []
  | token {place : LinePlace} {t u : Token} {ls ms : List Lexeme} (h : t.Relabels r names place u)
      (hs : Relabels r names (place.after t.kind) ls ms) :
      Relabels r names place (.token t :: ls) (.token u :: ms)
  | stray {place : LinePlace} {c c' : Char} {line pos pos' : Nat} {ls ms : List Lexeme} :
      Relabels r names place (.stray c line pos :: ls) (.stray c' line pos' :: ms)

instance decidableRelabels (r : String → String) (names : Set String)
    [DecidablePred (· ∈ names)] :
    (place : LinePlace) → (ls ms : List Lexeme) → Decidable (Relabels r names place ls ms)
  | _, [], [] => .isTrue .nil
  | place, .token t :: ls, .token u :: ms =>
    haveI := decidableRelabels r names (place.after t.kind) ls ms
    decidable_of_iff
      (t.Relabels r names place u ∧ Relabels r names (place.after t.kind) ls ms)
      ⟨fun h ↦ .token h.1 h.2, fun h ↦ by cases h with | token h hs => exact ⟨h, hs⟩⟩
  | _, .stray _ line _ :: _, .stray _ line' _ :: _ =>
    decidable_of_iff (line = line') ⟨fun h ↦ h ▸ .stray, fun h ↦ by cases h; rfl⟩
  | _, [], _ :: _ => .isFalse nofun
  | _, _ :: _, [] => .isFalse nofun
  | _, .token _ :: _, .stray _ _ _ :: _ => .isFalse nofun
  | _, .stray _ _ _ :: _, .token _ :: _ => .isFalse nofun

end Lexeme

/-- Faults of the same category on the same line. -/
structure Fault.Corresponds (f g : Fault) : Prop where
  category_eq : g.cause.category = f.cause.category
  line_eq : g.line = f.line

theorem Fault.Corresponds.withDefinition {f g : Fault} (h : f.Corresponds g) (definition : String) :
    (f.withDefinition definition).Corresponds (g.withDefinition definition) := by
  unfold Fault.withDefinition
  rw [h.category_eq]
  split
  · exact ⟨h.category_eq, h.line_eq⟩
  · exact h

/-- Two cursors stand at the same place of two texts. -/
structure Cursor.Relabels (r : String → String) (names : Set String) (place : LinePlace)
    (c d : Cursor) : Prop where
  rest : Lexeme.Relabels r names place c.rest d.rest
  line_eq : d.line = c.line
  atLineEnd_eq : d.atLineEnd = c.atLineEnd
  eq_front : c.atLineEnd = true → place = .front

/-- Two texts that differ in the names of their labels. -/
def Sides.relabels (r : String → String) (names : Set String) : Sides where
  lines := 0
  verbatim := False
  lenient := False
  Cursors := Cursor.Relabels r names
  Tokens := Token.Relabels r names
  Faults := Fault.Corresponds

section Tables

variable {r : String → String} {names : Set String}

namespace SymbolTable

/-- The table with other names for the same indices. -/
def renamed (r : String → String) (t : SymbolTable) : SymbolTable :=
  ⟨t.entries.map fun entry ↦ (r entry.1, entry.2)⟩

variable {t : SymbolTable} {name : String}

/-- A name is found under its new name, if no other name gets that one too. -/
private theorem get?_renamed (hr : Set.InjOn r names) (ht : ∀ entry ∈ t.entries, entry.1 ∈ names)
    (hn : name ∈ names) : (t.renamed r).get? (r name) = t.get? name := by
  obtain ⟨entries⟩ := t
  unfold renamed get?
  dsimp only at ht ⊢
  induction entries with
  | nil => rfl
  | cons entry entries ih =>
    obtain ⟨hentry, ht⟩ := List.forall_mem_cons.mp ht
    have hbeq : (r name == r entry.1) = (name == entry.1) := by
      rw [Bool.eq_iff_iff, beq_iff_eq, beq_iff_eq, hr.eq_iff hn hentry]
    rw [List.map_cons, List.lookup_cons, List.lookup_cons, hbeq, ih ht]

private theorem contains_renamed (hr : Set.InjOn r names)
    (ht : ∀ entry ∈ t.entries, entry.1 ∈ names) (hn : name ∈ names) :
    (t.renamed r).contains (r name) = t.contains name := by
  rw [contains, contains, get?_renamed hr ht hn]

private theorem renamed_insert (hr : Set.InjOn r names) (ht : ∀ entry ∈ t.entries, entry.1 ∈ names)
    (hn : name ∈ names) (index : Int) :
    (t.insert name index).renamed r = (t.renamed r).insert (r name) index := by
  have hfilter : t.entries.filter (fun entry ↦ r entry.1 != r name) =
      t.entries.filter (·.1 != name) := by
    apply List.filter_congr
    intro entry hentry
    rw [Bool.eq_iff_iff, bne_iff_ne, bne_iff_ne, hr.ne_iff (ht entry hentry) hn]
  simp only [renamed, insert, List.map_cons, List.filter_map, Function.comp_def, hfilter]

private theorem mem_names_of_insert (ht : ∀ entry ∈ t.entries, entry.1 ∈ names) (hn : name ∈ names)
    (index : Int) : ∀ entry ∈ (t.insert name index).entries, entry.1 ∈ names := by
  intro entry hentry
  rcases List.mem_cons.mp hentry with rfl | hentry
  · exact hn
  · exact ht entry (List.mem_filter.mp hentry).1

end SymbolTable

/-- A redeclaration, where labels are renamed. -/
def Redeclaration.relabeled (r : String → String) (w : Redeclaration) : Redeclaration :=
  if w.what = .label then { w with name := r w.name } else w

/-- What a program declares, where its labels are renamed. -/
def Symbols.relabeled (r : String → String) (s : Symbols) : Symbols :=
  { s with
    labels := s.labels.renamed r
    warnings := s.warnings.map (Redeclaration.relabeled r) }

/-- Two programs declare the same, but for the names of the labels. -/
structure Symbols.Relabels (r : String → String) (names : Set String) (s t : Symbols) : Prop where
  eq_relabeled : t = s.relabeled r
  mem_names : ∀ entry ∈ s.labels.entries, entry.1 ∈ names

namespace Symbols.Relabels

variable {s t : Symbols} {name : String}

theorem empty : Relabels r names .empty .empty where
  eq_relabeled := rfl
  mem_names _ h := nomatch h

theorem vars_eq (h : s.Relabels r names t) : t.vars = s.vars := by
  rw [h.eq_relabeled]
  rfl

private theorem declare_label (h : s.Relabels r names t) (hr : Set.InjOn r names)
    (hn : name ∈ names) (line : Nat) : (s.declare .label name line).Relabels r names
      (t.declare .label (r name) line) where
  eq_relabeled := by
    have hcontains := SymbolTable.contains_renamed hr h.mem_names hn
    have hinsert := SymbolTable.renamed_insert hr h.mem_names hn s.size
    rw [h.eq_relabeled]
    simp only [declare, table, relabeled, hcontains, hinsert]
    by_cases hc : s.labels.contains name = true <;> simp [hc, Redeclaration.relabeled]
  mem_names := SymbolTable.mem_names_of_insert h.mem_names hn s.size

private theorem declare_routine (h : s.Relabels r names t) (name : String) (line : Nat) :
    (s.declare .routine name line).Relabels r names (t.declare .routine name line) where
  eq_relabeled := by
    rw [h.eq_relabeled]
    simp only [declare, table, relabeled]
    by_cases hc : s.routines.contains name = true <;> simp [hc, Redeclaration.relabeled]
  mem_names := h.mem_names

theorem addVariable (h : s.Relabels r names t) (name : String) :
    (s.addVariable name).Relabels r names (t.addVariable name) := by
  unfold Symbols.addVariable
  rw [h.vars_eq]
  split
  · exact h
  · rw [h.eq_relabeled]
    exact ⟨rfl, h.mem_names⟩

private theorem addSize (h : s.Relabels r names t) (count : Int) :
    Relabels r names { s with size := s.size + count } { t with size := t.size + count } := by
  rw [h.eq_relabeled]
  exact ⟨rfl, h.mem_names⟩

end Symbols.Relabels

theorem Symbols.Relabels.labelIndex {s t : Symbols} {name : String} (h : s.Relabels r names t)
    (hr : Set.InjOn r names) (hn : name ∈ names) :
    (Sides.relabels r names).Resolved (s.labelIndex name) (t.labelIndex (r name)) := by
  have hlabels : t.labels.get? (r name) = s.labels.get? name := by
    rw [h.eq_relabeled]
    exact SymbolTable.get?_renamed hr h.mem_names hn
  unfold Symbols.labelIndex
  rw [hlabels]
  cases s.labels.get? name with
  | some index => exact .ok index
  | none =>
    -- The new name may be that of a routine, and the old one not.
    dsimp only
    split <;> split <;> exact .error ⟨rfl, nofun⟩

theorem Symbols.Relabels.routineIndex {s t : Symbols} (h : s.Relabels r names t) (name : String) :
    (Sides.relabels r names).Resolved (s.routineIndex name) (t.routineIndex name) := by
  have hroutines : t.routines = s.routines := by
    rw [h.eq_relabeled]
    rfl
  unfold Symbols.routineIndex
  rw [hroutines]
  cases s.routines.get? name with
  | some index => exact .ok index
  | none =>
    dsimp only
    split <;> split <;> exact .error ⟨rfl, nofun⟩

end Tables

section Coupling

variable {r : String → String} {names : Set String} {place : LinePlace} {c d : Cursor}

private theorem Sides.relabels_next (h : c.Relabels r names place d) :
    Matched False Fault.Corresponds ((relabels r names).Pulled place) (Reader.next c)
      (Reader.next d) := by
  obtain ⟨rest, line, ended⟩ := c
  obtain ⟨rest', line', ended'⟩ := d
  obtain ⟨hrest, hline, -, -⟩ := h
  dsimp only at hrest hline
  cases hrest with
  | nil =>
    refine .ok (.ended ⟨nofun, rfl, ⟨.nil, hline, rfl, fun _ ↦ rfl⟩, ?_⟩)
    exact fun hcategory _ ↦ ⟨hcategory, rfl⟩
  | @token _ t u ls ms htu hs =>
    refine .ok (.word ⟨htu, htu.line_eq, hs, htu.line_eq, ?_, fun hend ↦ ?_⟩)
    · simp [Cursor.pull, htu.kind_eq]
    · have hk : t.kind = .newline := by simpa [Cursor.pull] using hend
      exact congrArg place.after hk
  | stray => exact .error ⟨rfl, rfl⟩

/-- Texts that differ in the names of their labels are coupled. -/
def Coupling.relabels (r : String → String) (names : Set String) : Coupling where
  toSides := .relabels r names
  kind_eq h := h.kind_eq
  value_eq h hp := by
    rw [h.value_eq, if_neg]
    simp [hp.resolve_left id]
  line_eq h _ := h.line_eq
  atLineEnd_eq h := h.atLineEnd_eq
  front h hend := h.eq_front hend ▸ h
  next h _ := Sides.relabels_next h
  onLine h := ⟨h.category_eq, rfl⟩
  withDefinition definition h := h.withDefinition definition

private theorem Coupling.relabels_walks : (relabels r names).Walks :=
  fun h ↦ .inr (Sides.relabels_next h)

private theorem Sides.relabels_declares (hr : Set.InjOn r names) :
    (relabels r names).Declares (Symbols.Relabels r names) where
  addVariable name h := h.addVariable name
  addLines count h := h.addSize count
  label {s t a b} line hab hk h := by
    have hnames : LinePlace.front.namesLabel a.kind = true := by
      rw [hk]
      rfl
    rw [hab.value_eq, if_pos hnames]
    exact h.declare_label hr (hab.mem_names hnames) line
  routine name line h := h.declare_routine name line

theorem Symbols.Relabels.knows (hr : Set.InjOn r names) {s t : Symbols}
    (h : s.Relabels r names t) : (Sides.relabels r names).Knows s t where
  vars name hs := by rwa [h.vars_eq]
  noOtherVars name ht := .inl (by rwa [h.vars_eq] at ht)
  label {a b} hab hk := by
    have hnames : LinePlace.target.namesLabel a.kind = true := by
      rw [hk]
      rfl
    rw [hab.value_eq, if_pos hnames]
    exact h.labelIndex hr (hab.mem_names hnames)
  routine := h.routineIndex

end Coupling

/-- Texts that differ in the names of their labels are assembled alike. -/
theorem Lexeme.Relabels.ofTextWith {r : String → String} {names : Set String} {catalog : Catalog}
    {text other : String} (h : Relabels r names .front (scan text) (scan other))
    (hr : Set.InjOn r names) (hc : catalog.WellMade) :
    Outcomes False Fault.Corresponds
      (fun a b ↦ a.symbols.Relabels r names b.symbols ∧
        (Sides.relabels r names).SameCode true a.code b.code)
      (Assembly.ofTextWith catalog text) (Assembly.ofTextWith catalog other) := by
  have hstart : Cursor.Relabels r names .front (Cursor.ofText text) (Cursor.ofText other) :=
    ⟨h, rfl, rfl, fun _ ↦ rfl⟩
  exact Coupling.ofTextWith Coupling.relabels_walks (Sides.relabels_declares hr) .empty
    (fun hst ↦ hst.knows hr) hc hstart

/-- The names of labels do not show in the code. Take two texts whose words are the same, on the
same lines, but for the names of labels, where these are declared and behind the words that lead
jumps to them: they are renamed, so that different names stay different. Then both texts can be
assembled or both cannot. If they can, their lines without debug comments are the same, and so are
their routines, variables and sizes, while the labels are renamed. If they cannot, their faults
are of the same category and on the same line. -/
theorem label_names_do_not_leak {r : String → String} {names : Set String} {text other : String}
    (hr : Set.InjOn r names)
    (h : Lexeme.Relabels r names .front (Lexeme.scan text) (Lexeme.scan other)) :
    (∃ a b, Assembly.ofText text = .ok a ∧ Assembly.ofText other = .ok b ∧
      b.lines false = a.lines false ∧ b.symbols.routines = a.symbols.routines ∧
      b.symbols.vars = a.symbols.vars ∧ b.symbols.size = a.symbols.size ∧
      b.symbols.labels = a.symbols.labels.renamed r) ∨
    ∃ f g, Assembly.ofText text = .error f ∧ Assembly.ofText other = .error g ∧
      g.cause.category = f.cause.category ∧ g.line = f.line := by
  have houtcome := h.ofTextWith hr Catalog.standard_wellMade
  unfold Assembly.ofText
  generalize Assembly.ofTextWith .standard text = x, Assembly.ofTextWith .standard other = y
    at houtcome ⊢
  cases houtcome with
  | @ok a b hab =>
    obtain ⟨hsymbols, hcode⟩ := hab
    refine .inl ⟨a, b, rfl, rfl, ?_, ?_⟩
    · rw [Assembly.lines_false, Assembly.lines_false, hcode.instructions]
    · rw [hsymbols.eq_relabeled]
      exact ⟨rfl, rfl, rfl, rfl⟩
  | error hfg => exact .inr ⟨_, _, rfl, rfl, hfg.category_eq, hfg.line_eq⟩
  | excused h => exact h.elim

/-- A label gets the name of a routine, and a variable keeps the name that the label had. A jump to
no label becomes a jump to a routine, which fails in another way, but not in another category. -/
theorem label_names_do_not_leak_swapped :
    let r := Equiv.swap "x" "y"
    let text := "x: set x 1\ngosub y\njump x equal x 1\nroutine y:\nreturn"
    let other := "y: set x 1\ngosub y\njump y equal x 1\nroutine y:\nreturn"
    let lost := "noop\ngoto x\nroutine y:"
    let found := "noop\ngoto y\nroutine y:"
    Set.InjOn r Set.univ ∧
      Lexeme.Relabels r Set.univ .front (Lexeme.scan text) (Lexeme.scan other) ∧
      (∃ a b, Assembly.ofText text = .ok a ∧ Assembly.ofText other = .ok b ∧
        b.lines false = a.lines false ∧ b.symbols.labels = a.symbols.labels.renamed r) ∧
      Lexeme.Relabels r Set.univ .front (Lexeme.scan lost) (Lexeme.scan found) ∧
      ∃ f g, Assembly.ofText lost = .error f ∧ Assembly.ofText found = .error g ∧
        g.cause ≠ f.cause ∧ g.cause.category = f.cause.category ∧ g.line = f.line := by
  intro r text other lost found
  have hr : Set.InjOn r Set.univ := r.injective.injOn
  have htexts : Lexeme.Relabels r Set.univ .front (Lexeme.scan text) (Lexeme.scan other) := by
    decide +kernel
  have hjumps : Lexeme.Relabels r Set.univ .front (Lexeme.scan lost) (Lexeme.scan found) := by
    decide +kernel
  refine ⟨hr, htexts, ?_, hjumps, ?_⟩
  · have hok : (Assembly.ofText text).isOk = true := by decide +kernel
    rcases label_names_do_not_leak hr htexts with ⟨a, b, ha, hb, hlines, -, -, -, hlabels⟩ | hfault
    · exact ⟨a, b, ha, hb, hlines, hlabels⟩
    · obtain ⟨f, g, hf, -⟩ := hfault
      rw [hf] at hok
      cases hok
  · have hlost : Assembly.ofText lost = .error ⟨.unknownLabel "x", some 2, none⟩ := by
      decide +kernel
    have hfound : Assembly.ofText found = .error ⟨.labelIsRoutine "y", some 2, none⟩ := by
      decide +kernel
    rcases label_names_do_not_leak hr hjumps with ⟨a, b, ha, -⟩ | ⟨f, g, hf, hg, hcategory, hline⟩
    · cases ha.symm.trans hlost
    · cases hf.symm.trans hlost
      cases hg.symm.trans hfound
      exact ⟨_, _, hlost, hfound, by decide, hcategory, hline⟩

end MlogAsm
