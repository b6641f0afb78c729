import MlogAsm.Proofs.CoupledWalks

/-!
# Larger tables

An emission asks its symbols for the index of a name and whether a name is a variable, and nothing
else. A table that knows more never changes an answer that was used, so a program that gives lines
gives the same lines with it. Tables that know the same give the same faults too.
-/

namespace MlogAsm

namespace Symbols

/-- Other symbols know at least as much: the same index for every name that has one, and every
variable. -/
structure ExtendedBy (s t : Symbols) : Prop where
  labels : ∀ name index, s.labels.get? name = some index → t.labels.get? name = some index
  routines : ∀ name index, s.routines.get? name = some index → t.routines.get? name = some index
  vars : ∀ name ∈ s.vars, name ∈ t.vars

/-- Other symbols know the same, in any order and any number of times. -/
structure KnowsAs (s t : Symbols) : Prop where
  labels : ∀ name, s.labels.get? name = t.labels.get? name
  routines : ∀ name, s.routines.get? name = t.routines.get? name
  vars : ∀ name, name ∈ s.vars ↔ name ∈ t.vars

/-- Names that are resolved stay so in larger tables. -/
theorem ExtendedBy.knows {s t : Symbols} (h : s.ExtendedBy t) : (Sides.same True).Knows s t where
  vars := h.vars
  noOtherVars _ _ := .inr trivial
  label {a b} hab _ := by
    obtain rfl : b = a := hab
    cases hs : s.labelIndex b.value with
    | error cause => exact .excused trivial
    | ok index =>
      rw [labelIndex_eq_ok_iff] at hs
      rw [labelIndex_eq_ok_iff.mpr (h.labels _ _ hs)]
      exact .ok index
  routine name := by
    cases hs : s.routineIndex name with
    | error cause => exact .excused trivial
    | ok index =>
      rw [routineIndex_eq_ok_iff] at hs
      rw [routineIndex_eq_ok_iff.mpr (h.routines _ _ hs)]
      exact .ok index

theorem KnowsAs.knows {s t : Symbols} (h : s.KnowsAs t) : (Sides.same False).Knows s t where
  vars name hs := (h.vars name).mp hs
  noOtherVars name ht := .inl ((h.vars name).mpr ht)
  label {a b} hab _ := by
    obtain rfl : b = a := hab
    unfold labelIndex SymbolTable.contains
    rw [h.labels, h.routines]
    exact .refl _
  routine name := by
    unfold routineIndex SymbolTable.contains
    rw [h.labels, h.routines]
    exact .refl _

end Symbols

/-- Lines do not change when the symbols know more, and nothing changes when they know the same. -/
theorem emission_monotone_in_symbols (catalog : Catalog) (text : String) (debug : Bool)
    (s t : Symbols) :
    (s.ExtendedBy t → ∀ lines,
      CodeLine.printed debug catalog s text = .ok lines →
      CodeLine.printed debug catalog t text = .ok lines) ∧
    (s.KnowsAs t →
      CodeLine.printed debug catalog s text = CodeLine.printed debug catalog t text) := by
  rw [CodeLine.printed_eq]
  constructor
  · intro h lines hs
    cases hcode : CodeLine.emit catalog s text with
    | error f =>
      rw [hcode] at hs
      cases hs
    | ok code =>
      rw [hcode] at hs
      cases hs
      obtain ⟨_, ht, rfl⟩ := (CodeLine.printed_of_knows h.knows debug text).exists_eq_ok hcode
      exact ht
  · intro h
    exact (CodeLine.printed_of_knows h.knows debug text).eq_map.symm

/-- More names, two of them declared as the other kind as well, change no line; a variable listed
twice and another size change no fault. -/
theorem emission_monotone_in_symbols_shared :
    let text := "set x 1\njump a notEqual x r\ngosub r"
    let small : Symbols := ⟨.ofList [("a", 1)], .ofList [("r", -2)], ["x"], 4, []⟩
    let large : Symbols :=
      ⟨.ofList [("r", 9), ("a", 1)], .ofList [("r", -2), ("a", 5)], ["y", "r", "x"], 0, []⟩
    let twice : Symbols := ⟨.ofList [("a", 3), ("a", 1)], .ofList [("r", -2)], ["x", "x"], 7, []⟩
    let lines := ["set x 1", "jump 1 notEqual x r # jump to a", "set rReturn 4",
      "jump -2 always # gosub r"]
    CodeLine.printed true .standard small text = .ok lines ∧
      CodeLine.printed true .standard large text = .ok lines ∧
      CodeLine.printed false .standard small "goto r" =
        .error ⟨.labelIsRoutine "r", some 1, none⟩ ∧
      CodeLine.printed false .standard small "goto r" =
        CodeLine.printed false .standard twice "goto r" := by
  intro text small large twice lines
  have hlines : CodeLine.printed true .standard small text = .ok lines := by decide +kernel
  have hfault : CodeLine.printed false .standard small "goto r" =
      .error ⟨.labelIsRoutine "r", some 1, none⟩ := by decide +kernel
  have hlarge : small.ExtendedBy large := by
    constructor
    · intro name index
      simp only [small, large, SymbolTable.ofList, List.foldl_cons, List.foldl_nil,
        SymbolTable.get?_insert, SymbolTable.get?_empty]
      grind
    · intro name index
      simp only [small, large, SymbolTable.ofList, List.foldl_cons, List.foldl_nil,
        SymbolTable.get?_insert, SymbolTable.get?_empty]
      grind
    · simp [small, large]
  have htwice : small.KnowsAs twice := by
    constructor
    · intro name
      simp only [small, twice, SymbolTable.ofList, List.foldl_cons, List.foldl_nil,
        SymbolTable.get?_insert, SymbolTable.get?_empty]
      grind
    · intro name
      rfl
    · simp [small, twice]
  exact ⟨hlines, (emission_monotone_in_symbols .standard text true small large).1 hlarge _ hlines,
    hfault, (emission_monotone_in_symbols .standard "goto r" false small twice).2 htwice⟩

end MlogAsm
