import Mathlib.Data.List.Infix
import MlogAsm.Proofs.LateDeclarations

/-!
# Redeclarations

What becomes of the declarations of a text that can be assembled. All of them are met, since none
stands behind a statement: the first one of a name makes an entry of a table, and every further one
replaces it with a warning.
-/

namespace MlogAsm

section Accounting

namespace Token

/-- What a token declares something as. -/
def declared? (t : Token) : Option Declared :=
  match t.kind with
  | .label => some .label
  | .routine => some .routine
  | _ => none

/-- The element that a declaration is. -/
def declaration? (t : Token) : Option Element :=
  t.declared?.map fun what ↦ .declare what t.value t.line

/-- The redeclaration that a token is: some token before it declares the same name as the same
thing. -/
def redeclaration? (earlier : List Token) (t : Token) : Option Redeclaration :=
  if ∃ u ∈ earlier, u.kind = t.kind ∧ u.value = t.value then
    t.declared?.map fun what ↦ ⟨what, t.value, t.line⟩
  else none

/-- The redeclarations among tokens that stand behind others, each held against all that come before
it. -/
def redeclarations (earlier ts : List Token) : List Redeclaration :=
  (ts.inits.zip ts).filterMap fun x ↦ x.2.redeclaration? (earlier ++ x.1)

private theorem declared?_eq_some_iff {t : Token} {what : Declared} :
    t.declared? = some what ↔ t.kind = what.kind := by
  unfold declared? Declared.kind
  cases t.kind <;> cases what <;> simp

private theorem declared?_eq_none_iff {t : Token} :
    t.declared? = none ↔ t.kind.isDeclaration = false := by
  unfold declared?
  cases t.kind <;> simp [TokenKind.isDeclaration]

private theorem isSome_declaration? (t : Token) : t.declaration?.isSome = t.kind.isDeclaration := by
  unfold declaration? declared?
  cases t.kind <;> rfl

private theorem declaration?_of_declared {t : Token} {what : Declared}
    (h : t.declared? = some what) :
    t.declaration? = some (.declare what t.value t.line) := by
  rw [declaration?, h]
  rfl

private theorem declaration?_of_not_isDeclaration {t : Token} (h : t.kind.isDeclaration = false) :
    t.declaration? = none := by
  rw [declaration?, declared?_eq_none_iff.mpr h]
  rfl

private theorem redeclarations_cons (earlier : List Token) (t : Token) (ts : List Token) :
    redeclarations earlier (t :: ts) =
      (t.redeclaration? earlier).toList ++ redeclarations (earlier ++ [t]) ts := by
  unfold redeclarations
  rw [List.inits_cons, List.zip_cons_cons, List.filterMap_cons, List.append_nil, List.zip_map_left,
    List.filterMap_map]
  simp only [Function.comp_def, Prod.map_fst, Prod.map_snd, id_eq, List.append_assoc,
    List.singleton_append]
  cases t.redeclaration? earlier <;> rfl

end Token

namespace Element

private theorem ofLine_of_declared {t : Token} {what : Declared} (h : t.declared? = some what)
    (line : List Token) : ofLine (t :: line) = declare what t.value t.line :: ofLine line := by
  have hk := Token.declared?_eq_some_iff.mp h
  cases what <;> simp only [Declared.kind] at hk <;> simp [ofLine, hk]

/-- What a line declares, if nothing is declared behind its clause. -/
private theorem filter_ofLine {line : List Token} (h : NoLateDeclaration (ofLine line)) :
    (ofLine line).filter (·.declaration?.isSome) = line.filterMap Token.declaration? := by
  induction line with
  | nil => rfl
  | cons t line ih =>
    cases ht : t.declared? with
    | some what =>
      rw [ofLine_of_declared ht] at h ⊢
      have hrest : NoLateDeclaration (ofLine line) := fun lead operands hm ↦
        h lead operands (List.mem_cons_of_mem _ hm)
      rw [List.filter_cons_of_pos rfl, ih hrest,
        List.filterMap_cons_some (Token.declaration?_of_declared ht)]
    | none =>
      have hdecl := Token.declared?_eq_none_iff.mp ht
      rw [List.filterMap_cons_none (Token.declaration?_of_not_isDeclaration hdecl)]
      by_cases hend : t.kind = .endRoutine
      · have hline : ofLine (t :: line) = close :: ofLine line := by simp [ofLine, hend]
        rw [hline] at h ⊢
        exact ih fun lead operands hm ↦ h lead operands (List.mem_cons_of_mem _ hm)
      · have hline : ofLine (t :: line) = [clause t line] := by
          unfold ofLine
          split <;> simp_all [TokenKind.isDeclaration]
        rw [hline] at h ⊢
        -- The clause takes the rest of the line, in which nothing is declared.
        refine (List.filterMap_eq_nil_iff.mpr fun u hu ↦ ?_).symm
        exact Token.declaration?_of_not_isDeclaration (h t line (List.mem_singleton_self _) u hu)

/-- What is declared among elements does not depend on the clauses between them. -/
theorem redeclared_filter {earlier earlier' : List Element}
    (h : declared earlier' = declared earlier) (es : List Element) :
    redeclared earlier' (es.filter (·.declaration?.isSome)) = redeclared earlier es := by
  induction es generalizing earlier earlier' with
  | nil => rfl
  | cons e es ih =>
    cases e with
    | declare what name line =>
      have hnext : declared (declare what name line :: earlier') =
          declared (declare what name line :: earlier) := by
        simp only [declared, List.filterMap_cons, declaration?] at h ⊢
        rw [h]
      rw [List.filter_cons_of_pos rfl, redeclared, redeclared, redeclaration?, redeclaration?, h,
        ih hnext]
    | close => exact @ih (close :: earlier) _ h
    | clause lead operands => exact @ih (clause lead operands :: earlier) _ h

/-- The redeclarations among declarations are those among tokens. -/
theorem redeclared_filterMap {earlier : List Element} {front : List Token}
    (h : ∀ what name, (what, name) ∈ declared earlier ↔
      ∃ u ∈ front, u.kind = what.kind ∧ u.value = name) (ts : List Token) :
    redeclared earlier (ts.filterMap Token.declaration?) = Token.redeclarations front ts := by
  induction ts generalizing earlier front with
  | nil => rfl
  | cons t ts ih =>
    rw [Token.redeclarations_cons, Token.redeclaration?]
    cases ht : t.declared? with
    | none =>
      have hnone := Token.declaration?_of_not_isDeclaration (Token.declared?_eq_none_iff.mp ht)
      rw [List.filterMap_cons_none hnone, Option.map_none, ite_self]
      refine ih fun what name ↦ ?_
      have hkind : t.kind ≠ what.kind := by
        rw [← Token.declared?_eq_some_iff.ne, ht]
        simp
      simp [h, hkind]
    | some what =>
      have hkind := Token.declared?_eq_some_iff.mp ht
      rw [List.filterMap_cons_some (Token.declaration?_of_declared ht), redeclared, redeclaration?]
      simp only [h, hkind, Option.map_some]
      congr 1
      refine ih fun what' name ↦ ?_
      have hmem : (what', name) ∈ declared (declare what t.value t.line :: earlier) ↔
          (what', name) = (what, t.value) ∨ (what', name) ∈ declared earlier := by
        rw [← List.mem_cons]
        rfl
      have hsame : what.kind = what'.kind ↔ what' = what :=
        ⟨fun hk ↦ (Declared.kind_injective hk).symm, fun hk ↦ by rw [hk]⟩
      rw [hmem, h, or_comm, Prod.mk.injEq]
      simp only [List.mem_append, List.mem_singleton, or_and_right, exists_or, exists_eq_left,
        hkind, hsame, eq_comm (a := name)]

end Element

/-- What a text declares, line by line. -/
private theorem filterMap_declaration?_eq_flatMap (ts : List Token) :
    ts.filterMap Token.declaration? =
      (tokenLines ts).flatMap (List.filterMap Token.declaration?) := by
  unfold tokenLines
  induction ts with
  | nil => simp
  | cons t ts ih =>
    rw [List.splitOnP_cons_eq_if_modifyHead]
    by_cases hk : t.kind = .newline
    · rw [if_pos (by simp [hk]), List.flatMap_cons, ← ih, List.filterMap_cons_none]
      · rfl
      · exact Token.declaration?_of_not_isDeclaration (by rw [hk]; rfl)
    · rw [if_neg (by simpa using hk)]
      obtain ⟨line, lines, hl⟩ := List.exists_cons_of_ne_nil
        (List.splitOnP_ne_nil (fun t : Token ↦ t.kind == .newline) ts)
      rw [hl] at ih ⊢
      rw [List.modifyHead_cons, List.flatMap_cons, ← List.singleton_append, List.filterMap_append,
        ih, ← List.singleton_append (l := line), List.filterMap_append, List.flatMap_cons,
        List.append_assoc]

/-- What the outline of a text declares is what its tokens declare, if no declaration stands behind
a statement. -/
theorem filter_outline {ts : List Token} (h : NoLateDeclaration (outline ts)) :
    (outline ts).filter (·.declaration?.isSome) = ts.filterMap Token.declaration? := by
  unfold outline at h ⊢
  rw [List.filter_flatMap, filterMap_declaration?_eq_flatMap]
  refine List.flatMap_congr fun line hline ↦ Element.filter_ofLine fun lead operands hm ↦ ?_
  exact h lead operands (List.mem_flatMap.mpr ⟨line, hline, hm⟩)

/-- An emission comes to every declaration of the outline, and to no other. -/
theorem Emission.Visits.filterMap_declaration? {catalog : Catalog} {symbols : Symbols}
    {s : Emission} {visits : List Visit} {ts : List Token}
    (ho : catalog.EverySlots Slot.OnlyLastOptional) (hv : Visits catalog symbols s visits)
    (hr : s.cursor.rest = ts.map .token) :
    (visits.map Visit.token).filterMap Token.declaration? =
      (outline ts).filter (·.declaration?.isSome) := by
  induction hv generalizing ts with
  | finished hnext =>
    obtain ⟨hnil, -⟩ := Reader.next_eq_ok_none_iff.mp hnext
    rw [hr] at hnil
    rw [List.map_eq_nil_iff.mp hnil, outline_nil]
    rfl
  | newline hnext hk _ ih =>
    obtain ⟨us, rfl, rfl⟩ := Reader.next_of_rest_eq hr hnext
    rw [outline_newline hk]
    exact ih rfl
  | @mark _ _ _ t _ hnext hm _ ih =>
    obtain ⟨us, rfl, rfl⟩ := Reader.next_of_rest_eq hr hnext
    rcases marked?_eq_some_iff.mp hm with ⟨hk, rfl⟩ | ⟨hk, rfl⟩ | ⟨hk, rfl⟩
    · have ht : t.declaration? = some (.declare .label t.value t.line) :=
        Token.declaration?_of_declared (Token.declared?_eq_some_iff.mpr hk)
      rw [outline_label hk, List.filter_cons_of_pos rfl, List.map_cons,
        List.filterMap_cons_some ht, ih rfl]
    · have ht : t.declaration? = some (.declare .routine t.value t.line) :=
        Token.declaration?_of_declared (Token.declared?_eq_some_iff.mpr hk)
      rw [outline_routine hk, List.filter_cons_of_pos rfl, List.map_cons,
        List.filterMap_cons_some ht, ih rfl]
    · have ht : t.declaration? = none :=
        Token.declaration?_of_not_isDeclaration (by rw [hk]; rfl)
      rw [outline_endRoutine hk, List.map_cons, List.filterMap_cons_none ht]
      exact ih rfl
  | @statement _ _ _ t _ _ hnext hk he _ ih =>
    obtain ⟨us, rfl, rfl⟩ := Reader.next_of_rest_eq hr hnext
    obtain ⟨line, rest, rfl, hp, hover⟩ := exists_line us
    obtain ⟨-, -, -, -, -, -, -, ws, hws, hout⟩ :=
      Catalog.emitStatement_within (Cursor.within_past hk hp hover) (.inr ho) he
    have ht : t.declaration? = none := by
      apply Token.declaration?_of_not_isDeclaration
      cases hkind : t.kind <;> simp_all [TokenKind.leads, TokenKind.isDeclaration]
    rw [outline_clause hk hp hover, List.map_cons, List.filterMap_cons_none ht, ih hws, hout]
    rfl

namespace SymbolTable

/-- Every name has one entry. -/
def Unique (t : SymbolTable) : Prop :=
  (t.entries.map Prod.fst).Nodup

private theorem unique_empty : empty.Unique :=
  List.nodup_nil

/-- A name has an entry, or all entries have other names. -/
private theorem length_filter_ne {entries : List (String × Int)} (h : (entries.map Prod.fst).Nodup)
    (name : String) :
    (entries.filter (·.1 != name)).length + (if (entries.lookup name).isSome then 1 else 0) =
      entries.length := by
  induction entries with
  | nil => rfl
  | cons entry entries ih =>
    obtain ⟨key, index⟩ := entry
    obtain ⟨hkey, hrest⟩ := List.nodup_cons.mp h
    by_cases hname : name = key
    · subst hname
      have hall : entries.filter (·.1 != name) = entries := by
        refine List.filter_eq_self.mpr fun entry he ↦ ?_
        rw [bne_iff_ne]
        rintro rfl
        exact hkey (List.mem_map.mpr ⟨entry, he, rfl⟩)
      simp [hall]
    · have hne : (name == key) = false := beq_eq_false_iff_ne.mpr hname
      have hkeep : ((key, index).1 != name) = true := bne_iff_ne.mpr (Ne.symm hname)
      have ih := ih hrest
      rw [List.filter_cons, if_pos hkeep, List.lookup_cons, hne, List.length_cons, List.length_cons]
      dsimp only
      omega

theorem Unique.insert {t : SymbolTable} (h : t.Unique) (name : String) (index : Int) :
    (t.insert name index).Unique := by
  refine List.nodup_cons.mpr ⟨?_, ?_⟩
  · rw [List.mem_map]
    rintro ⟨entry, he, rfl⟩
    simp at he
  · exact List.Sublist.nodup (List.Sublist.map _ List.filter_sublist) h

/-- An index for a name makes the table larger unless the name had one. -/
private theorem Unique.size_insert {t : SymbolTable} (h : t.Unique) (name : String) (index : Int) :
    (t.insert name index).size + (if t.contains name then 1 else 0) = t.size + 1 := by
  have hlength := length_filter_ne h name
  unfold size SymbolTable.insert contains get?
  rw [List.length_cons]
  omega

end SymbolTable

namespace Symbols

/-- The number of declarations that were met: those in the tables, and those that were replaced. -/
def declarationCount (s : Symbols) : Nat :=
  s.warnings.length + (s.table .label).size + (s.table .routine).size

/-- Every declaration is counted, be it new or not. -/
private theorem declarationCount_declare {s : Symbols} (h : ∀ what, (s.table what).Unique)
    (what : Declared) (name : String) (line : Nat) :
    (s.declare what name line).declarationCount = s.declarationCount + 1 := by
  have hsize := (h what).size_insert name s.size
  have hwarnings : (s.declare what name line).warnings.length =
      s.warnings.length + if (s.table what).contains name then 1 else 0 := by
    rw [warnings_declare, List.length_append]
    split <;> rfl
  unfold declarationCount
  cases what with
  | label =>
    have hlabels : ((s.declare .label name line).table .label) =
        (s.table .label).insert name s.size := rfl
    have hroutines : ((s.declare .label name line).table .routine) = s.table .routine := rfl
    rw [hwarnings, hlabels, hroutines]
    omega
  | routine =>
    have hlabels : ((s.declare .routine name line).table .label) = s.table .label := rfl
    have hroutines : ((s.declare .routine name line).table .routine) =
        (s.table .routine).insert name s.size := rfl
    rw [hwarnings, hlabels, hroutines]
    omega

private theorem unique_table_declare {s : Symbols} (h : ∀ what, (s.table what).Unique)
    (what : Declared) (name : String) (line : Nat) (what' : Declared) :
    ((s.declare what name line).table what').Unique := by
  cases what <;> cases what'
  · exact (h .label).insert name s.size
  · exact h .routine
  · exact h .label
  · exact (h .routine).insert name s.size

end Symbols

/-- Over a whole survey every declaration is counted once. -/
theorem Survey.Gathers.declarationCount_eq {catalog : Catalog} {s s' : Symbols}
    {es : List Element} (hg : Gathers catalog s es s') (hu : ∀ what, (s.table what).Unique) :
    (∀ what, (s'.table what).Unique) ∧
      s'.declarationCount = s.declarationCount + es.countP (·.declaration?.isSome) := by
  induction hg with
  | done => exact ⟨hu, rfl⟩
  | @declare s s' what name line es _ ih =>
    obtain ⟨hu', hcount⟩ := ih (Symbols.unique_table_declare hu what name line)
    refine ⟨hu', ?_⟩
    rw [hcount, Symbols.declarationCount_declare hu, List.countP_cons_of_pos rfl]
    omega
  | close _ ih => exact ih hu
  | @clause s _ _ _ args slots instruction _ _ _ _ _ _ ih =>
    have hsame : ((s.addLines instruction.emits).addTargets
        (Slot.targets slots args)).declarationCount = s.declarationCount := by
      rw [Symbols.addTargets_eq]
      rfl
    rw [hsame] at ih
    refine ih fun what ↦ ?_
    rw [Symbols.table_addTargets, Symbols.table_addLines]
    exact hu what

/-- An entry is the place of the last declaration of its name. -/
theorem Emission.Agrees.get?_table_eq_some_iff {symbols : Symbols} {visits : List Visit}
    (h : Agrees .empty symbols visits) (what : Declared) (name : String) (index : Int) :
    (symbols.table what).get? name = some index ↔
      ∃ before v after, visits = before ++ v :: after ∧ v.Declares what name ∧
        (∀ u ∈ after, ¬ u.Declares what name) ∧ index = v.emitted := by
  have hempty : (Symbols.empty.table what).get? name = none := by cases what <;> rfl
  rw [h.get?_table, hempty, Option.or_none, Option.map_eq_some_iff]
  constructor
  · rintro ⟨v, hfind, rfl⟩
    obtain ⟨hv, after, before, hrev, hlast⟩ := List.find?_eq_some_iff_append.mp hfind
    refine ⟨before.reverse, v, after.reverse, ?_, by simpa using hv, ?_, rfl⟩
    · rw [← List.reverse_reverse visits, hrev]
      simp
    · simpa using hlast
  · rintro ⟨before, v, after, rfl, hv, hlast, rfl⟩
    refine ⟨v, List.find?_eq_some_iff_append.mpr ⟨by simpa using hv, after.reverse,
      before.reverse, by simp, ?_⟩, rfl⟩
    simpa using hlast

/-- Turns that come earlier have fewer lines before them, or as many. -/
theorem Emission.Visits.emitted_le {catalog : Catalog} {symbols : Symbols} {s : Emission}
    {before after : List Visit} {v : Visit}
    (h : Visits catalog symbols s (before ++ v :: after)) :
    ∀ u ∈ before, u.emitted ≤ v.emitted := by
  intro u hu
  obtain ⟨earlier, between, rfl⟩ := List.append_of_mem hu
  have hu := h.emitted_eq (List.append_assoc earlier (u :: between) (v :: after))
  have hv := h.emitted_eq rfl
  rw [hu, hv, List.flatMap_append, List.length_append]
  omega

end Accounting

/-- The declarations of a text that can be assembled are accounted for. There is a warning, in order
and with its line, for every label and every routine header whose name was declared before as the
same thing. So every declaration either has its entry in a table or left a warning, and no name has
two entries. All declarations are met by the emission, and the entry of a name is the number of
lines before its last declaration, which no earlier declaration exceeds. -/
theorem declarations_are_accounted_for (text : String) (a : Assembly)
    (h : Assembly.ofText text = .ok a) :
    ∃ (ts : List Token) (visits : List Visit), Lexeme.scan text = ts.map .token ∧
      a.symbols.warnings = Token.redeclarations [] ts ∧
      a.symbols.warnings.length + a.symbols.labels.size + a.symbols.routines.size =
        ts.countP (·.kind.isDeclaration) ∧
      (∀ what, (a.symbols.table what).Unique) ∧
      Emission.Visits .standard a.symbols (.start true text) visits ∧
      a.code = visits.flatMap Visit.lines ∧
      (visits.map Visit.token).filterMap Token.declaration? = ts.filterMap Token.declaration? ∧
      (∀ before v after, visits = before ++ v :: after →
        v.emitted = (before.flatMap Visit.lines).length ∧ ∀ u ∈ before, u.emitted ≤ v.emitted) ∧
      ∀ what name index, (a.symbols.table what).get? name = some index ↔
        ∃ before v after, visits = before ++ v :: after ∧ v.Declares what name ∧
          (∀ u ∈ after, ¬ u.Declares what name) ∧ index = v.emitted := by
  obtain ⟨hsurvey, hemit⟩ := Assembly.ofTextWith_eq_ok_iff.mp h
  obtain ⟨ts, hts, hg⟩ := Survey.exists_gathers_of_finish hsurvey
  obtain ⟨visits, hv, hcode⟩ := Emission.exists_visits_of_finish_eq_ok hemit
  have hdecl := filter_outline (Assembly.noLateDeclaration h hts)
  have hagrees : Emission.Agrees .empty a.symbols visits :=
    hv.agrees Catalog.standard_leadsNoValue hts rfl hg
  obtain ⟨hunique, hcount⟩ := hg.declarationCount_eq fun what ↦ by
    cases what <;> exact SymbolTable.unique_empty
  refine ⟨ts, visits, hts, ?_, ?_, hunique, hv, hcode, ?_, ?_, hagrees.get?_table_eq_some_iff⟩
  · rw [Symbols.warnings_of_survey hsurvey, elements_of_scan hts, ← Element.redeclared_filter rfl,
      hdecl]
    exact Element.redeclared_filterMap (by simp [Element.declared]) ts
  · have hlength : (ts.filterMap Token.declaration?).length =
        ts.countP (·.kind.isDeclaration) := by
      rw [List.length_filterMap_eq_countP]
      simp only [Token.isSome_declaration?]
    rw [List.countP_eq_length_filter, hdecl, hlength] at hcount
    exact hcount.trans (Nat.zero_add _)
  · rw [hv.filterMap_declaration? Catalog.standard_regular.onlyLastOptional hts, hdecl]
  · rintro before v after rfl
    refine ⟨?_, hv.emitted_le⟩
    simpa [Emission.start] using hv.emitted_eq rfl

/-- A label and a routine share their name, and both are declared twice. -/
theorem declarations_are_accounted_for_shared :
    let text := "x: set a 1\nroutine x:\nx: set b a\nreturn\nendroutine\nroutine x:\n"
    let a : Assembly :=
      ⟨⟨⟨[("x", 1)]⟩, ⟨[("x", 3)]⟩, ["a", "b"], 3, [⟨.label, "x", 3⟩, ⟨.routine, "x", 6⟩]⟩,
        [⟨.words ["set", "a", "1"], ["label x"]⟩, ⟨.words ["set", "b", "a"], ["label x"]⟩,
          ⟨.goBack "x", ["return from x"]⟩]⟩
    Assembly.ofText text = .ok a ∧
      ∃ ts : List Token, Lexeme.scan text = ts.map .token ∧
        a.symbols.warnings = Token.redeclarations [] ts ∧ 4 = ts.countP (·.kind.isDeclaration) := by
  have h : Assembly.ofText
      "x: set a 1\nroutine x:\nx: set b a\nreturn\nendroutine\nroutine x:\n" =
        .ok ⟨⟨⟨[("x", 1)]⟩, ⟨[("x", 3)]⟩, ["a", "b"], 3, [⟨.label, "x", 3⟩, ⟨.routine, "x", 6⟩]⟩,
          [⟨.words ["set", "a", "1"], ["label x"]⟩, ⟨.words ["set", "b", "a"], ["label x"]⟩,
            ⟨.goBack "x", ["return from x"]⟩]⟩ := by decide +kernel
  obtain ⟨ts, -, hts, hwarnings, hcount, -⟩ := declarations_are_accounted_for _ _ h
  exact ⟨h, ts, hts, hwarnings, hcount⟩

end MlogAsm
