import MlogAsm.Proofs.DebugComments
import MlogAsm.Proofs.Linking
import MlogAsm.Proofs.Translation
import MlogAsm.Proofs.Words

/-!
# Plain output

The code of a program holds nothing that the processor does not know: no declarations and none of
the instructions that are written in other words. It has one instruction on each line, so that the
line at an index is the instruction at that index, and every jump goes to a line or to the end.
-/

namespace MlogAsm

namespace TokenKind

/-- The kinds that are written in a source text only. -/
def sugar : List TokenKind :=
  [label, routine, endRoutine, keyword "GOTO", keyword "GOSUB", keyword "RETURN"]

/-- The kinds of the words that lead an instruction. -/
def instructionWords : List TokenKind :=
  Reserved.instructionWords.map fun entry ↦ keyword entry.2

/-- A token of this kind may stand on a line of code. -/
def OfCode (kind : TokenKind) : Prop :=
  kind ∉ sugar ∧ kind ≠ newline

instance : DecidablePred OfCode := fun kind ↦
  inferInstanceAs (Decidable (kind ∉ sugar ∧ kind ≠ newline))

private theorem OfCode.of_isValue {kind : TokenKind} (h : kind.isValue = true) : kind.OfCode := by
  cases kind <;> simp_all [isValue, OfCode, sugar]

theorem OfCode.leads {kind : TokenKind} (h : kind.OfCode) : kind.leads = true := by
  by_contra hl
  rcases cases_of_not_leads hl with rfl | rfl | rfl | rfl <;> exact absurd h (by decide)

end TokenKind

section Spelling

namespace Instruction

/-- The word that a statement of an instruction begins with where it is written as it runs, with the
kind of that word. -/
def leadWords : Instruction → List (String × TokenKind)
  | operation op => [(op.name, op.token)]
  | group g => [(g.name, g.token)]
  | control c => if c.form = .compute then [("op", c.token)] else []

/-- The words that pick a member of an instruction, with their kinds. -/
def pickWords : Instruction → List (String × TokenKind)
  | group g => g.members.map fun op ↦ (op.name, op.token)
  | _ => []

end Instruction

/-- The words that code is written with are read as the tokens that lead to them. -/
structure Catalog.WellSpelled (catalog : Catalog) : Prop where
  leadWords : ∀ instruction ∈ catalog.instructions, ∀ x ∈ instruction.leadWords, Spells x.1 x.2
  pickWords : ∀ instruction ∈ catalog.instructions, ∀ x ∈ instruction.pickWords, Spells x.1 x.2

theorem Catalog.standard_wellSpelled : standard.WellSpelled where
  leadWords := by decide +kernel
  pickWords := by decide +kernel

private theorem OperationGroup.token_of_member? {group : OperationGroup} {kind : TokenKind}
    {op : Operation} (h : group.member? kind = some op) : op.token = kind := by
  simpa using List.find?_some h

variable {catalog : Catalog} {known : String → Prop} {slots : List Slot}

/-- Whether a token fits depends on what it is read as, and not on where it stands. -/
theorem Slot.Fits.congr {slot : Slot} {t u : Token} (h : slot.Fits known t)
    (he : u.reading = t.reading) : slot.Fits known u := by
  obtain ⟨hk, hv⟩ := Prod.mk.inj he
  unfold Fits at h ⊢
  rw [hk, hv]
  exact h

theorem Slot.Fills.congr {ts us : List Token} (h : Fills known slots ts)
    (he : us.map Token.reading = ts.map Token.reading) : Fills known slots us := by
  induction h generalizing us with
  | empty ho =>
    rw [List.map_nil, List.map_eq_nil_iff] at he
    rw [he]
    exact .empty ho
  | fill hf _ ih =>
    obtain ⟨u, others, hcons, hu, hothers⟩ := List.map_eq_cons_iff.mp he
    rw [hcons]
    exact .fill (hf.congr hu) (ih hothers)

namespace Statement

variable {words : List String} {operands : List Token} {lead : Token} {rest : List Token}

/-- A statement that is written as it runs has in its code the words for its first tokens, then its
operands. Other tokens that are read alike can stand in their place. -/
theorem Written.exists_heads (h : (plain words slots operands).Written catalog known (lead :: rest))
    (hs : catalog.WellSpelled) :
    ∃ heads, lead :: rest = heads ++ operands ∧
      List.Forall₂ Spells words (heads.map Token.kind) ∧
      ∀ heads' operands' : List Token, heads'.map Token.kind = heads.map Token.kind →
        operands'.map Token.reading = operands.map Token.reading →
        (plain words slots operands').Written catalog known (heads' ++ operands') := by
  have hsingle {heads' : List Token} (hk : heads'.map Token.kind = [lead].map Token.kind) :
      ∃ lead', heads' = [lead'] ∧ lead'.kind = lead.kind := by
    obtain ⟨lead', tail, hcons, hlead, htail⟩ := List.map_eq_cons_iff.mp hk
    rw [hcons, List.map_eq_nil_iff.mp htail]
    exact ⟨lead', rfl, hlead⟩
  cases h with
  | @operation _ op _ hl hf =>
    have hspell := hs.leadWords _ (List.mem_of_find?_eq_some hl) (op.name, op.token) (by
      simp [Instruction.leadWords])
    have htoken : op.token = lead.kind := Catalog.token_of_find? hl
    refine ⟨[lead], rfl, .cons (htoken ▸ hspell) .nil, ?_⟩
    intro heads' operands' hk hr
    obtain ⟨lead', hheads, hlead⟩ := hsingle hk
    rw [hheads]
    exact .operation (hlead ▸ hl) (hf.congr hr)
  | @member _ pick group op _ hl hm hf =>
    have hlead := hs.leadWords _ (List.mem_of_find?_eq_some hl) (group.name, group.token) (by
      simp [Instruction.leadWords])
    have hpick := hs.pickWords _ (List.mem_of_find?_eq_some hl) (op.name, op.token)
      (List.mem_map.mpr ⟨op, List.mem_of_find?_eq_some hm, rfl⟩)
    have htoken : group.token = lead.kind := Catalog.token_of_find? hl
    have hmember : op.token = pick.kind := OperationGroup.token_of_member? hm
    refine ⟨[lead, pick], rfl, .cons (htoken ▸ hlead) (.cons (hmember ▸ hpick) .nil), ?_⟩
    intro heads' operands' hk hr
    obtain ⟨lead', tail, hcons, hlead', htail⟩ := List.map_eq_cons_iff.mp hk
    obtain ⟨pick', last, hcons', hpick', hlast⟩ := List.map_eq_cons_iff.mp htail
    rw [hcons, hcons', List.map_eq_nil_iff.mp hlast]
    exact .member (hlead' ▸ hl) (hpick' ▸ hm) (hf.congr hr)
  | @compute _ control _ hl hc hf =>
    have hspell := hs.leadWords _ (List.mem_of_find?_eq_some hl) ("op", control.token) (by
      simp [Instruction.leadWords, hc])
    have htoken : control.token = lead.kind := Catalog.token_of_find? hl
    refine ⟨[lead], rfl, .cons (htoken ▸ hspell) .nil, ?_⟩
    intro heads' operands' hk hr
    obtain ⟨lead', hheads, hlead⟩ := hsingle hk
    rw [hheads]
    exact .compute (hlead ▸ hl) hc (hf.congr hr)

theorem Written.fills_of_plain
    (h : (plain words slots operands).Written catalog known (lead :: rest)) :
    Slot.Fills known slots operands := by
  cases h with
  | operation _ hf | member _ _ hf | compute _ _ hf => exact hf

/-- What a statement that is written as it runs begins with is an instruction of the processor. -/
theorem Written.kinds_of_plain
    (h : (plain words slots operands).Written .standard known (lead :: rest)) :
    lead.kind ∈ TokenKind.instructionWords ∧ lead.kind ≠ .keyword "JUMP" ∧
      ∀ t ∈ lead :: rest, t.kind.OfCode := by
  have hleads : ∀ instruction ∈ Catalog.standard.instructions, ∀ x ∈ instruction.leadWords,
      x.2 ∈ TokenKind.instructionWords ∧ x.2 ≠ .keyword "JUMP" ∧ x.2.OfCode := by decide
  have hpicks : ∀ instruction ∈ Catalog.standard.instructions, ∀ x ∈ instruction.pickWords,
      x.2.OfCode := by decide
  have hvalues {slots : List Slot} {ts : List Token} (hf : Slot.Fills known slots ts) :
      ∀ t ∈ ts, t.kind.OfCode :=
    fun t ht ↦ .of_isValue (hf.isValue ht)
  cases h with
  | @operation _ op _ hl hf =>
    have hlead := hleads _ (List.mem_of_find?_eq_some hl) (op.name, op.token) (by
      simp [Instruction.leadWords])
    rw [show op.token = lead.kind from Catalog.token_of_find? hl] at hlead
    exact ⟨hlead.1, hlead.2.1, List.forall_mem_cons.mpr ⟨hlead.2.2, hvalues hf⟩⟩
  | @member _ pick group op _ hl hm hf =>
    have hlead := hleads _ (List.mem_of_find?_eq_some hl) (group.name, group.token) (by
      simp [Instruction.leadWords])
    have hpick := hpicks _ (List.mem_of_find?_eq_some hl) (op.name, op.token)
      (List.mem_map.mpr ⟨op, List.mem_of_find?_eq_some hm, rfl⟩)
    rw [show group.token = lead.kind from Catalog.token_of_find? hl] at hlead
    rw [OperationGroup.token_of_member? hm] at hpick
    exact ⟨hlead.1, hlead.2.1, List.forall_mem_cons.mpr ⟨hlead.2.2,
      List.forall_mem_cons.mpr ⟨hpick, hvalues hf⟩⟩⟩
  | @compute _ control _ hl hc hf =>
    have hlead := hleads _ (List.mem_of_find?_eq_some hl) ("op", control.token) (by
      simp [Instruction.leadWords, hc])
    rw [show control.token = lead.kind from Catalog.token_of_find? hl] at hlead
    exact ⟨hlead.1, hlead.2.1, List.forall_mem_cons.mpr ⟨hlead.2.2, hvalues hf⟩⟩

end Statement
end Spelling

section Lines

/-- Words that are read as one token each are read in order. -/
theorem flatMap_readings_of_spells {ws : List String} {kinds : List TokenKind}
    (h : List.Forall₂ Spells ws kinds) :
    (∀ w ∈ ws, Solid w.toList) ∧ (ws.flatMap fun w ↦ readings w.toList) = kinds.zip ws := by
  induction h with
  | nil => simp
  | cons hw _ ih =>
    refine ⟨List.forall_mem_cons.mpr ⟨hw.1, ih.1⟩, ?_⟩
    rw [List.flatMap_cons, hw.2, ih.2]
    rfl

/-- The tokens of a line of code: an instruction of the processor, and if it is a jump, a line to go
to. -/
structure CodeReadings (size : Nat) (rs : List (TokenKind × String)) : Prop where
  exists_lead : ∃ lead rest, rs = lead :: rest ∧ lead.1 ∈ TokenKind.instructionWords ∧
    (lead.1 = .keyword "JUMP" → ∃ n ≤ size, ∃ others, rest = (.int, toString n) :: others)
  ofCode : ∀ r ∈ rs, r.1.OfCode

/-- The words of a line of code. -/
structure CodeWords (size : Nat) (ws : List String) : Prop where
  solid : ∀ w ∈ ws, Solid w.toList
  code : CodeReadings size (ws.flatMap fun w ↦ readings w.toList)

private theorem CodeWords.of_spells {size : Nat} {ws : List String} {lead : TokenKind}
    {kinds : List TokenKind} (h : List.Forall₂ Spells ws (lead :: kinds))
    (hl : lead ∈ TokenKind.instructionWords) (hj : lead ≠ .keyword "JUMP")
    (hkinds : ∀ kind ∈ lead :: kinds, kind.OfCode) : CodeWords size ws := by
  obtain ⟨hsolid, hreadings⟩ := flatMap_readings_of_spells h
  refine ⟨hsolid, ?_⟩
  rw [hreadings]
  cases h with
  | cons _ _ =>
    refine ⟨⟨_, _, rfl, hl, fun he ↦ absurd he hj⟩, ?_⟩
    intro r hr
    exact hkinds r.1 (List.of_mem_zip hr).1

theorem CodeWords.jump {size n : Nat} (hn : n ≤ size) {ws : List String} {kinds : List TokenKind}
    (h : List.Forall₂ Spells ws kinds) (hkinds : ∀ kind ∈ kinds, kind.OfCode) :
    CodeWords size ("jump" :: toString n :: ws) := by
  have hall : List.Forall₂ Spells ("jump" :: toString n :: ws) (.keyword "JUMP" :: .int :: kinds) :=
    .cons (by decide +kernel) (.cons (spells_toString n) h)
  obtain ⟨hsolid, hreadings⟩ := flatMap_readings_of_spells hall
  refine ⟨hsolid, ?_⟩
  rw [hreadings]
  refine ⟨⟨_, _, rfl, by decide, fun _ ↦ ⟨n, hn, _, rfl⟩⟩, ?_⟩
  intro r hr
  have hofCode : ∀ kind ∈ TokenKind.keyword "JUMP" :: .int :: kinds, kind.OfCode :=
    List.forall_mem_cons.mpr ⟨by decide, List.forall_mem_cons.mpr ⟨by decide, hkinds⟩⟩
  exact hofCode r.1 (List.of_mem_zip hr).1

theorem CodeWords.jumpAlways {size n : Nat} (hn : n ≤ size) :
    CodeWords size ["jump", toString n, "always"] := by
  have halways : Spells "always" .always := by decide +kernel
  exact .jump hn (.cons halways .nil) (List.forall_mem_singleton.mpr (by decide))

/-- A word that may stand behind the first one on a line of code. -/
def OperandWord (w : String) : Prop :=
  Solid w.toList ∧ ∀ r ∈ readings w.toList, r.1.OfCode

private theorem OperandWord.of_spells {w : String} {kind : TokenKind} (h : Spells w kind)
    (hk : kind.OfCode) : OperandWord w := by
  refine ⟨h.1, ?_⟩
  rw [h.2]
  exact List.forall_mem_singleton.mpr hk

/-- A routine may be called like a number, so that its return variable is read as two tokens. -/
private theorem OperandWord.of_returnVariable {r : String}
    (h : ∀ c ∈ r.toList, isWordChar c = true) :
    OperandWord (returnVariable r) := by
  obtain ⟨hsolid, hreadings⟩ := solid_returnVariable h
  refine ⟨hsolid, fun x hx ↦ ?_⟩
  rcases hreadings x hx with hx | hx <;> rw [hx] <;> decide

theorem CodeWords.set {size : Nat} {target value : String} (ht : OperandWord target)
    (hv : OperandWord value) : CodeWords size ["set", target, value] := by
  have hset : Spells "set" (.keyword "SET") := by decide +kernel
  refine ⟨?_, ?_⟩
  · simp only [List.forall_mem_cons]
    exact ⟨hset.1, ht.1, hv.1, by simp⟩
  · simp only [List.flatMap_cons, hset.2, List.flatMap_nil, List.append_nil, List.singleton_append]
    refine ⟨⟨_, _, rfl, by decide, fun hj ↦ absurd hj (by decide)⟩, ?_⟩
    exact List.forall_mem_cons.mpr ⟨by decide, List.forall_mem_append.mpr ⟨ht.2, hv.2⟩⟩

variable {text : String} {known : String → Prop} {index : Declared → String → Nat}
  {routine : Option String} {before size : Nat}

theorem Slot.Fills.forall₂_spells {slots : List Slot} {ts : List Token} (h : Fills known slots ts)
    (htext : ∀ t ∈ ts, Lexeme.token t ∈ Lexeme.scan text) :
    List.Forall₂ Spells (ts.map Token.value) (ts.map Token.kind) := by
  rw [List.forall₂_map_left_iff, List.forall₂_map_right_iff, List.forall₂_same]
  intro t ht
  have hvalue := h.isValue ht
  exact Lexeme.spells_value (htext t ht) (TokenKind.isDeclaration_of_isValue hvalue)
    (TokenKind.OfCode.of_isValue hvalue).2

private theorem Slot.Fills.forall_ofCode {slots : List Slot} {ts : List Token}
    (h : Fills known slots ts) :
    ∀ kind ∈ ts.map Token.kind, kind.OfCode := by
  intro kind hk
  obtain ⟨t, ht, he⟩ := List.mem_map.mp hk
  rw [← he]
  exact .of_isValue (h.isValue ht)

/-- The line of a jump on a comparison. Where there is one operand only, a word is added. -/
private theorem Statement.Written.codeWords_jumpIf {label operator : String} {operands : List Token}
    {lead : Token} {rest : List Token}
    (h : (Statement.jumpIf label operator operands).Written .standard known (lead :: rest))
    (htext : ∀ t ∈ lead :: rest, Lexeme.token t ∈ Lexeme.scan text)
    (hindex : index .label label ≤ size) :
    ∀ ws ∈ (Statement.jumpIf label operator operands).words index routine before,
      CodeWords size ws := by
  cases h with
  | @jumpIf _ target compare _ _ hl hc hn ho hf =>
    have hcompare : Spells compare.value .operator :=
      ho ▸ Lexeme.spells_value (htext compare (by simp)) (by rw [ho]; rfl) (by rw [ho]; decide)
    have hspells := hf.forall₂_spells fun t ht ↦ htext t (by simp [ht])
    have hkinds : ∀ kind ∈ .operator :: operands.map Token.kind, TokenKind.OfCode kind :=
      List.forall_mem_cons.mpr ⟨by decide, hf.forall_ofCode⟩
    rcases operands with _ | ⟨a, _ | ⟨b, others⟩⟩
    · exact List.forall_mem_singleton.mpr (.jump hindex (.cons hcompare hspells) hkinds)
    · have hfalse : Spells "false" .bool := by decide +kernel
      refine List.forall_mem_singleton.mpr (.jump hindex
        (.cons hcompare (List.rel_append hspells (.cons hfalse .nil))) ?_)
      exact List.forall_mem_append.mpr ⟨hkinds, List.forall_mem_singleton.mpr (by decide)⟩
    · exact List.forall_mem_singleton.mpr (.jump hindex (.cons hcompare hspells) hkinds)

/-- Every line of a statement is plain. -/
theorem Statement.Written.codeWords {s : Statement} {lead : Token} {rest : List Token}
    (h : s.Written .standard known (lead :: rest))
    (htext : ∀ t ∈ lead :: rest, Lexeme.token t ∈ Lexeme.scan text)
    (hroutine : s = .leave → ∀ c ∈ (routine.getD "").toList, isWordChar c = true)
    (hindex : ∀ what name, index what name ≤ size) :
    ∀ ws ∈ s.words index routine before, CodeWords size ws := by
  cases s with
  | plain words slots operands =>
    obtain ⟨hlead, hjump, hkinds⟩ := h.kinds_of_plain
    obtain ⟨heads, hcut, hheads, _⟩ := h.exists_heads Catalog.standard_wellSpelled
    have hspells : List.Forall₂ Spells (operands.map Token.value) (operands.map Token.kind) :=
      h.fills_of_plain.forall₂_spells fun t ht ↦ htext t (by rw [hcut]; simp [ht])
    have hall : List.Forall₂ Spells (words ++ operands.map Token.value)
        ((lead :: rest).map Token.kind) := by
      rw [hcut, List.map_append]
      exact List.rel_append hheads hspells
    refine List.forall_mem_singleton.mpr (.of_spells hall hlead hjump ?_)
    simpa using hkinds
  | jumpAlways label | goto label => exact List.forall_mem_singleton.mpr (.jumpAlways (hindex _ _))
  | jumpIf label operator operands => exact h.codeWords_jumpIf htext (hindex _ _)
  | gosub callee =>
    cases h with
    | @gosub _ target _ hl hc hn =>
      have hcallee : OperandWord (returnVariable target.value) :=
        .of_returnVariable (Lexeme.isWordChar_of_mem_value (htext target (by simp))
          (by rw [hn]; rfl))
      have haddress : OperandWord (toString (before + 2)) :=
        .of_spells (spells_toString _) (by decide)
      refine List.forall_mem_cons.mpr ⟨.set hcallee haddress, ?_⟩
      exact List.forall_mem_singleton.mpr (.jumpAlways (hindex _ _))
  | leave =>
    have hcounter : Spells "@counter" .sysvar := by decide +kernel
    refine List.forall_mem_singleton.mpr (.set (.of_spells hcounter (by decide)) ?_)
    exact .of_returnVariable (hroutine rfl)

end Lines

section Text

/-- A line of words has no line end in it. -/
private theorem newline_not_mem_intercalate {ws : List String} (h : ∀ w ∈ ws, Solid w.toList) :
    '\n' ∉ (" ".intercalate ws).toList := by
  intro hn
  rw [← Segment.flatMap_chars_split (" ".intercalate ws).toList] at hn
  obtain ⟨segment, hs, hc⟩ := List.mem_flatMap.mp hn
  rcases isValue_of_mem_split_intercalate h segment hs with hv | hv
  · obtain ⟨rule, cs, hpiece, hr⟩ := Segment.exists_piece_of_isValue hv
    rw [hpiece] at hs hc
    obtain ⟨front, back, hcut⟩ := List.append_of_mem hs
    obtain ⟨c, rest, hfirst, _⟩ := Segment.exists_first_of_split hcut
    have hm := Segment.matches_of_firstPiece? (Segment.firstPiece?_of_first_eq_piece hfirst.symm)
    refine Rule.newline_not_mem_of_matches ?_ hm hc
    rintro rfl
    cases hr
  · rw [hv] at hc
    exact absurd hc (by decide)

/-- The first of some lines of tokens, and the others further down. -/
private theorem map_reading_tokenLines_append {us : List Token} (hus : ∀ t ∈ us, t.kind ≠ .newline)
    {t : Token} (ht : t.kind = .newline) (ts : List Token) (n m : Nat) :
    (tokenLines (us ++ t :: ts.map (Token.shift n m))).map (List.map Token.reading) =
      us.map Token.reading :: (tokenLines ts).map (List.map Token.reading) := by
  have hfirst := tokenLines_of_plain hus
  unfold tokenLines at hfirst
  have hreading : List.map Token.reading ∘ List.map (Token.shift n m) = List.map Token.reading := by
    funext ts
    simp [Token.reading, Token.shift]
  rw [tokenLines, List.splitOnP_append_cons us _ (by simp [ht]), hfirst, List.map_append,
    ← tokenLines, tokenLines_map_shift, List.map_map, hreading]
  rfl

/-- Lines of tokens make a text with their tokens on its lines, and nothing behind the last line
end. -/
private theorem exists_tokens_joinLines {lines : List String}
    (h : ∀ line ∈ lines, Lexeme.AllTokens line ∧ ∀ r ∈ readings line.toList, r.1 ≠ .newline) :
    ∃ ts : List Token, Lexeme.scan (joinLines lines) = ts.map .token ∧
      (tokenLines ts).map (List.map Token.reading) =
        lines.map (fun line ↦ readings line.toList) ++ [[]] ∧
      ts.countP (fun t ↦ t.kind == .newline) = lines.length ∧
      ∀ t ∈ ts, t.kind = .newline ∨ ∃ line ∈ lines, t.reading ∈ readings line.toList := by
  induction lines with
  | nil => exact ⟨[], rfl, by simp [tokenLines], rfl, by simp⟩
  | cons line lines ih =>
    obtain ⟨⟨htokens, hnewline⟩, hlines⟩ := List.forall_mem_cons.mp h
    obtain ⟨us, hus⟩ := Lexeme.allTokens_iff.mp htokens
    have hread := Lexeme.map_reading_of_scan_eq hus
    have hplain : ∀ t ∈ us, t.kind ≠ .newline := by
      intro t ht
      exact hnewline t.reading (hread ▸ List.mem_map_of_mem ht)
    obtain ⟨ts, hscan, hrest, hcount, hmem⟩ := ih hlines
    have hshift (rest : List Token) (n m : Nat) :
        (rest.map .token).map (Lexeme.shift n m) = (rest.map (Token.shift n m)).map .token := by
      simp [Lexeme.shift]
    refine ⟨us ++ Lexeme.lineEnd line ::
      ts.map (Token.shift (lineCount line) (line.toList.length + 1)), ?_, ?_, ?_, ?_⟩
    · rw [joinLines_cons, Lexeme.scan_append_newline, hus, hscan, hshift, List.map_append,
        List.map_cons]
    · rw [map_reading_tokenLines_append hplain rfl, hread, hrest]
      rfl
    · have hnone : us.countP (fun t ↦ t.kind == .newline) = 0 := by
        rw [List.countP_eq_zero]
        intro t ht
        simpa using hplain t ht
      have hsame : (ts.map (Token.shift (lineCount line) (line.toList.length + 1))).countP
          (fun t ↦ t.kind == .newline) = lines.length := by
        rw [List.countP_map, ← hcount]
        rfl
      rw [List.countP_append, hnone, List.countP_cons, hsame]
      simp [Lexeme.lineEnd]
    · intro t ht
      rcases List.mem_append.mp ht with ht | ht
      · exact .inr ⟨line, List.mem_cons_self, hread ▸ List.mem_map_of_mem ht⟩
      rcases List.mem_cons.mp ht with ht | ht
      · exact .inl (by rw [ht]; rfl)
      · obtain ⟨u, hu, he⟩ := List.mem_map.mp ht
        have hsame : t.kind = u.kind ∧ t.reading = u.reading := by rw [← he]; exact ⟨rfl, rfl⟩
        rw [hsame.1, hsame.2]
        exact (hmem u hu).imp_right fun h ↦ h.imp fun _ h ↦ ⟨List.mem_cons_of_mem line h.1, h.2⟩

end Text

namespace Program

/-- A line of a program comes from one of its statements. -/
private theorem exists_words_of_mem_linesFrom {index : Declared → String → Nat} {before : Nat}
    {xs : List Placed} {line : String} (h : line ∈ Placed.linesFrom index false before xs) :
    ∃ x ∈ xs, ∃ n, ∃ ws ∈ x.statement.words index x.routine n, line = " ".intercalate ws := by
  induction xs generalizing before with
  | nil => cases h
  | cons x xs ih =>
    rcases List.mem_append.mp h with h | h
    · obtain ⟨ws, hws, he⟩ := List.mem_map.mp (show line ∈ List.map _ _ from h)
      exact ⟨x, List.mem_cons_self, before, ws, hws, he.symm⟩
    · obtain ⟨y, hy, hrest⟩ := ih h
      exact ⟨y, List.mem_cons_of_mem x hy, hrest⟩

/-- A name stands for a line, or for the end. -/
private theorem lineIndex_le (p : Program) (what : Declared) (name : String) :
    p.lineIndex what name ≤ Statement.total p.statements := by
  unfold lineIndex
  cases p.entryIndex? what name with
  | none => exact Nat.zero_le _
  | some i =>
    have hcut := Statement.total_append (p.statements.take i) (p.statements.drop i)
    rw [List.take_append_drop] at hcut
    simp only [Option.map_some, Option.getD_some, offset]
    omega

/-- Every line of a program that can be resolved is plain. -/
private theorem Reads.exists_codeWords {text : String} {p : Program} (hp : p.Reads .standard text)
    (hres : p.Resolved) {line : String} (h : line ∈ p.lines false) :
    ∃ ws, line = " ".intercalate ws ∧ CodeWords (Statement.total p.statements) ws := by
  obtain ⟨x, hx, n, ws, hws, hline⟩ := exists_words_of_mem_linesFrom h
  have hstatement : x.statement ∈ p.statements := by
    rw [← map_statement_placedFrom none none p]
    exact List.mem_map_of_mem hx
  obtain ⟨lead, rest, hw, htext⟩ := hp.exists_written hstatement
  refine ⟨ws, hline, hw.codeWords htext ?_ p.lineIndex_le ws hws⟩
  intro hleave
  have hopen := hres x hx
  rw [hleave] at hopen
  obtain ⟨r, hr⟩ := Option.ne_none_iff_exists'.mp hopen
  rw [hr, Option.getD_some]
  rcases declares_of_mem_placedFrom hx hr with hnone | hd
  · cases hnone
  · obtain ⟨t, ht, hk, hv⟩ := hp.exists_declaration hd
    rw [← hv]
    exact Lexeme.isWordChar_of_mem_value ht (by rw [hk]; rfl)

end Program

namespace Assembly

variable {text : String} {a : Assembly}

/-- Debug comments change nothing of what is read on a line. -/
theorem readings_render (h : ofText text = .ok a) (debug : Bool) {line : CodeLine}
    (hl : line ∈ a.code) :
    readings (line.render debug).toList = readings (line.render false).toList ∧
      (Lexeme.AllTokens (line.render debug) ↔ Lexeme.AllTokens (line.render false)) := by
  have hscan : Lexeme.scan (line.render debug) = Lexeme.scan (line.render false) := by
    cases debug with
    | false => rfl
    | true =>
      have htidy := CodeLine.tidied_of_emit (ofTextWith_eq_ok_iff.mp h).2 line hl
      exact htidy.scan_render_true.1
  constructor
  · rw [← Lexeme.map_reading_scan, ← Lexeme.map_reading_scan, hscan]
  · rw [Lexeme.AllTokens, Lexeme.AllTokens, hscan]

/-- What is read on the lines of an assembly. -/
theorem codeReadings_of_mem_code (h : ofText text = .ok a) (debug : Bool) {line : CodeLine}
    (hl : line ∈ a.code) :
    '\n' ∉ (line.render debug).toList ∧ Lexeme.AllTokens (line.render debug) ∧
      CodeReadings a.code.length (readings (line.render debug).toList) := by
  obtain ⟨p, hp, hres, hlines⟩ := exists_reads_lines_eq h
  have hlength : Statement.total p.statements = a.code.length := by
    have hcount := congrArg List.length (hlines false)
    rw [lines, List.length_map, Program.lines, Placed.length_linesFrom, Program.placed,
      Program.map_statement_placedFrom] at hcount
    exact hcount.symm
  have hmem : line.render false ∈ p.lines false := by
    rw [← hlines false]
    exact List.mem_map_of_mem hl
  obtain ⟨ws, hws, hcode⟩ := hp.exists_codeWords hres hmem
  obtain ⟨hsame, htokens⟩ := readings_render h debug hl
  rw [hsame, htokens, hws, readings_intercalate hcode.solid, ← hlength]
  refine ⟨?_, Lexeme.allTokens_intercalate hcode.solid, hcode.code⟩
  have hplain := newline_not_mem_intercalate hcode.solid
  rw [← hws] at hplain
  cases debug with
  | false => exact hplain
  | true =>
    have htidy := CodeLine.tidied_of_emit (ofTextWith_eq_ok_iff.mp h).2 line hl
    rw [CodeLine.render_true, String.toList_append, List.mem_append, not_or]
    exact ⟨hplain, newline_not_mem_commentText htidy⟩

/-- A survey counts the lines that an assembly has. -/
theorem size_eq_length_code (h : ofText text = .ok a) : a.symbols.size = a.code.length := by
  obtain ⟨p, hp, _, hcode⟩ := exists_program Catalog.standard_regular h
  exact size_eq_length Catalog.standard_regular (ofTextWith_eq_ok_iff.mp h).1 hp hcode

/-- A text of lines is split at its line ends into the lines and what is behind the last of them. -/
theorem splitOn_text {debug : Bool} (h : ∀ line ∈ a.lines debug, '\n' ∉ line.toList) :
    (a.text debug).toList.splitOn '\n' = (a.lines debug ++ [""]).map String.toList := by
  rw [text, joinLines, String.toList_intercalate]
  apply List.splitOn_intercalate
  · intro cs hcs
    obtain ⟨line, hline, he⟩ := List.mem_map.mp hcs
    rw [← he]
    rcases List.mem_append.mp hline with hline | hline
    · exact h line hline
    · rw [List.mem_singleton.mp hline]
      decide
  · simp

/-- The tokens of the code, line by line. -/
theorem exists_tokens_text (h : ofText text = .ok a) (debug : Bool) :
    ∃ (ts : List Token) (lines : List (List Token)),
      Lexeme.scan (a.text debug) = ts.map .token ∧
      ts.countP (fun t ↦ t.kind == .newline) = a.code.length ∧
      (∀ t ∈ ts, t.kind ∉ TokenKind.sugar) ∧ tokenLines ts = lines ++ [[]] ∧
      lines.map (List.map Token.reading) =
        (a.lines debug).map fun line ↦ readings line.toList := by
  have hline : ∀ line ∈ a.lines debug, Lexeme.AllTokens line ∧
      CodeReadings a.code.length (readings line.toList) := by
    intro line hl
    obtain ⟨code, hcode, he⟩ := List.mem_map.mp hl
    rw [← he]
    exact (codeReadings_of_mem_code h debug hcode).2
  obtain ⟨ts, hscan, hlines, hcount, hmem⟩ := exists_tokens_joinLines fun line hl ↦
    ⟨(hline line hl).1, fun r hr ↦ ((hline line hl).2.ofCode r hr).2⟩
  obtain ⟨front, back, hcut, hfront, hback⟩ := List.map_eq_append_iff.mp hlines
  have hlast : back = [[]] := by
    obtain ⟨x, _, hx, hnil, hrest⟩ := List.map_eq_cons_iff.mp hback
    rw [hx, List.map_eq_nil_iff.mp hnil, List.map_eq_nil_iff.mp hrest]
  refine ⟨ts, front, hscan, by simpa [Assembly.lines] using hcount, ?_, by rw [hcut, hlast], hfront⟩
  intro t ht
  rcases hmem t ht with hk | ⟨line, hl, hr⟩
  · rw [hk]
    decide
  · exact ((hline line hl).2.ofCode t.reading hr).1

end Assembly

/-- The code of a text has one instruction of the processor on each line and nothing else. -/
theorem output_is_plain (text : String) (a : Assembly) (h : Assembly.ofText text = .ok a)
    (debug : Bool) :
    (∀ line ∈ a.lines debug, '\n' ∉ line.toList) ∧
    (a.text debug).toList.splitOn '\n' = (a.lines debug ++ [""]).map String.toList ∧
    (∀ (k : Nat) (line : CodeLine), a.code[k]? = some line →
      ((a.text debug).toList.splitOn '\n')[k]? = some (line.render debug).toList) ∧
    ∃ ts : List Token, Lexeme.scan (a.text debug) = ts.map .token ∧
      (∀ t ∈ ts, t.kind ∉ TokenKind.sugar) ∧
      (ts.countP (fun t ↦ t.kind == .newline) : Int) = a.symbols.size ∧
      ∃ lines, tokenLines ts = lines ++ [[]] ∧ lines.length = a.code.length ∧
        ∀ line ∈ lines, ∃ lead rest, line = lead :: rest ∧
          lead.kind ∈ TokenKind.instructionWords ∧
          (lead.kind = .keyword "JUMP" → ∃ target others n, rest = target :: others ∧
            target.kind = .int ∧ decimal? target.value = some n ∧ (n : Int) ≤ a.symbols.size) := by
  have hnewline : ∀ line ∈ a.lines debug, '\n' ∉ line.toList := by
    intro line hline
    obtain ⟨code, hcode, he⟩ := List.mem_map.mp hline
    rw [← he]
    exact (Assembly.codeReadings_of_mem_code h debug hcode).1
  have hsplit := Assembly.splitOn_text hnewline
  refine ⟨hnewline, hsplit, ?_, ?_⟩
  · intro k line hk
    rw [hsplit, Assembly.lines, List.map_append, List.getElem?_append_left]
    · simp [hk]
    · obtain ⟨hlt, _⟩ := List.getElem?_eq_some_iff.mp hk
      simpa using hlt
  · have hsize := Assembly.size_eq_length_code h
    obtain ⟨ts, lines, hscan, hcount, hsugar, hcut, hlines⟩ := Assembly.exists_tokens_text h debug
    have hlength : lines.length = a.code.length := by
      simpa [Assembly.lines] using congrArg List.length hlines
    refine ⟨ts, hscan, hsugar, by rw [hcount, hsize], lines, hcut, hlength, ?_⟩
    intro line hline
    have hmem : line.map Token.reading ∈ (a.lines debug).map fun line ↦ readings line.toList := by
      rw [← hlines]
      exact List.mem_map_of_mem hline
    obtain ⟨source, hsource, he⟩ := List.mem_map.mp hmem
    obtain ⟨code, hcode, hrender⟩ := List.mem_map.mp hsource
    have hcodeReadings := (Assembly.codeReadings_of_mem_code h debug hcode).2.2
    rw [hrender, he] at hcodeReadings
    obtain ⟨_, _, hread, hlead, hjump⟩ := hcodeReadings.exists_lead
    obtain ⟨lead, rest, hcons, hl, hr⟩ := List.map_eq_cons_iff.mp hread
    rw [← hl] at hlead hjump
    refine ⟨lead, rest, hcons, hlead, fun hk ↦ ?_⟩
    obtain ⟨n, hn, _, hint⟩ := hjump hk
    rw [← hr] at hint
    obtain ⟨target, others, htarget, ht, _⟩ := List.map_eq_cons_iff.mp hint
    obtain ⟨hkind, hvalue⟩ := Prod.mk.inj ht
    refine ⟨target, others, n, htarget, hkind, ?_, by omega⟩
    rw [hvalue]
    exact decimal?_repr n

/-- A routine that is called like a number, and text in quotes with a number sign and a quote. -/
theorem output_is_plain_quoted :
    let text := "routine 7: x: print \"# \\\" :\"\njump x not @a-b\nreturn"
    ∃ a, Assembly.ofText text = .ok a ∧
      a.lines true = ["print \"# \\\" :\" # label x", "jump 0 not @a-b false # jump to x",
        "set @counter 7Return # return from 7"] ∧
      (a.text true).toList.splitOn '\n' = (a.lines true ++ [""]).map String.toList ∧
      ∃ ts : List Token, Lexeme.scan (a.text true) = ts.map .token ∧
        (∀ t ∈ ts, t.kind ∉ TokenKind.sugar) ∧
        (ts.countP (fun t ↦ t.kind == .newline) : Int) = a.symbols.size := by
  intro text
  have hlines : (Assembly.ofText text).map (Assembly.lines true) =
      .ok ["print \"# \\\" :\" # label x", "jump 0 not @a-b false # jump to x",
        "set @counter 7Return # return from 7"] := by decide +kernel
  cases ha : Assembly.ofText text with
  | error f =>
    rw [ha] at hlines
    cases hlines
  | ok a =>
    rw [ha] at hlines
    obtain ⟨_, hsplit, _, ts, hscan, hsugar, hcount, _⟩ := output_is_plain text a ha true
    exact ⟨a, rfl, Except.ok.inj hlines, hsplit, ts, hscan, hsugar, hcount⟩

end MlogAsm
