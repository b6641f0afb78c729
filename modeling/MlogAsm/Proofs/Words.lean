import Mathlib.Data.List.DropRight
import MlogAsm.Proofs.LineBreak
import MlogAsm.Proofs.Processor
import MlogAsm.Proofs.Spacing
import MlogAsm.Proofs.Spelling

/-!
# Words of a line

A line of code is words with a space between each two. Words that hold nothing but values are read
one by one: what a scan of the line finds is what scans of the words find, in order. The value of a
token is such a word, and is read as the token again.
-/

namespace MlogAsm

namespace Rule

/-- The rules that are tried before a rule. -/
def earlier (rule : Rule) : List Rule :=
  all.takeWhile (· != rule)

private theorem exists_all_eq (rule : Rule) : ∃ later, all = rule.earlier ++ rule :: later := by
  cases rule <;> exact ⟨_, rfl⟩

/-- The rules for values: what they take declares nothing, and ends no line. -/
def isValue : Rule → Bool
  | float | int | string | sysvar | name => true
  | routine | label | newline | comment => false

private theorem label_mem_earlier {rule : Rule} (h : rule.isValue = true) :
    label ∈ rule.earlier := by
  cases rule with
  | float | int | string | sysvar | name => decide
  | routine | label | newline | comment => cases h

end Rule

namespace Segment

/-- The first rule that applies takes its piece, and those before it take none. -/
theorem firstPiece?_eq_some_iff {cs piece : List Char} {rule : Rule} :
    firstPiece? cs = some (rule, piece) ↔
      rule.lexeme? cs = some piece ∧ ∀ other ∈ rule.earlier, other.lexeme? cs = none := by
  obtain ⟨later, hall⟩ := rule.exists_all_eq
  constructor
  · intro h
    obtain ⟨front, found, back, hcut, hfound, hnone⟩ := List.findSome?_eq_some_iff.mp h
    obtain ⟨taken, ht, he⟩ := Option.map_eq_some_iff.mp hfound
    cases he
    have hself : rule ∉ rule.earlier := by
      intro hm
      have := List.all_eq_true.mp List.all_takeWhile rule hm
      simp at this
    have hpre : rule.earlier <+: front := by
      rw [← prefix_append_cons_iff hself front back, ← hcut]
      exact List.takeWhile_prefix _
    refine ⟨ht, fun other ho ↦ ?_⟩
    simpa using hnone other (hpre.subset ho)
  · rintro ⟨ht, hnone⟩
    refine List.findSome?_eq_some_iff.mpr ⟨rule.earlier, rule, later, hall, by simp [ht], ?_⟩
    intro other ho
    simp [hnone other ho]

/-- A piece on its own is taken by the same rule. -/
private theorem firstPiece?_self {rule : Rule} {piece back : List Char}
    (h : firstPiece? (piece ++ back) = some (rule, piece)) :
    firstPiece? piece = some (rule, piece) := by
  obtain ⟨ht, hnone⟩ := firstPiece?_eq_some_iff.mp h
  apply firstPiece?_eq_some_iff.mpr
  constructor
  · exact rule.takesLongest_lexeme?.eq_some_self ht
  · intro other ho
    exact other.takesLongest_lexeme?.eq_none_of_append (hnone other ho)

/-- A segment that a rule for values takes. -/
def isValue : Segment → Bool
  | piece rule _ => rule.isValue
  | _ => false

/-- The kind and the value of the token that a segment stands for. -/
def reading? : Segment → Option (TokenKind × String)
  | piece rule cs => rule.reading? cs
  | _ => none

theorem exists_piece_of_isValue {segment : Segment} (h : segment.isValue = true) :
    ∃ rule cs, segment = .piece rule cs ∧ rule.isValue = true := by
  cases segment with
  | piece rule cs => exact ⟨rule, cs, rfl, h⟩
  | blank c => cases h
  | stray c => cases h

private theorem not_isBlank_of_first_eq_piece {c : Char} {rest cs : List Char} {rule : Rule}
    (h : first c rest = .piece rule cs) : isBlank c = false := by
  unfold first at h
  split at h
  · cases h
  · next hb => exact Bool.eq_false_iff.mpr hb

/-- A piece is the one segment of its characters. -/
private theorem split_of_first_eq_piece {c : Char} {rest cs back : List Char} {rule : Rule}
    (h : first c rest = .piece rule cs) (hcut : c :: rest = cs ++ back) :
    split cs = [.piece rule cs] := by
  have hpiece := firstPiece?_of_first_eq_piece h
  rw [hcut] at hpiece
  cases cs with
  | nil =>
    have := (first_takes c rest).1
    rw [h] at this
    exact absurd rfl this
  | cons d tail =>
    obtain ⟨hd, _⟩ := List.cons.inj hcut
    have hfirst : first c tail = .piece rule (d :: tail) := by
      rw [first, not_isBlank_of_first_eq_piece h, hd, firstPiece?_self hpiece]
      rfl
    rw [← hd, split_cons, hfirst, hd]
    simp [chars, split, splitFrom]

end Segment

/-- Text of which every segment is a value. -/
def AllValues (cs : List Char) : Prop :=
  ∀ segment ∈ Segment.split cs, segment.isValue = true

/-- What can stand as a word in a line. -/
structure Solid (cs : List Char) : Prop where
  ne_nil : cs ≠ []
  allValues : AllValues cs

instance : DecidablePred Solid := fun cs ↦
  decidable_of_iff (cs ≠ [] ∧ ∀ segment ∈ Segment.split cs, segment.isValue = true)
    ⟨fun h ↦ ⟨h.1, h.2⟩, fun h ↦ ⟨h.ne_nil, h.allValues⟩⟩

namespace AllValues

variable {c : Char} {tail : List Char}

private theorem exists_first_eq_piece (h : AllValues (c :: tail)) :
    ∃ rule cs, Segment.first c tail = .piece rule cs ∧ rule.isValue = true :=
  Segment.exists_piece_of_isValue
    (h _ (by rw [Segment.split_cons]; exact List.mem_cons_self))

theorem drop (h : AllValues (c :: tail)) :
    AllValues ((c :: tail).drop (Segment.first c tail).chars.length) := by
  intro segment hs
  apply h
  rw [Segment.split_cons]
  exact List.mem_cons_of_mem _ hs

/-- Values are read the same way in front of a space. -/
theorem first_append_space (h : AllValues (c :: tail)) {rest : List Char}
    (hlabel : Rule.labelLexeme? (rest.dropWhile isGap) = none) :
    Segment.first c (tail ++ ' ' :: rest) = Segment.first c tail := by
  obtain ⟨rule, cs, hfirst, hr⟩ := h.exists_first_eq_piece
  have hpiece := Segment.firstPiece?_of_first_eq_piece hfirst
  obtain ⟨ht, _⟩ := Segment.firstPiece?_eq_some_iff.mp hpiece
  have hcomment : rule ≠ .comment := by
    intro he
    rw [he] at hr
    cases hr
  apply Segment.first_append_space
  · intro hc
    rw [hc, Segment.first_comment] at hfirst
    cases hfirst
    exact hcomment rfl
  · exact hlabel
  · by_cases hq : c = '"'
    · have hstring : rule = .string := by
        by_contra hs
        rw [hq, Rule.lexeme?_mark_cons (.inl rfl) hs hcomment] at ht
        cases ht
      rw [hstring] at ht
      rw [ht]
      exact Rule.lexeme?_string_append ht _
    · simp [Rule.lexeme?, hq]

end AllValues

/-- Text of values in front of a space is cut at the space, unless a name with a colon comes behind
it. -/
private theorem Segment.split_append_space {cs rest : List Char} (h : AllValues cs)
    (hlabel : Rule.labelLexeme? (rest.dropWhile isGap) = none) :
    split (cs ++ ' ' :: rest) = split cs ++ .blank ' ' :: split rest := by
  match cs with
  | [] => exact split_space rest
  | c :: tail =>
    obtain ⟨hne, hpre⟩ := first_takes c tail
    have hle := hpre.length_le
    rw [List.cons_append, split_cons, split_cons, h.first_append_space hlabel, ← List.cons_append,
      List.drop_append_of_le_length hle, split_append_space h.drop hlabel, List.cons_append]
termination_by cs.length
decreasing_by
  have := List.length_pos_iff.mpr hne
  simp only [List.length_drop, List.length_cons]
  omega

namespace Solid

/-- No label begins where a word begins. -/
private theorem labelLexeme?_dropWhile {cs more : List Char} (h : Solid cs)
    (hmore : more = [] ∨ ∃ rest, more = ' ' :: rest) :
    Rule.labelLexeme? ((cs ++ more).dropWhile isGap) = none := by
  obtain ⟨c, tail, hcs⟩ := List.exists_cons_of_ne_nil h.ne_nil
  have hall := h.allValues
  rw [hcs] at hall ⊢
  obtain ⟨rule, piece, hfirst, hr⟩ := hall.exists_first_eq_piece
  have hpiece := Segment.firstPiece?_of_first_eq_piece hfirst
  have hlabel : Rule.label.lexeme? (c :: tail) = none :=
    (Segment.firstPiece?_eq_some_iff.mp hpiece).2 _ (Rule.label_mem_earlier hr)
  have hgap : isGap c = false := by
    have hb := Segment.not_isBlank_of_first_eq_piece hfirst
    simp only [isBlank, Bool.or_eq_false_iff] at hb
    simp [isGap, hb.1.1]
  have hdrop : (c :: tail ++ more).dropWhile isGap = c :: tail ++ more := by
    rw [List.cons_append, List.dropWhile_cons_of_neg (by simp [hgap])]
  rw [hdrop]
  rcases hmore with hm | ⟨rest, hm⟩
  · rw [hm, List.append_nil]
    exact hlabel
  · rw [hm]
    have hspace : ∀ u, Rule.label.Matches u → ' ' ∉ u :=
      fun u hu ↦ Rule.not_mem_of_isUnbroken rfl hu (.inl rfl)
    have hcut := Rule.lexeme?_append_cons hspace (c :: tail) rest
    rw [hlabel] at hcut
    exact hcut

end Solid

/-- The kinds and the values of the tokens that a text stands for. -/
def readings (cs : List Char) : List (TokenKind × String) :=
  (Segment.split cs).filterMap Segment.reading?

/-- A word is read as one token of a kind. -/
def Spells (word : String) (kind : TokenKind) : Prop :=
  Solid word.toList ∧ readings word.toList = [(kind, word)]

instance (word : String) : DecidablePred (Spells word) := fun kind ↦
  inferInstanceAs (Decidable (Solid word.toList ∧ readings word.toList = [(kind, word)]))

/-- Words with a space between each two are cut at the spaces. -/
private theorem split_intercalate {w v : String} {ws : List String} (hw : Solid w.toList)
    (hv : Solid v.toList) :
    Segment.split (" ".intercalate (w :: v :: ws)).toList =
      Segment.split w.toList ++
        .blank ' ' :: Segment.split (" ".intercalate (v :: ws)).toList := by
  have hrest : ∃ more, (" ".intercalate (v :: ws)).toList = v.toList ++ more ∧
      (more = [] ∨ ∃ rest, more = ' ' :: rest) := by
    cases ws with
    | nil => exact ⟨[], by simp, .inl rfl⟩
    | cons u us =>
      refine ⟨' ' :: (" ".intercalate (u :: us)).toList, ?_, .inr ⟨_, rfl⟩⟩
      rw [String.intercalate_cons_cons, String.toList_append, String.toList_append,
        List.append_assoc]
      rfl
  obtain ⟨more, hcut, hmore⟩ := hrest
  have hlabel := hv.labelLexeme?_dropWhile hmore
  rw [← hcut] at hlabel
  rw [← Segment.split_append_space hw.allValues hlabel, String.intercalate_cons_cons,
    String.toList_append, String.toList_append, List.append_assoc]
  rfl

/-- A line of words has their tokens in order. -/
theorem readings_intercalate {ws : List String} (h : ∀ w ∈ ws, Solid w.toList) :
    readings (" ".intercalate ws).toList = ws.flatMap fun w ↦ readings w.toList := by
  induction ws with
  | nil => rfl
  | cons w ws ih =>
    obtain ⟨hw, hws⟩ := List.forall_mem_cons.mp h
    cases ws with
    | nil => simp
    | cons v ws =>
      rw [List.flatMap_cons, ← ih hws, readings, split_intercalate hw (hws v (by simp)),
        List.filterMap_append]
      rfl

/-- A line of words has no stray characters and no line ends. -/
theorem isValue_of_mem_split_intercalate {ws : List String} (h : ∀ w ∈ ws, Solid w.toList) :
    ∀ segment ∈ Segment.split (" ".intercalate ws).toList,
      segment.isValue = true ∨ segment = .blank ' ' := by
  induction ws with
  | nil =>
    intro segment hs
    cases hs
  | cons w ws ih =>
    obtain ⟨hw, hws⟩ := List.forall_mem_cons.mp h
    intro segment hs
    cases ws with
    | nil =>
      rw [String.intercalate_singleton] at hs
      exact .inl (hw.allValues segment hs)
    | cons v ws =>
      rw [split_intercalate hw (hws v (by simp)), List.mem_append, List.mem_cons] at hs
      rcases hs with hs | hs | hs
      · exact .inl (hw.allValues segment hs)
      · exact .inr hs
      · exact ih hws segment hs

/-- The kind and the value of a token, without its place. -/
def Token.reading (t : Token) : TokenKind × String :=
  (t.kind, t.value)

/-- A scan finds the tokens that the segments stand for. -/
private theorem Lexeme.map_reading_ofSegments (line pos : Nat) (segments : List Segment) :
    ((ofSegments line pos segments).filterMap token?).map Token.reading =
      segments.filterMap Segment.reading? := by
  induction segments generalizing line pos with
  | nil => rfl
  | cons segment segments ih =>
    rw [ofSegments, List.filterMap_append, List.map_append, ih, List.filterMap_cons]
    cases segment with
    | blank c => rfl
    | stray c => rfl
    | piece rule cs =>
      cases hread : rule.reading? cs with
      | none => simp [ofSegment?, Segment.reading?, hread]
      | some found => simp [ofSegment?, Segment.reading?, hread, token?, Token.reading]

theorem Lexeme.map_reading_scan (text : String) :
    ((scan text).filterMap token?).map Token.reading = readings text.toList :=
  map_reading_ofSegments 1 0 _

theorem Lexeme.map_reading_of_scan_eq {text : String} {ts : List Token}
    (h : scan text = ts.map token) : ts.map Token.reading = readings text.toList := by
  rw [← map_reading_scan, h, filterMap_token?_map]

/-- Segments without stray characters leave nothing but tokens. -/
private theorem Lexeme.exists_token_of_mem_ofSegments {segments : List Segment}
    (h : ∀ c, .stray c ∉ segments) {line pos : Nat} {l : Lexeme}
    (hl : l ∈ ofSegments line pos segments) : ∃ t, l = token t := by
  induction segments generalizing line pos with
  | nil => cases hl
  | cons segment segments ih =>
    rw [ofSegments] at hl
    rcases List.mem_append.mp hl with hl | hl
    · cases segment with
      | blank c => cases hl
      | stray c => exact absurd List.mem_cons_self (h c)
      | piece rule cs =>
        obtain ⟨_, _, ht⟩ := Option.map_eq_some_iff.mp (Option.mem_toList.mp hl)
        exact ⟨_, ht.symm⟩
    · exact ih (fun c hc ↦ h c (List.mem_cons_of_mem _ hc)) hl

/-- A scan of a line of words finds nothing but tokens. -/
theorem Lexeme.allTokens_intercalate {ws : List String} (h : ∀ w ∈ ws, Solid w.toList) :
    AllTokens (" ".intercalate ws) := by
  intro l hl
  refine exists_token_of_mem_ofSegments (fun c hc ↦ ?_) hl
  rcases isValue_of_mem_split_intercalate h _ hc with hv | hv <;> cases hv

/-- What a value rule reads as. -/
private theorem Rule.isValue_of_reading? {rule : Rule} {piece : List Char} {kind : TokenKind}
    {value : String} (h : rule.reading? piece = some (kind, value))
    (hd : kind.isDeclaration = false) (hn : kind ≠ .newline) : rule.isValue = true := by
  cases rule with
  | float | int | string | sysvar | name => rfl
  | routine | label | newline =>
    simp only [reading?, Option.some.injEq, Prod.mk.injEq] at h
    simp [← h.1, TokenKind.isDeclaration] at hd hn
  | comment => cases h

/-- The value of a token is one segment, and is read as the token. -/
theorem Lexeme.spells_value {text : String} {t : Token} (h : token t ∈ scan text)
    (hd : t.kind.isDeclaration = false) (hn : t.kind ≠ .newline) : Spells t.value t.kind := by
  obtain ⟨front, rule, piece, back, hcut, _, hr⟩ := exists_segment_of_mem h
  obtain ⟨c, rest, hfirst, hchars⟩ := Segment.exists_first_of_split hcut
  have hsplit := Segment.split_of_first_eq_piece hfirst.symm hchars
  have hvalue := Rule.isValue_of_reading? hr hd hn
  rw [Spells, Rule.toList_value_of_reading? hr hd]
  refine ⟨⟨?_, ?_⟩, ?_⟩
  · have hne := (Segment.first_takes c rest).1
    rw [← hfirst] at hne
    exact hne
  · intro segment hs
    rw [hsplit, List.mem_singleton] at hs
    rw [hs]
    exact hvalue
  · rw [readings, hsplit, List.filterMap_cons, Segment.reading?, hr]
    rfl

/-- A letter, a digit or an underscore of ASCII is a decimal digit unless it can begin a name. -/
private theorem isDecimalDigit_eq_of_isWordChar {c : Char} (h : isWordChar c = true) :
    Text.isDecimalDigit c = !(c.isAlpha || c == '_') := by
  have hascii : c.toNat < 128 := by
    delta isWordChar Char.isAlphanum Char.isAlpha Char.isUpper Char.isLower Char.isDigit at h
    simp only [UInt32.le_iff_toNat_le, ge_iff_le, Bool.or_eq_true, Bool.and_eq_true,
      decide_eq_true_eq, beq_iff_eq] at h
    rcases h with ((h | h) | h) | rfl
    · exact Nat.lt_of_le_of_lt h.2 (by decide)
    · exact Nat.lt_of_le_of_lt h.2 (by decide)
    · exact Nat.lt_of_le_of_lt h.2 (by decide)
    · decide
  have hall : ∀ n < 128, isWordChar (Char.ofNat n) = true → Text.isDecimalDigit (Char.ofNat n) =
      !((Char.ofNat n).isAlpha || Char.ofNat n == '_') := by
    decide +kernel
  rw [← Char.ofNat_toNat c] at h ⊢
  exact hall _ hascii h

section WordCharacters

variable {c : Char} {w tail : List Char}

/-- Every rule but two takes a character that words do not have. -/
private theorem Rule.lexeme?_eq_none_of_word (hw : ∀ d ∈ w, isWordChar d = true) {rule : Rule}
    (hi : rule ≠ int) (hn : rule ≠ name) : rule.lexeme? w = none := by
  cases hp : rule.lexeme? w with
  | none => rfl
  | some piece =>
    obtain ⟨hm, hpre⟩ := rule.takesLongest_lexeme?.sound hp
    have hmark : ∃ d ∈ piece, isWordChar d = false := by
      cases rule with
      | routine =>
        obtain ⟨gap, word, hcut, _⟩ := hm
        exact ⟨':', by simp [hcut], by decide⟩
      | label =>
        obtain ⟨word, hcut, _⟩ := hm
        exact ⟨':', by simp [hcut], by decide⟩
      | float =>
        obtain ⟨sign, word, hcut, _, whole, fraction, hword, _⟩ := hm
        exact ⟨'.', by simp [hcut, hword], by decide⟩
      | string =>
        obtain ⟨body, hcut, _⟩ := hm
        exact ⟨'"', by simp [hcut], by decide⟩
      | sysvar =>
        obtain ⟨d, rest, hcut, _⟩ := hm
        exact ⟨'@', by simp [hcut], by decide⟩
      | newline =>
        have hcut : piece = ['\n'] := hm
        exact ⟨'\n', by simp [hcut], by decide⟩
      | comment =>
        obtain ⟨rest, hcut, _⟩ := hm
        exact ⟨'#', by simp [hcut], by decide⟩
      | int => exact absurd rfl hi
      | name => exact absurd rfl hn
    obtain ⟨d, hd, hno⟩ := hmark
    rw [hw d (hpre.subset hd)] at hno
    cases hno

theorem not_isBlank_of_isWordChar (h : isWordChar c = true) : isBlank c = false := by
  rw [Bool.eq_false_iff]
  intro hb
  simp only [isBlank, Bool.or_eq_true, beq_iff_eq] at hb
  rcases hb with ((rfl | rfl) | rfl) | rfl <;> exact absurd h (by decide)

/-- A word that begins with a letter or an underscore is a name. -/
theorem Segment.split_name (hw : ∀ d ∈ c :: tail, isWordChar d = true)
    (hc : (c.isAlpha || c == '_') = true) : split (c :: tail) = [.piece .name (c :: tail)] := by
  obtain ⟨hword, htail⟩ := List.forall_mem_cons.mp hw
  have hdigit : Text.isDecimalDigit c = false := by
    rw [isDecimalDigit_eq_of_isWordChar hword, hc]
    rfl
  have hint : Rule.int.lexeme? (c :: tail) = none := by
    have hminus : c ≠ '-' := by
      rintro rfl
      exact absurd hword (by decide)
    simp [Rule.lexeme?, Rule.signed?, Rule.digits?, hminus, hdigit]
  have hpiece : firstPiece? (c :: tail) = some (.name, c :: tail) := by
    apply firstPiece?_eq_some_iff.mpr
    constructor
    · rw [Rule.lexeme?, if_pos hc, List.takeWhile_eq_self_iff.mpr htail]
    · intro other ho
      by_cases hother : other = .int
      · rw [hother, hint]
      · apply Rule.lexeme?_eq_none_of_word hw hother
        rintro rfl
        exact absurd ho (by decide)
  have hfirst : first c tail = .piece .name (c :: tail) := by
    rw [first, not_isBlank_of_isWordChar hword, hpiece]
    rfl
  rw [split_cons, hfirst]
  simp [chars, split, splitFrom]

/-- A word that begins with digits is a number and the name behind it. -/
theorem Segment.split_digits (hw : ∀ d ∈ c :: tail, isWordChar d = true)
    (hc : Text.isDecimalDigit c = true) :
    split (c :: tail) = .piece .int ((c :: tail).takeWhile Text.isDecimalDigit) ::
      split ((c :: tail).dropWhile Text.isDecimalDigit) := by
  obtain ⟨hword, htail⟩ := List.forall_mem_cons.mp hw
  have hpiece : firstPiece? (c :: tail) =
      some (.int, (c :: tail).takeWhile Text.isDecimalDigit) := by
    apply firstPiece?_eq_some_iff.mpr
    constructor
    · have hminus : c ≠ '-' := by
        rintro rfl
        exact absurd hword (by decide)
      simp [Rule.lexeme?, Rule.signed?, Rule.digits?, hminus, hc]
    · intro other ho
      apply Rule.lexeme?_eq_none_of_word hw <;>
        (rintro rfl; exact absurd ho (by decide))
  have hfirst : first c tail = .piece .int ((c :: tail).takeWhile Text.isDecimalDigit) := by
    rw [first, not_isBlank_of_isWordChar hword, hpiece]
    rfl
  have hdrop : (c :: tail).drop ((c :: tail).takeWhile Text.isDecimalDigit).length =
      (c :: tail).dropWhile Text.isDecimalDigit := by
    have hcut := List.takeWhile_append_dropWhile (p := Text.isDecimalDigit) (l := c :: tail)
    exact (congrArg (List.drop _) hcut).symm.trans List.drop_left
  rw [split_cons, hfirst, chars, hdrop]

/-- A word is a number, a name, or a number and the name behind it. -/
theorem Segment.mem_split_word (hw : ∀ d ∈ w, isWordChar d = true) {segment : Segment}
    (h : segment ∈ split w) :
    segment = .piece .int (w.takeWhile Text.isDecimalDigit) ∨
      segment = .piece .name (w.dropWhile Text.isDecimalDigit) := by
  have hname : ∀ v : List Char, (∀ d ∈ v, isWordChar d = true) →
      v.dropWhile Text.isDecimalDigit = v → segment ∈ split v → segment = .piece .name v := by
    intro v hv hself hs
    cases v with
    | nil => cases hs
    | cons c tail =>
      have hc : Text.isDecimalDigit c = false := by
        by_contra hd
        rw [List.dropWhile_cons_of_pos (by simpa using hd)] at hself
        have hle := (List.dropWhile_suffix Text.isDecimalDigit (l := tail)).length_le
        rw [hself, List.length_cons] at hle
        omega
      rw [isDecimalDigit_eq_of_isWordChar (hv c (by simp)), Bool.not_eq_false'] at hc
      rwa [split_name hv hc, List.mem_singleton] at hs
  cases w with
  | nil => cases h
  | cons c tail =>
    by_cases hc : Text.isDecimalDigit c = true
    · rw [split_digits hw hc, List.mem_cons] at h
      refine h.imp_right fun hs ↦ hname _ ?_ ?_ hs
      · intro d hd
        exact hw d ((List.dropWhile_suffix _).subset hd)
      · exact List.dropWhile_idempotent Text.isDecimalDigit (c :: tail)
    · refine .inr ?_
      rw [List.dropWhile_cons_of_neg hc]
      exact hname _ hw (List.dropWhile_cons_of_neg hc) h

/-- Letters, digits and underscores make a word. -/
theorem Solid.of_run (hw : Run isWordChar w) : Solid w where
  ne_nil := hw.ne_nil
  allValues := by
    intro segment hs
    rcases Segment.mem_split_word hw.all hs with rfl | rfl <;> rfl

end WordCharacters

/-- A number is read as it was written. -/
theorem spells_toString (n : Nat) : Spells (toString n) .int := by
  have hdigit : ∀ c ∈ (toString n).toList, Text.isDecimalDigit c = true := by
    intro c hc
    exact Text.isDecimalDigit_of_isDigit (isDigit_of_mem_repr hc)
  have hword : ∀ c ∈ (toString n).toList, isWordChar c = true := by
    intro c hc
    simp [isWordChar, Char.isAlphanum, isDigit_of_mem_repr hc]
  have hne : (toString n).toList ≠ [] := by
    change n.repr.toList ≠ []
    rw [Nat.toList_repr]
    exact Nat.toDigits_ne_nil
  refine ⟨.of_run ⟨hne, hword⟩, ?_⟩
  obtain ⟨c, tail, hcons⟩ := List.exists_cons_of_ne_nil hne
  have hsplit : Segment.split (toString n).toList = [.piece .int (toString n).toList] := by
    rw [hcons] at hdigit hword ⊢
    rw [Segment.split_digits hword (hdigit c (by simp)), List.takeWhile_eq_self_iff.mpr hdigit,
      List.dropWhile_eq_nil_iff.mpr hdigit]
    rfl
  rw [readings, hsplit, List.filterMap_cons, Segment.reading?, Rule.reading?, String.ofList_toList]
  rfl

/-- A word with a certain end is not reserved if no reserved word has it. -/
private theorem Reserved.kindOf_returnVariable {w : String} (h : "Return".toList <:+ w.toList) :
    kindOf w = .name := by
  have hend : ∀ entry ∈ table, ¬ "Return".toList <:+ entry.1.toList := by decide +kernel
  have hnone : table.lookup w = none := by
    rw [List.lookup_eq_none_iff]
    intro entry he
    rw [bne_iff_ne]
    rintro rfl
    exact hend entry he h
  rw [kindOf, hnone]
  rfl

/-- The return variable of a routine is read as a name, or as a number and a name. -/
theorem solid_returnVariable {r : String} (h : ∀ c ∈ r.toList, isWordChar c = true) :
    Solid (returnVariable r).toList ∧
      ∀ reading ∈ readings (returnVariable r).toList, reading.1 = .int ∨ reading.1 = .name := by
  have hcut : (returnVariable r).toList = r.toList ++ "Return".toList := String.toList_append
  have hend : ∀ c ∈ "Return".toList, isWordChar c = true := List.all_eq_true.mp (by decide)
  have hword : ∀ c ∈ (returnVariable r).toList, isWordChar c = true := by
    rw [hcut]
    exact List.forall_mem_append.mpr ⟨h, hend⟩
  refine ⟨.of_run ⟨by simp [hcut], hword⟩, ?_⟩
  intro reading hr
  obtain ⟨segment, hs, hread⟩ := List.mem_filterMap.mp hr
  rcases Segment.mem_split_word hword hs with rfl | rfl
  · simp only [Segment.reading?, Rule.reading?, Option.some.injEq] at hread
    exact .inl (by rw [← hread])
  · simp only [Segment.reading?, Rule.reading?, Option.some.injEq] at hread
    have hsuffix : "Return".toList <:+ (returnVariable r).toList.dropWhile Text.isDecimalDigit := by
      rw [hcut, List.dropWhile_append]
      split
      · exact List.suffix_rfl
      · exact List.suffix_append _ _
    refine .inr ?_
    rw [← hread, Reserved.kindOf_returnVariable (by simpa using hsuffix)]

end MlogAsm
