import Mathlib.Data.List.Pairwise
import MlogAsm.Cursor
import MlogAsm.Proofs.LineBreak
import MlogAsm.Proofs.Spelling

/-!
# Lossless scanning

A scan accounts for every character of a text: it stands in exactly one lexeme, or it is a blank, or
it stands in a comment. Each lexeme knows its line, and the line ends of a text are tokens of it.
-/

namespace MlogAsm

namespace Segment

/-- A segment with the line and the offset where it begins. -/
structure Site where
  segment : Segment
  line : Nat
  start : Nat

namespace Site

/-- The offset behind a segment. -/
def stop (s : Site) : Nat :=
  s.start + s.segment.chars.length

/-- What a segment leaves where it stands. -/
def lexeme? (s : Site) : Option Lexeme :=
  Lexeme.ofSegment? s.line s.start s.segment

end Site

/-- Segments in a row, of which the first begins on a line at an offset. -/
def sites (line start : Nat) : List Segment → List Site
  | [] => []
  | segment :: rest =>
    ⟨segment, line, start⟩ ::
      sites (line + segment.chars.count '\n') (start + segment.chars.length) rest

section Row

variable {line start : Nat} {segments : List Segment}

private theorem exists_of_mem_sites {s : Site} (h : s ∈ sites line start segments) :
    ∃ front back, segments = front ++ s.segment :: back ∧
      s.line = line + (front.flatMap chars).count '\n' ∧
      s.start = start + (front.flatMap chars).length := by
  induction segments generalizing line start with
  | nil => cases h
  | cons segment rest ih =>
    rcases List.mem_cons.mp h with rfl | h
    · exact ⟨[], rest, rfl, rfl, rfl⟩
    · obtain ⟨front, back, rfl, hl, hs⟩ := ih h
      refine ⟨segment :: front, back, rfl, ?_, ?_⟩
      · rw [hl, List.flatMap_cons, List.count_append, Nat.add_assoc]
      · rw [hs, List.flatMap_cons, List.length_append, Nat.add_assoc]

/-- Segments stand one behind the other. -/
private theorem pairwise_sites (line start : Nat) (segments : List Segment) :
    (sites line start segments).Pairwise fun s t ↦ s.stop ≤ t.start := by
  induction segments generalizing line start with
  | nil => exact .nil
  | cons segment rest ih =>
    refine List.pairwise_cons.mpr ⟨fun t ht ↦ ?_, ih _ _⟩
    obtain ⟨_, _, _, _, hs⟩ := exists_of_mem_sites ht
    rw [hs]
    exact Nat.le_add_right _ _

/-- Every offset belongs to a segment. -/
private theorem exists_site (line : Nat) {i : Nat} (hi : start ≤ i)
    (hlt : i < start + (segments.flatMap chars).length) :
    ∃ s ∈ sites line start segments, s.start ≤ i ∧ i < s.stop := by
  induction segments generalizing line start with
  | nil =>
    rw [List.flatMap_nil, List.length_nil] at hlt
    omega
  | cons segment rest ih =>
    by_cases hin : i < start + segment.chars.length
    · exact ⟨⟨segment, line, start⟩, List.mem_cons_self, hi, hin⟩
    · rw [List.flatMap_cons, List.length_append] at hlt
      obtain ⟨s, hs, hle⟩ := ih (line + segment.chars.count '\n') (Nat.le_of_not_lt hin) (by omega)
      exact ⟨s, List.mem_cons_of_mem _ hs, hle⟩

end Row

/-- What a segment is, from how it begins. -/
private theorem first_cases (c : Char) (rest : List Char) :
    (first c rest = .blank c ∧ isBlank c = true) ∨
    (∃ rule piece, first c rest = .piece rule piece ∧ rule.lexeme? (c :: rest) = some piece) ∨
    (first c rest = .stray c ∧ ∀ rule : Rule, rule.lexeme? (c :: rest) = none) := by
  unfold first
  split
  · next hb => exact .inl ⟨rfl, hb⟩
  · split
    · next rule piece hf =>
      obtain ⟨found, _, hfound⟩ := List.exists_of_findSome?_eq_some hf
      obtain ⟨taken, ht, he⟩ := Option.map_eq_some_iff.mp hfound
      cases he
      exact .inr (.inl ⟨rule, piece, rfl, ht⟩)
    · next hf =>
      refine .inr (.inr ⟨rfl, fun rule ↦ ?_⟩)
      have hmem : rule ∈ Rule.all := by cases rule <;> decide
      simpa using List.findSome?_eq_none_iff.mp hf rule hmem

/-- A line end is a segment of its own, and no other segment has one in it. -/
theorem eq_newline_or_not_mem {cs : List Char} {segment : Segment} (h : segment ∈ split cs) :
    segment = .piece .newline ['\n'] ∨
      '\n' ∉ segment.chars ∧ ∀ piece, segment ≠ .piece .newline piece := by
  obtain ⟨front, back, hcut⟩ := List.append_of_mem h
  obtain ⟨c, rest, rfl, _⟩ := exists_first_of_split hcut
  by_cases hc : c = '\n'
  · subst hc
    exact .inl (first_newline rest)
  · rcases first_cases c rest with ⟨he, _⟩ | ⟨rule, piece, he, ht⟩ | ⟨he, _⟩
    · simp [he, chars, Ne.symm hc]
    · rw [he]
      have hm := (rule.takesLongest_lexeme?.sound ht).1
      by_cases hr : rule = .newline
      · subst hr
        exact .inl (congrArg _ hm)
      · exact .inr ⟨Rule.newline_not_mem_of_matches hr hm, by simp [hr]⟩
    · simp [he, chars, Ne.symm hc]

end Segment

namespace Reserved

/-- No word is reserved for a declaration or for the end of a line. -/
theorem kindOf_ne (word : String) :
    (kindOf word).isDeclaration = false ∧ kindOf word ≠ .newline := by
  have hall : table.all (fun entry ↦ !entry.2.isDeclaration && entry.2 != .newline) = true := by
    decide
  unfold kindOf
  cases hl : table.lookup word with
  | none => decide
  | some kind =>
    obtain ⟨front, back, hcut, _⟩ := List.lookup_eq_some_iff.mp hl
    have hentry := List.all_eq_true.mp hall (word, kind) (by simp [hcut])
    simpa using hentry

end Reserved

namespace Lexeme

/-- The end of a line. -/
def isLineEnd : Lexeme → Bool
  | token t => t.kind == .newline
  | stray _ _ _ => false

/-- The characters with which a lexeme is written: its value, with a colon behind the name of a
label and with all of its header around the name of a routine. -/
inductive Spelled : Lexeme → List Char → Prop where
  | label {t : Token} (hk : t.kind = .label) : Spelled (token t) (t.value.toList ++ [':'])
  | routine {t : Token} {gap : List Char} (hk : t.kind = .routine) (hg : Run isGap gap) :
      Spelled (token t) (Rule.routineWord ++ (gap ++ (t.value.toList ++ [':'])))
  | plain {t : Token} (hk : t.kind.isDeclaration = false) : Spelled (token t) t.value.toList
  | stray (c : Char) (line pos : Nat) : Spelled (stray c line pos) [c]

theorem ofSegments_eq_filterMap (line pos : Nat) (segments : List Segment) :
    ofSegments line pos segments =
      (Segment.sites line pos segments).filterMap Segment.Site.lexeme? := by
  induction segments generalizing line pos with
  | nil => rfl
  | cons segment rest ih =>
    rw [ofSegments, Segment.sites, List.filterMap_cons, ih]
    unfold Segment.Site.lexeme?
    cases ofSegment? line pos segment <;> rfl

theorem line_pos_of_lexeme? {s : Segment.Site} {l : Lexeme} (h : s.lexeme? = some l) :
    l.line = s.line ∧ l.pos = s.start := by
  obtain ⟨segment, line, start⟩ := s
  cases segment with
  | blank c => cases h
  | piece rule piece =>
    obtain ⟨⟨kind, value⟩, _, he⟩ := Option.map_eq_some_iff.mp h
    cases he
    exact ⟨rfl, rfl⟩
  | stray c =>
    cases h
    exact ⟨rfl, rfl⟩

/-- A token is written as its rule demands. -/
private theorem spelled_of_reading? {rule : Rule} {piece : List Char} {t : Token}
    (hm : rule.Matches piece) (h : rule.reading? piece = some (t.kind, t.value)) :
    Spelled (token t) piece := by
  cases rule with
  | routine =>
    obtain ⟨gap, word, rfl, hg, hw⟩ := hm
    simp only [Rule.reading?, Option.some.injEq, Prod.mk.injEq,
      Rule.dropLast_dropWhile_drop hg hw] at h
    have hword : word = t.value.toList := by rw [← h.2, String.toList_ofList]
    rw [hword]
    exact .routine h.1.symm hg
  | label =>
    obtain ⟨word, rfl, _⟩ := hm
    simp only [Rule.reading?, Option.some.injEq, Prod.mk.injEq, List.dropLast_concat] at h
    have hword : word = t.value.toList := by rw [← h.2, String.toList_ofList]
    rw [hword]
    exact .label h.1.symm
  | float | int | string | sysvar | newline | name =>
    have hk : t.kind.isDeclaration = false := by
      simp only [Rule.reading?, Option.some.injEq, Prod.mk.injEq] at h
      rw [← h.1]
      first
      | rfl
      | exact (Reserved.kindOf_ne _).1
    rw [← Rule.toList_value_of_reading? h hk]
    exact .plain hk
  | comment => cases h

theorem isLineEnd_of_ofSegment? {line pos : Nat} {segment : Segment} {l : Lexeme}
    (h : ofSegment? line pos segment = some l) (hs : ∀ piece, segment ≠ .piece .newline piece) :
    l.isLineEnd = false := by
  cases segment with
  | blank c => cases h
  | stray c =>
    cases h
    rfl
  | piece rule piece =>
    obtain ⟨⟨kind, value⟩, hr, he⟩ := Option.map_eq_some_iff.mp h
    cases he
    cases rule with
    | newline => exact absurd rfl (hs piece)
    | comment => cases hr
    | name =>
      simp only [Rule.reading?, Option.some.injEq, Prod.mk.injEq] at hr
      simpa [isLineEnd, ← hr.1] using (Reserved.kindOf_ne _).2
    | routine | label | float | int | string | sysvar =>
      simp only [Rule.reading?, Option.some.injEq, Prod.mk.injEq] at hr
      simp [isLineEnd, ← hr.1]

/-- The offsets of the line ends among the lexemes of segments are the offsets of the line ends
among their characters. -/
private theorem map_pos_ofSegments {segments : List Segment} (line pos : Nat)
    (h : ∀ segment ∈ segments, segment = .piece .newline ['\n'] ∨
      '\n' ∉ segment.chars ∧ ∀ piece, segment ≠ .piece .newline piece) :
    ((ofSegments line pos segments).filter isLineEnd).map Lexeme.pos =
      (segments.flatMap Segment.chars).idxsOf '\n' pos := by
  induction segments generalizing line pos with
  | nil => rfl
  | cons segment rest ih =>
    obtain ⟨hs, hrest⟩ := List.forall_mem_cons.mp h
    rw [ofSegments, List.flatMap_cons, List.idxsOf_append, List.filter_append, List.map_append,
      ih _ _ hrest]
    congr 1
    rcases hs with rfl | ⟨hn, hne⟩
    · rfl
    · have hnone : segment.chars.idxsOf '\n' pos = [] := by
        apply List.idxsOf_eq_nil_iff.mpr
        intro c hc
        apply beq_eq_false_iff_ne.mpr
        rintro rfl
        exact hn hc
      rw [hnone]
      cases hl : ofSegment? line pos segment with
      | none => rfl
      | some l => simp [isLineEnd_of_ofSegment? hl hne]

end Lexeme

/-- A lexeme with the characters that it takes of the text. -/
structure Span where
  lexeme : Lexeme
  chars : List Char

namespace Span

/-- The offset of the first character. -/
def start (s : Span) : Nat :=
  s.lexeme.pos

/-- The offset behind the last character. -/
def stop (s : Span) : Nat :=
  s.lexeme.pos + s.chars.length

/-- The characters that a segment takes, if it leaves a lexeme. -/
def ofSite? (s : Segment.Site) : Option Span :=
  s.lexeme?.map (⟨·, s.segment.chars⟩)

/-- The lexemes of a text with their characters. -/
def ofText (text : String) : List Span :=
  (Segment.sites 1 0 (Segment.split text.toList)).filterMap ofSite?

private theorem map_lexeme_ofText (text : String) :
    (ofText text).map lexeme = Lexeme.scan text := by
  unfold ofText Lexeme.scan
  rw [Lexeme.ofSegments_eq_filterMap, List.map_filterMap]
  congr 1
  funext s
  unfold ofSite?
  cases s.lexeme? <;> rfl

private theorem start_stop_of_site {s : Segment.Site} {span : Span} (h : ofSite? s = some span) :
    span.start = s.start ∧ span.stop = s.stop := by
  obtain ⟨l, hl, rfl⟩ := Option.map_eq_some_iff.mp h
  have hpos := (Lexeme.line_pos_of_lexeme? hl).2
  exact ⟨hpos, by simp only [stop, Segment.Site.stop, hpos]⟩

end Span

/-- A comment begins with a number sign, and ends before the end of its line or with the text. -/
structure IsComment (text : String) (start stop : Nat) : Prop where
  head : text.toList[start]? = some '#'
  inside : ∀ i, start ≤ i → i < stop → text.toList[i]? ≠ some '\n'
  ended : stop = text.toList.length ∨ text.toList[stop]? = some '\n'

namespace Segment

variable {text : String} {s t : Site}

/-- A segment of a text stands at its offset, and behind as many line ends as its line says. -/
theorem exists_of_mem_sites_split (h : s ∈ sites 1 0 (split text.toList)) :
    ∃ c rest back, s.segment = first c rest ∧ text.toList.drop s.start = c :: rest ∧
      c :: rest = s.segment.chars ++ back ∧ s.line = 1 + (text.toList.take s.start).count '\n' := by
  obtain ⟨front, back, hcut, hl, hs⟩ := exists_of_mem_sites h
  obtain ⟨c, rest, hf, hc⟩ := exists_first_of_split hcut
  have htext : text.toList = front.flatMap chars ++ (c :: rest) := by
    rw [← flatMap_chars_split text.toList, hcut, List.flatMap_append, List.flatMap_cons, hc]
  rw [Nat.zero_add] at hs
  refine ⟨c, rest, back.flatMap chars, hf, ?_, hc, ?_⟩
  · rw [htext, hs, List.drop_left]
  · rw [hl, htext, hs, List.take_left]

/-- Two segments of a text are the same, or one stands behind the other. -/
private theorem apart_of_mem_sites {line start : Nat} {segments : List Segment}
    (hs : s ∈ sites line start segments) (ht : t ∈ sites line start segments) :
    s = t ∨ s.stop ≤ t.start ∨ t.stop ≤ s.start := by
  have hpair := pairwise_sites line start segments
  refine List.Pairwise.forall_of_forall_of_flip
    (R := fun s t : Site ↦ s = t ∨ s.stop ≤ t.start ∨ t.stop ≤ s.start)
    (fun _ _ ↦ .inl rfl) ?_ ?_ hs ht
  · exact hpair.imp fun h ↦ .inr (.inl h)
  · exact hpair.imp fun h ↦ .inr (.inr h)

/-- A character at an offset, seen from the place of a segment. -/
private theorem getElem?_eq_getElem?_sub {cs : List Char} {i : Nat}
    (hdrop : text.toList.drop s.start = cs) (hi : s.start ≤ i) :
    text.toList[i]? = cs[i - s.start]? := by
  rw [← hdrop, List.getElem?_drop, Nat.add_sub_cancel' hi]

/-- A piece of a text is what its rule takes there. -/
theorem lexeme?_of_mem_sites (h : s ∈ sites 1 0 (split text.toList)) {rule : Rule}
    {piece : List Char} (hs : s.segment = .piece rule piece) :
    rule.lexeme? (text.toList.drop s.start) = some piece := by
  obtain ⟨c, rest, _, hf, hdrop, _⟩ := exists_of_mem_sites_split h
  rw [hs] at hf
  rw [hdrop]
  rcases first_cases c rest with ⟨he, _⟩ | ⟨found, taken, he, ht⟩ | ⟨he, _⟩
  · rw [he] at hf
    cases hf
  · rw [he] at hf
    cases hf
    exact ht
  · rw [he] at hf
    cases hf

/-- What the rule for comments takes is a comment. -/
private theorem isComment_of_mem_sites (h : s ∈ sites 1 0 (split text.toList)) {piece : List Char}
    (hs : s.segment = .piece .comment piece) : IsComment text s.start s.stop := by
  obtain ⟨c, rest, back, _, hdrop, hcut, _⟩ := exists_of_mem_sites_split h
  have hlexeme := lexeme?_of_mem_sites h hs
  have hm := (Rule.takesLongest_comment.sound hlexeme).1
  have hnewline : '\n' ∉ piece := Rule.newline_not_mem_of_matches (by decide) hm
  obtain ⟨tail, hpiece, htail⟩ := hm
  have hchars : s.segment.chars = piece := by rw [hs]; rfl
  have hstop : s.stop = s.start + piece.length := by rw [Site.stop, hchars]
  rw [hdrop] at hlexeme
  rw [hchars] at hcut
  rw [hcut] at hdrop hlexeme
  constructor
  · rw [getElem?_eq_getElem?_sub hdrop (Nat.le_refl _), Nat.sub_self, hpiece]
    rfl
  · intro i hi hlt
    rw [getElem?_eq_getElem?_sub hdrop hi, List.getElem?_append_left (by omega)]
    exact fun hn ↦ hnewline (List.mem_of_getElem? hn)
  · cases back with
    | nil =>
      have hlength := congrArg List.length hdrop
      rw [List.length_drop, List.append_nil] at hlength
      have hpos : 0 < piece.length := by rw [hpiece]; exact Nat.succ_pos _
      exact .inl (by omega)
    | cons d back =>
      -- Any character but a line end would have been taken too.
      have hd : d = '\n' := by
        by_contra hd
        have hlonger : Rule.comment.Matches (piece ++ [d]) := by
          refine ⟨tail ++ [d], by rw [hpiece]; rfl, ?_⟩
          simp [htail, Ne.symm hd]
        obtain ⟨taken, ht, hle⟩ := Rule.takesLongest_comment.longest back hlonger
        rw [← List.append_cons, hlexeme] at ht
        cases ht
        have hlength := hle.length_le
        rw [List.length_append, List.length_singleton] at hlength
        omega
      right
      rw [getElem?_eq_getElem?_sub hdrop (by omega), hstop, Nat.add_sub_cancel_left,
        List.getElem?_append_right (Nat.le_refl _), Nat.sub_self, hd]
      rfl

/-- A character outside of all lexemes is a blank or stands in a comment. -/
private theorem isBlank_or_isComment (h : s ∈ sites 1 0 (split text.toList)) (hl : s.lexeme? = none)
    {i : Nat} {c : Char} (hc : text.toList[i]? = some c) (hi : s.start ≤ i) (hlt : i < s.stop) :
    isBlank c = true ∨ IsComment text s.start s.stop := by
  cases hs : s.segment with
  | blank b =>
    obtain ⟨d, rest, _, hf, hdrop, _⟩ := exists_of_mem_sites_split h
    have hstart : i = s.start := by
      rw [Site.stop, hs, chars, List.length_singleton] at hlt
      omega
    rw [getElem?_eq_getElem?_sub hdrop hi, hstart, Nat.sub_self] at hc
    cases hc
    rcases first_cases c rest with ⟨_, hb⟩ | ⟨rule, piece, he, _⟩ | ⟨he, _⟩
    · exact .inl hb
    · rw [hs, he] at hf
      cases hf
    · rw [hs, he] at hf
      cases hf
  | piece rule piece =>
    have hrule : rule = .comment := by
      rw [Site.lexeme?, hs, Lexeme.ofSegment?, Option.map_eq_none_iff] at hl
      cases rule <;> simp [Rule.reading?] at hl ⊢
    subst hrule
    exact .inr (isComment_of_mem_sites h hs)
  | stray b =>
    rw [Site.lexeme?, hs] at hl
    cases hl

end Segment

namespace Span

variable {text : String} {s : Span}

private theorem exists_site_of_mem_ofText (h : s ∈ ofText text) :
    ∃ site ∈ Segment.sites 1 0 (Segment.split text.toList),
      site.lexeme? = some s.lexeme ∧ s.chars = site.segment.chars := by
  obtain ⟨site, hsite, hs⟩ := List.mem_filterMap.mp h
  obtain ⟨l, hl, rfl⟩ := Option.map_eq_some_iff.mp hs
  exact ⟨site, hsite, hl, rfl⟩

/-- A lexeme stands in the text as it is written. -/
theorem spelled_of_mem_ofText (h : s ∈ ofText text) :
    s.chars ≠ [] ∧ s.chars <+: text.toList.drop s.start ∧ s.lexeme.Spelled s.chars := by
  obtain ⟨site, hsite, hl, hc⟩ := exists_site_of_mem_ofText h
  obtain ⟨c, rest, back, hf, hdrop, hcut, _⟩ := Segment.exists_of_mem_sites_split hsite
  rw [hc]
  refine ⟨?_, ?_, ?_⟩
  · rw [hf]
    exact (Segment.first_takes c rest).1
  · rw [start, (Lexeme.line_pos_of_lexeme? hl).2, hdrop, hcut]
    exact List.prefix_append _ _
  · cases hs : site.segment with
    | blank b =>
      rw [Segment.Site.lexeme?, hs] at hl
      cases hl
    | piece rule piece =>
      have hm := (rule.takesLongest_lexeme?.sound (Segment.lexeme?_of_mem_sites hsite hs)).1
      rw [Segment.Site.lexeme?, hs] at hl
      obtain ⟨⟨kind, value⟩, hr, he⟩ := Option.map_eq_some_iff.mp hl
      rw [← he]
      exact Lexeme.spelled_of_reading? hm hr
    | stray b =>
      rw [Segment.Site.lexeme?, hs] at hl
      rw [← Option.some.inj hl]
      exact .stray b _ _

/-- Lexemes stand one behind the other. -/
theorem pairwise_ofText (text : String) : (ofText text).Pairwise fun s t ↦ s.stop ≤ t.start := by
  refine List.Pairwise.filterMap ofSite? ?_ (Segment.pairwise_sites _ _ _)
  intro a b hab s hs t ht
  rw [(start_stop_of_site hs).2, (start_stop_of_site ht).1]
  exact hab

/-- What stands in no lexeme is a blank or part of a comment, which stands in no lexeme either. -/
theorem isBlank_or_comment {i : Nat} {c : Char} (hc : text.toList[i]? = some c)
    (hout : ∀ s ∈ ofText text, i < s.start ∨ s.stop ≤ i) :
    isBlank c = true ∨ ∃ start stop, IsComment text start stop ∧ start ≤ i ∧ i < stop ∧
      ∀ s ∈ ofText text, s.stop ≤ start ∨ stop ≤ s.start := by
  have hlength : i < 0 + ((Segment.split text.toList).flatMap Segment.chars).length := by
    rw [Segment.flatMap_chars_split, Nat.zero_add]
    exact (List.getElem?_eq_some_iff.mp hc).1
  obtain ⟨site, hsite, hi, hlt⟩ := Segment.exists_site 1 (Nat.zero_le i) hlength
  have hnone : site.lexeme? = none := by
    cases hl : site.lexeme? with
    | none => rfl
    | some l =>
      have hs : ofSite? site = some ⟨l, site.segment.chars⟩ := by rw [ofSite?, hl]; rfl
      have := hout _ (List.mem_filterMap.mpr ⟨site, hsite, hs⟩)
      obtain ⟨hstart, hstop⟩ := start_stop_of_site hs
      omega
  rcases Segment.isBlank_or_isComment hsite hnone hc hi hlt with hb | hcomment
  · exact .inl hb
  · refine .inr ⟨site.start, site.stop, hcomment, hi, hlt, fun s hs ↦ ?_⟩
    obtain ⟨other, hother, hs⟩ := List.mem_filterMap.mp hs
    obtain ⟨hstart, hstop⟩ := start_stop_of_site hs
    rw [hstart, hstop]
    rcases Segment.apart_of_mem_sites hother hsite with rfl | h | h
    · rw [ofSite?, hnone] at hs
      cases hs
    · exact .inl h
    · exact .inr h

end Span

namespace Lexeme

variable {text : String}

/-- The line of a lexeme is one more than the line ends before it. -/
theorem line_eq_count {l : Lexeme} (h : l ∈ scan text) :
    l.line = 1 + (text.toList.take l.pos).count '\n' := by
  rw [scan, ofSegments_eq_filterMap] at h
  obtain ⟨site, hsite, hl⟩ := List.mem_filterMap.mp h
  obtain ⟨_, _, _, _, _, _, hline⟩ := Segment.exists_of_mem_sites_split hsite
  obtain ⟨hl, hp⟩ := line_pos_of_lexeme? hl
  rw [hl, hp, hline]

theorem pairwise_pos_scan (text : String) : (scan text).Pairwise fun l m ↦ l.pos < m.pos := by
  rw [← Span.map_lexeme_ofText, List.pairwise_map]
  refine (Span.pairwise_ofText text).imp_of_mem fun {s t} hs _ hst ↦ ?_
  have := List.length_pos_iff.mpr (Span.spelled_of_mem_ofText hs).1
  unfold Span.stop Span.start at hst
  omega

/-- The line ends among the lexemes stand where the line ends of the text stand. -/
theorem map_pos_scan (text : String) :
    ((scan text).filter isLineEnd).map pos = text.toList.idxsOf '\n' := by
  rw [scan, map_pos_ofSegments 1 0 fun _ ↦ Segment.eq_newline_or_not_mem,
    Segment.flatMap_chars_split]

/-- What a call of `next` gives at a lexeme. -/
def outcome : Lexeme → Except Fault Token
  | token t => .ok t
  | stray c line _ => .error ⟨.strayCharacter c, some line, none⟩

end Lexeme

namespace Reader

private theorem length_rest_lt_of_next_error {c d : Cursor} {f : Fault} (h : next c = .error f d) :
    d.rest.length < c.rest.length := by
  unfold next at h
  split at h
  · cases h
  · cases h
  · next hc =>
    cases h
    simp [Cursor.pull, hc]

/-- What the calls of `next` give up to the end of the text: tokens, and faults at stray
characters. -/
def drain (c : Cursor) : List (Except Fault Token) :=
  match _h : next c with
  | .error f d => .error f :: drain d
  | .ok none _ => []
  | .ok (some t) d => .ok t :: drain d
termination_by c.rest.length
decreasing_by
  · exact length_rest_lt_of_next_error _h
  · exact length_rest_lt_of_next _h

/-- Pulling to the end meets all lexemes in order. -/
theorem drain_eq (c : Cursor) : drain c = c.rest.map Lexeme.outcome := by
  fun_induction drain c with
  | case1 c f d h ih =>
    unfold next at h
    split at h
    · cases h
    · cases h
    · next hc =>
      cases h
      rw [ih, hc]
      simp [Cursor.pull, hc, Lexeme.outcome]
  | case2 c d h =>
    rw [(next_eq_ok_none_iff.mp h).1]
    rfl
  | case3 c t d h ih =>
    obtain ⟨rest, hc, rfl⟩ := next_eq_ok_some_iff.mp h
    rw [ih, hc]
    rfl

end Reader

/-- Pulling to the end of a text meets its lexemes one behind the other. They hold every character
of it but blanks and comments, each lexeme says as its value what stands there, each line end is a
token, and the line of a lexeme counts the line ends before it. -/
theorem scan_is_lossless (text : String) :
    Reader.drain (Cursor.ofText text) = (Lexeme.scan text).map Lexeme.outcome ∧
    (Lexeme.scan text).Pairwise (fun l m ↦ l.pos < m.pos) ∧
    (∃ spans : List Span, spans.map Span.lexeme = Lexeme.scan text ∧
      (∀ s ∈ spans, s.chars ≠ [] ∧ s.chars <+: text.toList.drop s.start ∧
        s.lexeme.Spelled s.chars) ∧
      spans.Pairwise (fun s t ↦ s.stop ≤ t.start) ∧
      ∀ i c, text.toList[i]? = some c → (∀ s ∈ spans, i < s.start ∨ s.stop ≤ i) →
        isBlank c = true ∨ ∃ start stop, IsComment text start stop ∧ start ≤ i ∧ i < stop ∧
          ∀ s ∈ spans, s.stop ≤ start ∨ stop ≤ s.start) ∧
    ((Lexeme.scan text).filter Lexeme.isLineEnd).map Lexeme.pos = text.toList.idxsOf '\n' ∧
    ∀ l ∈ Lexeme.scan text, l.line = 1 + (text.toList.take l.pos).count '\n' := by
  refine ⟨Reader.drain_eq _, Lexeme.pairwise_pos_scan text, ⟨Span.ofText text, ?_, ?_, ?_, ?_⟩,
    Lexeme.map_pos_scan text, fun l ↦ Lexeme.line_eq_count⟩
  · exact Span.map_lexeme_ofText text
  · exact fun s ↦ Span.spelled_of_mem_ofText
  · exact Span.pairwise_ofText text
  · exact fun i c ↦ Span.isBlank_or_comment

end MlogAsm
