import Mathlib.Data.List.TakeWhile
import MlogAsm.Proofs.RuleLanguage
import MlogAsm.Token.Lexeme

/-!
# Spaces

A text can be cut at a space, unless the space stands between quotes, in a comment, or between the
word `routine` and the name that it declares. So a comment behind a text leaves no trace in its
lexemes, and words with spaces between them are cut one by one.
-/

namespace MlogAsm

/-- A beginning of a text ends before a certain character, or goes beyond it. -/
private theorem prefix_append_cons_cases {stop : Char} {u cs rest : List Char}
    (h : u <+: cs ++ stop :: rest) : u <+: cs ∨ ∃ v, u = cs ++ stop :: v ∧ v <+: rest := by
  rcases List.prefix_or_prefix_of_prefix h (List.prefix_append cs _) with hu | ⟨v, hv⟩
  · exact .inl hu
  · rw [← hv, List.prefix_append_right_inj] at h
    cases v with
    | nil =>
      rw [List.append_nil] at hv
      exact .inl (hv ▸ List.prefix_refl _)
    | cons c v =>
      obtain ⟨hc, hpre⟩ := List.cons_prefix_cons.mp h
      exact .inr ⟨v, by rw [← hv, hc], hpre⟩

/-- A character that is not in the second part of a text is in the first one. -/
private theorem exists_of_append_eq_append_cons {stop : Char} {xs ys cs v : List Char}
    (hy : stop ∉ ys) (h : xs ++ ys = cs ++ stop :: v) :
    ∃ w, xs = cs ++ stop :: w ∧ v = w ++ ys := by
  rcases List.append_eq_append_iff.mp h with ⟨as, -, hys⟩ | ⟨bs, hxs, hv⟩
  · exact absurd (by simp [hys]) hy
  · cases bs with
    | nil =>
      rw [List.nil_append] at hv
      exact absurd (hv ▸ List.mem_cons_self) hy
    | cons b bs =>
      obtain ⟨hb, hbs⟩ := List.cons.inj hv
      exact ⟨bs, by rw [hxs, hb], hbs⟩

namespace Rule

/-- A header that goes beyond a space has a name and a colon behind the space. -/
private theorem lexeme?_routine_append_space {rest : List Char}
    (h : labelLexeme? (rest.dropWhile isGap) = none) (cs : List Char) :
    routine.lexeme? (cs ++ ' ' :: rest) = routine.lexeme? cs := by
  apply routine.takesLongest_lexeme?.congr
  intro u hu
  constructor
  · intro hpre
    rcases prefix_append_cons_cases hpre with hcs | ⟨v, hv, more, hmore⟩
    · exact hcs
    · obtain ⟨gap, word, hcut, hg, hw⟩ := hu
      have hspace : ' ' ∉ word := hw.not_mem (by decide)
      have hcolon : ' ' ∉ word ++ [':'] := by simp [hspace]
      rw [hv, ← List.append_assoc] at hcut
      -- The space is not in the name, and not in the word `routine`, so it is in the gap.
      obtain ⟨w, hfront, hvw⟩ := exists_of_append_eq_append_cons hcolon hcut.symm
      have hgap : ∀ c ∈ w, isGap c = true := by
        intro c hc
        rcases List.append_eq_append_iff.mp hfront with ⟨as, hcs, has⟩ | ⟨bs, hrw, hbs⟩
        · exact hg.all c (by simp [has, hc])
        · cases bs with
          | nil =>
            rw [List.nil_append] at hbs
            exact hg.all c (hbs ▸ List.mem_cons_of_mem _ hc)
          | cons b bs =>
            have hmem : ' ' ∈ routineWord := by
              rw [hrw, ← (List.cons.inj hbs).1]
              simp
            exact absurd hmem (by decide)
      obtain ⟨c, tail, hcons, hc⟩ := hw.exists_cons
      have hdrop : rest.dropWhile isGap = word ++ [':'] ++ more := by
        rw [← hmore, hvw, List.append_assoc, List.dropWhile_append_of_pos hgap, hcons]
        simp [not_isGap_of_isWordChar hc]
      obtain ⟨piece, hpiece, _⟩ := takesLongest_labelLexeme?.longest more ⟨word, rfl, hw⟩
      rw [hdrop, hpiece] at h
      cases h
  · intro hcs
    exact hcs.trans (List.prefix_append cs _)

/-- Quotes that are open at a space stay open if no quote comes behind it. -/
private theorem lexeme?_string_append_space {rest : List Char} (h : '"' ∉ rest) (cs : List Char) :
    string.lexeme? (cs ++ ' ' :: rest) = string.lexeme? cs := by
  apply string.takesLongest_lexeme?.congr
  intro u hu
  constructor
  · intro hpre
    rcases prefix_append_cons_cases hpre with hcs | ⟨v, hv, hvr⟩
    · exact hcs
    · obtain ⟨body, hbody, _⟩ := hu
      have hlast : (cs ++ ' ' :: v).getLast? = some '"' := by
        rw [← hv, hbody, ← List.cons_append]
        exact List.getLast?_concat
      rw [List.getLast?_append] at hlast
      cases v with
      | nil => simp at hlast
      | cons c v =>
        have hmem : '"' ∈ c :: v := List.mem_of_getLast? (by simpa using hlast)
        exact absurd (hvr.subset hmem) h
  · intro hcs
    exact hcs.trans (List.prefix_append cs _)

/-- What is closed stays closed. -/
theorem lexeme?_string_append {cs piece : List Char} (h : string.lexeme? cs = some piece)
    (rest : List Char) : string.lexeme? (cs ++ rest) = some piece := by
  obtain ⟨⟨body, hbody, hq⟩, more, hmore⟩ := string.takesLongest_lexeme?.sound h
  rw [← hmore, hbody]
  simp [lexeme?, closeQuote?_append hq]

/-- Only a comment ends with a blank. -/
private theorem not_matches_concat_blank {rule : Rule} (hr : rule ≠ comment) {b : Char}
    (hb : isBlank b = true) (cs : List Char) : ¬ rule.Matches (cs ++ [b]) := by
  have hlast (u : List Char) (c : Char) (h : cs ++ [b] = u ++ [c]) : isBlank c = true := by
    have hbc : [b] = [c] := (List.append_inj' h rfl).2
    rwa [← List.singleton_inj.mp hbc]
  intro h
  cases rule with
  | routine =>
    obtain ⟨gap, word, hcut, -, -⟩ := h
    rw [← List.append_assoc, ← List.append_assoc] at hcut
    exact absurd (hlast _ _ hcut) (by decide)
  | label =>
    obtain ⟨word, hcut, -⟩ := h
    exact absurd (hlast _ _ hcut) (by decide)
  | string =>
    obtain ⟨body, hcut, -⟩ := h
    rw [← List.cons_append] at hcut
    exact absurd (hlast _ _ hcut) (by decide)
  | newline => exact absurd (hlast [] _ h) (by decide)
  | comment => exact hr rfl
  | float | int | sysvar | name =>
    exact not_mem_of_isUnbroken rfl h (.inl hb) (List.mem_append_right cs List.mem_cons_self)

/-- No rule but that for comments looks at a blank behind a text. -/
private theorem lexeme?_append_blank {rule : Rule} (hr : rule ≠ comment) {b : Char}
    (hb : isBlank b = true) (cs : List Char) : rule.lexeme? (cs ++ [b]) = rule.lexeme? cs := by
  apply rule.takesLongest_lexeme?.congr
  intro u hu
  rw [List.prefix_concat_iff, or_iff_right]
  rintro rfl
  exact not_matches_concat_blank hr hb cs hu

/-- What begins with a quote is text in quotes, and what begins with a number sign is a comment. -/
theorem lexeme?_mark_cons {mark : Char} (hm : mark = '"' ∨ mark = '#') {rule : Rule}
    (hs : rule ≠ string) (hc : rule ≠ comment) (rest : List Char) :
    rule.lexeme? (mark :: rest) = none := by
  have hword : isWordChar mark = false := by rcases hm with rfl | rfl <;> decide
  have hdigit : Text.isDecimalDigit mark = false := by rcases hm with rfl | rfl <;> decide
  cases rule with
  | routine =>
    rcases hm with rfl | rfl <;> simp [lexeme?, routineLexeme?, routineWord, List.isPrefixOf]
  | label => rcases hm with rfl | rfl <;> simp [lexeme?, labelLexeme?, hword]
  | float =>
    rcases hm with rfl | rfl <;> simp [lexeme?, signed?, decimal?, digits?, hdigit]
  | int => rcases hm with rfl | rfl <;> simp [lexeme?, signed?, digits?, hdigit]
  | sysvar | name | newline => rcases hm with rfl | rfl <;> simp [lexeme?]
  | string => exact absurd rfl hs
  | comment => exact absurd rfl hc

end Rule

namespace Segment

/-- A comment goes to the end of its line. -/
theorem first_comment (rest : List Char) :
    first '#' rest = .piece .comment ('#' :: rest.takeWhile (· != '\n')) := by
  have hrule : ∀ rule : Rule, rule ≠ .comment → rule.lexeme? ('#' :: rest) = none := by
    intro rule hr
    by_cases hs : rule = .string
    · simp [hs, Rule.lexeme?]
    · exact Rule.lexeme?_mark_cons (.inr rfl) hs hr rest
  have hpiece : firstPiece? ('#' :: rest) =
      some (.comment, '#' :: rest.takeWhile (· != '\n')) := by
    simp [firstPiece?, Rule.all, hrule]
    rfl
  simp [first, hpiece, isBlank]

/-- A segment that is no comment ends before a space, if quotes are the same with and without what
comes behind it, and no name with a colon stands there. -/
theorem first_append_space {c : Char} {tail rest : List Char} (hc : c ≠ '#')
    (hlabel : Rule.labelLexeme? (rest.dropWhile isGap) = none)
    (hstring : Rule.string.lexeme? (c :: tail ++ ' ' :: rest) = Rule.string.lexeme? (c :: tail)) :
    first c (tail ++ ' ' :: rest) = first c tail := by
  have hrule : ∀ rule : Rule, rule.lexeme? (c :: (tail ++ ' ' :: rest)) =
      rule.lexeme? (c :: tail) := by
    intro rule
    rw [← List.cons_append]
    cases rule with
    | routine => exact Rule.lexeme?_routine_append_space hlabel (c :: tail)
    | string => exact hstring
    | label | float | int | sysvar | name =>
      exact Rule.lexeme?_append_cons
        (fun u hu ↦ Rule.not_mem_of_isUnbroken rfl hu (.inl rfl)) (c :: tail) rest
    | newline =>
      refine Rule.lexeme?_append_cons (fun u hu ↦ ?_) (c :: tail) rest
      rw [show u = ['\n'] from hu]
      decide
    | comment => simp [Rule.lexeme?, hc]
  unfold first firstPiece?
  simp only [hrule]

/-- A segment that is no comment ends before a blank behind the text. -/
private theorem first_append_blank {b : Char} (hb : isBlank b = true) {c : Char} (hc : c ≠ '#')
    {tail : List Char} : first c (tail ++ [b]) = first c tail := by
  have hrule : ∀ rule : Rule, rule.lexeme? (c :: (tail ++ [b])) = rule.lexeme? (c :: tail) := by
    intro rule
    by_cases hr : rule = .comment
    · simp [hr, Rule.lexeme?, hc]
    · exact Rule.lexeme?_append_blank hr hb (c :: tail)
  unfold first firstPiece?
  simp only [hrule]

/-- A comment without its line end is one segment. -/
private theorem split_comment {rest : List Char} (h : '\n' ∉ rest) :
    split ('#' :: rest) = [.piece .comment ('#' :: rest)] := by
  have hall : ∀ c ∈ rest, (c != '\n') = true := by
    intro c hc
    rw [bne_iff_ne]
    rintro rfl
    exact h hc
  rw [split_cons, first_comment, List.takeWhile_eq_self_iff.mpr hall]
  simp [chars, split, splitFrom]

theorem split_space (rest : List Char) : split (' ' :: rest) = .blank ' ' :: split rest := by
  have hfirst : first ' ' rest = .blank ' ' := by simp [first, isBlank]
  rw [split_cons, hfirst]
  rfl

end Segment

namespace Lexeme

/-- What stands behind a text leaves no trace in its lexemes, if it has none of its own, belongs to
the line, and no segment but a comment goes on into it. -/
private theorem ofSegments_append_of_first {more : List Char} (hn : '\n' ∉ more)
    (hmore : ∀ line pos, ofSegments line pos (Segment.split more) = [])
    (hfirst : ∀ c tail, c ≠ '#' → Segment.first c (tail ++ more) = Segment.first c tail)
    (cs : List Char) (line pos : Nat) :
    ofSegments line pos (Segment.split (cs ++ more)) = ofSegments line pos (Segment.split cs) := by
  match cs with
  | [] => exact hmore line pos
  | c :: tail =>
    by_cases hlast : c = '#' ∧ '\n' ∉ tail
    · -- It is behind a comment, which goes on to its end.
      rw [hlast.1, List.cons_append, Segment.split_comment, Segment.split_comment hlast.2]
      · rfl
      · simp [hlast.2, hn]
    · have hsame : Segment.first c (tail ++ more) = Segment.first c tail := by
        by_cases hc : c = '#'
        · have hmem : '\n' ∈ tail := by
            by_contra hm
            exact hlast ⟨hc, hm⟩
          rw [hc, Segment.first_comment, Segment.first_comment, List.takeWhile_append, if_neg]
          intro hlength
          have hself := (List.takeWhile_prefix (· != '\n')).eq_of_length hlength
          have hne := List.takeWhile_eq_self_iff.mp hself _ hmem
          simp at hne
        · exact hfirst c tail hc
      obtain ⟨hne, hpre⟩ := Segment.first_takes c tail
      have hle := hpre.length_le
      rw [List.cons_append, Segment.split_cons, Segment.split_cons, hsame, ← List.cons_append,
        List.drop_append_of_le_length hle, ofSegments, ofSegments,
        ofSegments_append_of_first hn hmore hfirst]
termination_by cs.length
decreasing_by
  have := List.length_pos_iff.mpr hne
  simp only [List.length_drop, List.length_cons]
  omega

/-- A comment behind a text leaves no trace in its lexemes, unless it could close quotes. -/
theorem ofSegments_append_comment {note : List Char} (hq : '"' ∉ note) (hn : '\n' ∉ note)
    (cs : List Char) (line pos : Nat) :
    ofSegments line pos (Segment.split (cs ++ ' ' :: '#' :: note)) =
      ofSegments line pos (Segment.split cs) := by
  apply ofSegments_append_of_first
  · simp [hn]
  · intro line pos
    rw [Segment.split_space, Segment.split_comment hn]
    rfl
  · intro c tail hc
    have hlabel : Rule.labelLexeme? (('#' :: note).dropWhile isGap) = none := by
      simp [Rule.labelLexeme?, isGap, isWordChar]
    exact Segment.first_append_space hc hlabel
      (Rule.lexeme?_string_append_space (by simp [hq]) (c :: tail))

/-- A blank behind a text leaves no trace in its lexemes. -/
theorem ofSegments_append_blank {b : Char} (hb : isBlank b = true) (cs : List Char)
    (line pos : Nat) :
    ofSegments line pos (Segment.split (cs ++ [b])) = ofSegments line pos (Segment.split cs) := by
  apply ofSegments_append_of_first
  · rw [List.mem_singleton]
    rintro rfl
    exact absurd hb (by decide)
  · intro line pos
    rw [Segment.split_cons, Segment.first, if_pos hb]
    rfl
  · exact fun c tail hc ↦ Segment.first_append_blank hb hc

end Lexeme
end MlogAsm
