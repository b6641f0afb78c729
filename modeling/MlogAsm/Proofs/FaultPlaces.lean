import MlogAsm.Assembly
import MlogAsm.Proofs.SurveyLines
import MlogAsm.Proofs.Visits

/-!
# Where faults are met

A pass over a text takes turns. Each turn pulls a token and goes through what the token begins, and
a pass that fails does so in one of them. A stray character is reported by the pull that meets it,
so it is the first one that is left, and everything before it is tokens. Every other fault is met
behind tokens. A survey pulls all that there is unless it fails, so it lets no stray character
through.
-/

namespace MlogAsm

namespace Survey

variable {catalog : Catalog} {s : Survey} {f : Fault} {start stop : Cursor}

/-- A survey fails in the turn that begins at `start`, and `stop` is behind all that it has pulled
then. -/
inductive FailsIn (catalog : Catalog) (f : Fault) : Survey → Cursor → Cursor → Prop where
  | pull {s : Survey} {stop : Cursor} (hn : Reader.next s.cursor = .error f stop) :
      FailsIn catalog f s s.cursor stop
  | element {s s' : Survey} {t : Token} {c : Cursor} (hn : Reader.next s.cursor = .ok (some t) c)
      (he : element catalog t { s with cursor := c } = .error f s') :
      FailsIn catalog f s s.cursor s'.cursor
  | later {s s' : Survey} {t : Token} {c start stop : Cursor}
      (hn : Reader.next s.cursor = .ok (some t) c)
      (he : element catalog t { s with cursor := c } = .ok () s')
      (h : FailsIn catalog f s' start stop) : FailsIn catalog f s start stop

/-- A survey fails exactly if it does so in some turn. -/
theorem finish_eq_error_iff :
    finish catalog s = .error f ↔ ∃ start stop, FailsIn catalog f s start stop := by
  constructor
  · intro h
    fun_induction finish catalog s with
    | case1 s g c hn =>
      cases h
      exact ⟨_, _, .pull hn⟩
    | case2 => cases h
    | case3 s t c hn g s' he =>
      cases h
      exact ⟨_, _, .element hn he⟩
    | case4 s t c hn u s' he ih =>
      obtain ⟨start, stop, hfails⟩ := ih h
      exact ⟨start, stop, .later hn he hfails⟩
  · rintro ⟨start, stop, h⟩
    induction h with
    | pull hn => exact finish_of_next_error hn
    | element hn he => exact finish_of_element_error hn he
    | later hn he _ ih => rw [finish_of_element hn he, ih]

theorem FailsIn.stopsAt (h : FailsIn catalog f s start stop) : f.StopsAt s.cursor stop := by
  induction h with
  | pull hn => exact Reader.forward_next.error hn
  | element hn he => exact .trans (Reader.forward_next.ok hn) ((forward_element catalog _).error he)
  | later hn he _ ih =>
    exact .trans ((Reader.forward_next.ok hn).trans ((forward_element catalog _).ok he)) ih

end Survey

namespace Emission

variable {catalog : Catalog} {symbols : Symbols} {e : Emission} {f : Fault}
  {routine : Option String} {start stop : Cursor}

/-- An emission fails in the turn that begins at `start` while `routine` is open, and `stop` is
behind all that it has pulled then. -/
inductive FailsIn (catalog : Catalog) (symbols : Symbols) (f : Fault) :
    Emission → Option String → Cursor → Cursor → Prop where
  | pull {e : Emission} {stop : Cursor} (hn : Reader.next e.cursor = .error f stop) :
      FailsIn catalog symbols f e e.routine e.cursor stop
  | statement {e : Emission} {t : Token} {c stop : Cursor}
      (hn : Reader.next e.cursor = .ok (some t) c) (hk : t.kind.leads = true)
      (hs : catalog.emitStatement (e.context symbols) t c = .error f stop) :
      FailsIn catalog symbols f e e.routine e.cursor stop
  | behindMark {e : Emission} {t : Token} {c start stop : Cursor} {routine : Option String}
      (hn : Reader.next e.cursor = .ok (some t) c) (hk : ¬ t.kind.leads = true)
      (h : FailsIn catalog symbols f (e.passing t c) routine start stop) :
      FailsIn catalog symbols f e routine start stop
  | behindStatement {e : Emission} {t : Token} {c d start stop : Cursor} {lines : List CodeLine}
      {routine : Option String} (hn : Reader.next e.cursor = .ok (some t) c)
      (hk : t.kind.leads = true)
      (hs : catalog.emitStatement (e.context symbols) t c = .ok lines d)
      (h : FailsIn catalog symbols f
        { e with cursor := d, pending := none, emitted := e.emitted + lines.length }
        routine start stop) :
      FailsIn catalog symbols f e routine start stop

/-- An emission fails exactly if it does so in some turn. -/
theorem finish_eq_error_iff :
    finish catalog symbols e = .error f ↔
      ∃ routine start stop, FailsIn catalog symbols f e routine start stop := by
  constructor
  · intro h
    fun_induction finish catalog symbols e with
    | case1 e g c hn =>
      cases h
      exact ⟨_, _, _, .pull hn⟩
    | case2 => cases h
    | case3 e t c hn hk ih | case4 e t c hn hk ih | case5 e t c hn hk ih | case6 e t c hn hk ih =>
      obtain ⟨routine, start, stop, hfails⟩ := ih h
      refine ⟨routine, start, stop, .behindMark hn (by simp [hk, TokenKind.leads]) ?_⟩
      unfold passing marked?
      rw [hk]
      exact hfails
    | case7 e t c hn g d hs h1 h2 h3 h4 =>
      cases h
      exact ⟨_, _, _, .statement hn (TokenKind.leads_of_ne h1 h2 h3 h4) hs⟩
    | case8 e t c hn lines d hs h1 h2 h3 h4 ih =>
      cases hf : finish catalog symbols
          { e with cursor := d, pending := none, emitted := e.emitted + lines.length } with
      | ok rest =>
        rw [hf] at h
        cases h
      | error g =>
        rw [hf] at h
        cases h
        obtain ⟨routine, start, stop, hfails⟩ := ih hf
        have hk := TokenKind.leads_of_ne h1 h2 h3 h4
        exact ⟨routine, start, stop, .behindStatement hn hk hs hfails⟩
  · rintro ⟨routine, start, stop, h⟩
    induction h with
    | pull hn => exact finish_of_next_error hn
    | statement hn hk hs => rw [finish_of_leads hn hk, hs]
    | behindMark hn hk _ ih => rw [finish_of_not_leads hn hk, ih]
    | behindStatement hn hk hs _ ih =>
      rw [finish_of_leads hn hk, hs]
      dsimp only
      rw [ih]
      rfl

theorem FailsIn.stopsAt (h : FailsIn catalog symbols f e routine start stop) :
    f.StopsAt e.cursor stop := by
  induction h with
  | pull hn => exact Reader.forward_next.error hn
  | statement hn hk hs =>
    exact .trans (Reader.forward_next.ok hn) ((catalog.forward_emitStatement _ _).error hs)
  | @behindMark e t c start stop routine hn hk _ ih =>
    rw [cursor_passing] at ih
    exact .trans (Reader.forward_next.ok hn) ih
  | behindStatement hn hk hs _ ih =>
    exact .trans ((Reader.forward_next.ok hn).trans ((catalog.forward_emitStatement _ _).ok hs)) ih

end Emission

namespace Listing

variable {debug : Bool} {catalog : Catalog} {text : String} {f : Fault}

/-- One of the two passes over a text fails in a turn. A survey does not know of open routines. -/
inductive FailsIn (debug : Bool) (catalog : Catalog) (text : String) (f : Fault) :
    Option String → Cursor → Cursor → Prop where
  | survey {start stop : Cursor}
      (h : Survey.FailsIn catalog f ⟨Cursor.ofText text, .empty⟩ start stop) :
      FailsIn debug catalog text f none start stop
  | emission {symbols : Symbols} {routine : Option String} {start stop : Cursor}
      (hs : Symbols.survey catalog text = .ok symbols)
      (h : Emission.FailsIn catalog symbols f (.start debug text) routine start stop) :
      FailsIn debug catalog text f routine start stop

/-- A text that cannot be printed fails one of the two passes. -/
theorem ofTextWith_eq_error_iff :
    ofTextWith debug catalog text = .error f ↔
      ∃ routine start stop, FailsIn debug catalog text f routine start stop := by
  unfold ofTextWith CodeLine.printed
  constructor
  · intro h
    cases hs : Symbols.survey catalog text with
    | error g =>
      rw [hs] at h
      cases h
      obtain ⟨start, stop, hfails⟩ := Survey.finish_eq_error_iff.mp hs
      exact ⟨none, start, stop, .survey hfails⟩
    | ok symbols =>
      rw [hs] at h
      change ((Emission.finish catalog symbols (.start debug text)).map _).bind _ = _ at h
      cases he : Emission.finish catalog symbols (.start debug text) with
      | error g =>
        rw [he] at h
        cases h
        obtain ⟨routine, start, stop, hfails⟩ := Emission.finish_eq_error_iff.mp he
        exact ⟨routine, start, stop, .emission hs hfails⟩
      | ok code =>
        rw [he] at h
        cases h
  · rintro ⟨routine, start, stop, hfails⟩
    cases hfails with
    | survey h =>
      have hs : Symbols.survey catalog text = .error f :=
        Survey.finish_eq_error_iff.mpr ⟨start, stop, h⟩
      rw [hs]
      rfl
    | emission hs h =>
      rw [hs]
      change ((Emission.finish catalog _ (.start debug text)).map _).bind _ = _
      rw [Emission.finish_eq_error_iff.mpr ⟨routine, start, stop, h⟩]
      rfl

end Listing

/-- A lexical fault is met at the first stray character. -/
theorem Fault.StopsAt.exists_stray {c d : Cursor} {f : Fault} (h : f.StopsAt c d)
    (hk : f.cause.category = .lexical) :
    ∃ (front : List Token) (ch : Char) (line pos : Nat),
      c.rest = front.map .token ++ .stray ch line pos :: d.rest ∧
        f = ⟨.strayCharacter ch, some line, none⟩ := by
  cases h with
  | @stray front ch line pos _ hr => exact ⟨front, ch, line, pos, hr, rfl⟩
  | token _ hn => exact absurd hk hn

/-- No stray character slips through, with any catalog. A text that passes a survey has none, so an
emission of it never meets one, whatever catalog and symbols it is given. A survey that fails at a
stray character fails at the first one of the text, and names it and its line. -/
theorem survey_meets_every_stray (catalog : Catalog) (text : String) :
    (∀ symbols, Symbols.survey catalog text = .ok symbols →
      Lexeme.AllTokens text ∧
      ∀ (other : Catalog) (given : Symbols) (f : Fault),
        CodeLine.emit other given text = .error f → f.cause.category ≠ .lexical) ∧
    ∀ f, Symbols.survey catalog text = .error f → f.cause.category = .lexical →
      ∃ (front : List Token) (ch : Char) (line pos : Nat) (behind : List Lexeme),
        Lexeme.scan text = front.map .token ++ .stray ch line pos :: behind ∧
          f = ⟨.strayCharacter ch, some line, none⟩ := by
  refine ⟨fun symbols hs ↦ ?_, fun f hf hk ↦ ?_⟩
  · have hall : Lexeme.AllTokens text := (Symbols.survey_eq_ok_iff.mp hs).1
    refine ⟨hall, fun other given f hf hk ↦ ?_⟩
    obtain ⟨routine, start, stop, hfails⟩ := Emission.finish_eq_error_iff.mp hf
    obtain ⟨front, ch, line, pos, hscan, -⟩ := hfails.stopsAt.exists_stray hk
    have hmem : Lexeme.stray ch line pos ∈ Lexeme.scan text := by
      change _ ∈ (Emission.start true text).cursor.rest
      rw [hscan]
      simp
    obtain ⟨t, ht⟩ := hall _ hmem
    cases ht
  · obtain ⟨start, stop, hfails⟩ := Survey.finish_eq_error_iff.mp hf
    obtain ⟨front, ch, line, pos, hscan, hfault⟩ := hfails.stopsAt.exists_stray hk
    exact ⟨front, ch, line, pos, stop.rest, hscan, hfault⟩

/-- The first of two stray characters is met among operands that the survey does not look at, and a
text without any stays free of them for an empty catalog. -/
theorem survey_meets_every_stray_skipped :
    (Symbols.survey .standard "set x 1\nop add y x ; $\n" =
        .error ⟨.strayCharacter ';', some 2, none⟩ ∧
      ∃ (front : List Token) (ch : Char) (line pos : Nat) (behind : List Lexeme),
        Lexeme.scan "set x 1\nop add y x ; $\n" =
            front.map .token ++ .stray ch line pos :: behind ∧
          (⟨.strayCharacter ';', some 2, none⟩ : Fault) =
            ⟨.strayCharacter ch, some line, none⟩) ∧
    Symbols.survey .standard "set x true" = .ok ⟨.empty, .empty, ["x"], 1, []⟩ ∧
    ∀ f, CodeLine.emit ⟨[]⟩ .empty "set x true" = .error f → f.cause.category ≠ .lexical := by
  have hstray : Symbols.survey .standard "set x 1\nop add y x ; $\n" =
      .error ⟨.strayCharacter ';', some 2, none⟩ := by decide +kernel
  have hclean : Symbols.survey .standard "set x true" = .ok ⟨.empty, .empty, ["x"], 1, []⟩ := by
    decide +kernel
  refine ⟨⟨hstray, ?_⟩, hclean, ?_⟩
  · exact (survey_meets_every_stray .standard _).2 _ hstray rfl
  · exact ((survey_meets_every_stray .standard _).1 _ hclean).2 ⟨[]⟩ .empty

end MlogAsm
