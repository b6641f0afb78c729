import MlogAsm.Proofs.CoupledWalks
import MlogAsm.Proofs.LineBreak
import MlogAsm.Proofs.Spacing
import MlogAsm.Proofs.Spelling

/-!
# Debug comments

A debug comment is made of names, so it has no quote that could close a text and no line end that
could begin an instruction. A scan of the code finds the same tokens on the same lines with and
without comments.
-/

namespace MlogAsm

/-- A note that can stand in a comment behind anything: it closes no quotes and ends no line. -/
structure Tidy (note : String) : Prop where
  quote : '"' ∉ note.toList
  newline : '\n' ∉ note.toList

namespace Tidy

private theorem of_word {word : String} (h : ∀ c ∈ word.toList, isWordChar c = true) :
    Tidy word where
  quote hm := absurd (h _ hm) (by decide)
  newline hm := absurd (h _ hm) (by decide)

theorem append {first second : String} (hf : Tidy first) (hs : Tidy second) :
    Tidy (first ++ second) where
  quote := by simp [hf.quote, hs.quote]
  newline := by simp [hf.newline, hs.newline]

end Tidy

section Scan

/-- The debug comments for some notes. -/
def commentText (notes : List String) : String :=
  String.join (notes.map (" # " ++ ·))

private theorem commentText_nil : commentText [] = "" := rfl

private theorem commentText_cons (note : String) (notes : List String) :
    commentText (note :: notes) = " # " ++ note ++ commentText notes := by
  simp [commentText, String.join_cons]

/-- Comments are empty, or begin with a space, a number sign and a space. -/
theorem commentText_eq_or_prefix (notes : List String) :
    commentText notes = "" ∨ " # ".toList <+: (commentText notes).toList := by
  cases notes with
  | nil => exact .inl rfl
  | cons note notes =>
    refine .inr ?_
    rw [commentText_cons, String.append_assoc, String.toList_append]
    exact List.prefix_append _ _

theorem newline_not_mem_commentText {notes : List String} (h : ∀ note ∈ notes, Tidy note) :
    '\n' ∉ (commentText notes).toList := by
  induction notes with
  | nil => simp [commentText_nil]
  | cons note notes ih =>
    obtain ⟨hnote, hnotes⟩ := List.forall_mem_cons.mp h
    rw [commentText_cons]
    simp [hnote.newline, ih hnotes]

/-- A scan does not see tidy comments. -/
private theorem Lexeme.scan_append_commentText {notes : List String} (h : ∀ note ∈ notes, Tidy note)
    (line : String) : scan (line ++ commentText notes) = scan line := by
  induction notes generalizing line with
  | nil => rw [commentText_nil, String.append_empty]
  | cons note notes ih =>
    obtain ⟨hnote, hnotes⟩ := List.forall_mem_cons.mp h
    have htext : (line ++ (" # " ++ note)).toList =
        line.toList ++ ' ' :: '#' :: ' ' :: note.toList := by
      simp
    rw [commentText_cons, ← String.append_assoc, ih hnotes, scan, htext,
      ofSegments_append_comment (by simp [hnote.quote]) (by simp [hnote.newline])]
    rfl

end Scan

section Lines

theorem joinLines_cons (line : String) (lines : List String) :
    joinLines (line :: lines) = line ++ "\n" ++ joinLines lines := by
  cases lines with
  | nil => simp [joinLines]
  | cons other lines => simp only [joinLines, List.cons_append, String.intercalate_cons_cons]

/-- A lexeme without its offset. -/
def Lexeme.onLine : Lexeme → Lexeme
  | token t => token { t with pos := 0 }
  | stray c line _ => stray c line 0

private theorem Lexeme.onLine_shift (lines chars : Nat) (x : Lexeme) :
    (x.shift lines chars).onLine = x.onLine.shift lines 0 := by
  cases x <;> rfl

/-- A line that is scanned alike is followed by the same, but for the offsets. -/
theorem Lexeme.map_onLine_scan_append_newline {x y xs ys : String} (hscan : scan x = scan y)
    (hcount : lineCount x = lineCount y) (h : (scan xs).map onLine = (scan ys).map onLine) :
    (scan (x ++ "\n" ++ xs)).map onLine = (scan (y ++ "\n" ++ ys)).map onLine := by
  have hend : (token (lineEnd x)).onLine = (token (lineEnd y)).onLine := by
    have hnewlines : x.toList.count '\n' = y.toList.count '\n' := Nat.succ.inj hcount
    simp [onLine, lineEnd, hnewlines]
  have hshift (text : String) (lines chars : Nat) :
      ((scan text).map (shift lines chars)).map onLine =
        ((scan text).map onLine).map (shift lines 0) := by
    simp [onLine_shift]
  rw [scan_append_newline, scan_append_newline, List.map_append, List.map_append, List.map_cons,
    List.map_cons, hshift, hshift, h, hend, hscan, hcount]

/-- Lines that are scanned alike make texts that are scanned alike, but for the offsets. -/
theorem Lexeme.map_onLine_scan_joinLines {xs ys : List String}
    (h : List.Forall₂ (fun x y ↦ scan x = scan y ∧ lineCount x = lineCount y) xs ys) :
    (scan (joinLines xs)).map onLine = (scan (joinLines ys)).map onLine := by
  induction h with
  | nil => rfl
  | cons hxy _ ih =>
    rw [joinLines_cons, joinLines_cons]
    exact map_onLine_scan_append_newline hxy.1 hxy.2 ih

end Lines

section Notes

/-- Every note of a line is tidy. -/
def CodeLine.Tidied (line : CodeLine) : Prop :=
  ∀ note ∈ line.notes, Tidy note

private theorem CodeLine.tidied_annotateLast {note : String} {lines : List CodeLine}
    (hn : Tidy note) (h : ∀ line ∈ lines, line.Tidied) :
    ∀ line ∈ annotateLast note lines, line.Tidied := by
  fun_induction annotateLast note lines with
  | case1 => exact h
  | case2 line =>
    intro x hx
    rw [List.mem_singleton.mp hx]
    exact List.forall_mem_append.mpr ⟨h line List.mem_cons_self, by simpa using hn⟩
  | case3 line lines _ ih =>
    obtain ⟨hline, hlines⟩ := List.forall_mem_cons.mp h
    exact List.forall_mem_cons.mpr ⟨hline, ih hlines⟩

private theorem CodeLine.tidied_noting {note : Option String} {lines : List CodeLine}
    (hn : ∀ x, note = some x → Tidy x) (h : ∀ line ∈ lines, line.Tidied) :
    ∀ line ∈ noting note lines, line.Tidied := by
  cases note with
  | none => exact h
  | some x => exact tidied_annotateLast (hn x rfl) h

/-- The names and the reserved words that are left are tidy. -/
def Cursor.Tidied (c : Cursor) : Prop :=
  ∀ t, .token t ∈ c.rest → t.kind.isPlainWord = true → Tidy t.value

private theorem Cursor.tidied_ofText (text : String) : (ofText text).Tidied :=
  fun _ ht hk ↦ .of_word (Lexeme.isWordChar_of_mem_value ht hk)

private theorem Cursor.Passes.tidied {c d : Cursor} (h : c.Passes d) (hc : c.Tidied) :
    d.Tidied := by
  obtain ⟨ts, hts⟩ := h.exists_tokens
  intro t ht
  apply hc
  rw [hts]
  exact List.mem_append_right _ ht

private theorem Cursor.Tidied.of_next {c d : Cursor} {t : Token} (hc : c.Tidied)
    (hn : Reader.next c = .ok (some t) d) (hk : t.kind.isPlainWord = true) : Tidy t.value := by
  obtain ⟨rest, hrest, _⟩ := Reader.next_eq_ok_some_iff.mp hn
  exact hc t (by simp [hrest]) hk

private theorem Cursor.Tidied.of_readName {c d : Cursor} (hc : c.Tidied) {control : Control}
    {what name : String} (h : control.readName what c = .ok name d) : Tidy name := by
  obtain ⟨t, hn, hk, hname⟩ := Control.readName_eq_ok_iff.mp h
  rw [hname]
  exact hc.of_next hn (by rw [hk]; rfl)

variable {catalog : Catalog} {symbols : Symbols} {ctx : Context} {c d : Cursor}
  {lines : List CodeLine}

/-- What a control instruction notes is a name that it reads, or the routine that is open. -/
theorem Control.tidied_of_emit {control : Control} (hc : c.Tidied)
    (hr : ∀ r, ctx.routine = some r → Tidy r) (h : control.emit ctx c = .ok lines d) :
    ∀ line ∈ lines, line.Tidied := by
  have hnote {text name : String} {instruction : CodeInstruction} (ht : Tidy text)
      (hn : Tidy name) : CodeLine.Tidied ⟨instruction, ctx.notes (text ++ name)⟩ := by
    simp only [CodeLine.Tidied, Context.notes]
    split
    · exact List.forall_mem_singleton.mpr (ht.append hn)
    · exact List.forall_mem_nil _
  have hplain {instruction : CodeInstruction} : CodeLine.Tidied ⟨instruction, []⟩ := by
    intro note hn
    cases hn
  cases hform : control.form with
  | jump =>
    simp only [emit, hform] at h
    obtain ⟨label, _, hname, h⟩ := bind_eq_ok_iff.mp h
    obtain ⟨_, _, _, h⟩ := bind_eq_ok_iff.mp h
    obtain ⟨_, _, _, h⟩ := bind_eq_ok_iff.mp h
    rw [← (pure_eq_ok_iff.mp h).1]
    exact List.forall_mem_singleton.mpr (hnote ⟨by decide, by decide⟩ (hc.of_readName hname))
  | goto =>
    simp only [emit, hform] at h
    obtain ⟨label, _, hname, h⟩ := bind_eq_ok_iff.mp h
    obtain ⟨_, _, _, h⟩ := bind_eq_ok_iff.mp h
    rw [← (pure_eq_ok_iff.mp h).1]
    exact List.forall_mem_singleton.mpr (hnote ⟨by decide, by decide⟩ (hc.of_readName hname))
  | gosub =>
    simp only [emit, hform] at h
    obtain ⟨callee, _, hname, h⟩ := bind_eq_ok_iff.mp h
    by_cases hself : ctx.routine = some callee
    · simp [hself, bind_eq_ok_iff] at h
    · simp only [hself, if_false] at h
      obtain ⟨_, _, _, h⟩ := bind_eq_ok_iff.mp h
      rw [← (pure_eq_ok_iff.mp h).1]
      refine List.forall_mem_cons.mpr ⟨hplain, ?_⟩
      exact List.forall_mem_singleton.mpr (hnote ⟨by decide, by decide⟩ (hc.of_readName hname))
  | leave =>
    simp only [emit, hform] at h
    cases hroutine : ctx.routine with
    | none => simp [hroutine] at h
    | some routine =>
      simp only [hroutine] at h
      rw [← (pure_eq_ok_iff.mp h).1]
      exact List.forall_mem_singleton.mpr (hnote ⟨by decide, by decide⟩ (hr routine hroutine))
  | compute =>
    simp only [emit, hform] at h
    obtain ⟨_, _, _, h⟩ := bind_eq_ok_iff.mp h
    rw [← (pure_eq_ok_iff.mp h).1]
    exact List.forall_mem_singleton.mpr hplain
  | undefined =>
    simp only [emit, hform] at h
    cases h

private theorem Catalog.tidied_of_emitStatement {lead : Token} (hc : c.Tidied)
    (hr : ∀ r, ctx.routine = some r → Tidy r)
    (h : catalog.emitStatement ctx lead c = .ok lines d) : ∀ line ∈ lines, line.Tidied := by
  unfold emitStatement at h
  cases hl : catalog.find? lead.kind with
  | none => simp [hl] at h
  | some instruction =>
    simp only [hl] at h
    obtain ⟨found, _, hemit, h⟩ := bind_eq_ok_iff.mp h
    obtain ⟨_, _, _, h⟩ := bind_eq_ok_iff.mp h
    split at h
    · rw [← (pure_eq_ok_iff.mp h).1]
      cases instruction with
      | operation op =>
        obtain ⟨_, _, _, hemit⟩ := bind_eq_ok_iff.mp hemit
        rw [← (pure_eq_ok_iff.mp hemit).1]
        simp [CodeLine.Tidied]
      | group g =>
        obtain ⟨_, _, _, hemit⟩ := bind_eq_ok_iff.mp hemit
        obtain ⟨_, _, _, hemit⟩ := bind_eq_ok_iff.mp hemit
        rw [← (pure_eq_ok_iff.mp hemit).1]
        simp [CodeLine.Tidied]
      | control control => exact control.tidied_of_emit hc hr hemit
    · simp at h

/-- What an emission may note later is tidy. -/
structure Emission.Tidied (s : Emission) : Prop where
  cursor : s.cursor.Tidied
  routine : ∀ r, s.routine = some r → Tidy r
  pending : ∀ note, s.pending = some note → Tidy note

/-- A declaration is noted by its name. -/
private theorem Emission.Tidied.of_marked? {s s' : Emission} {t : Token} (hs : s.Tidied)
    (hn : Reader.next s.cursor = .ok (some t) c) (hm : s.marked? t c = some s') : s'.Tidied := by
  have hc : c.Tidied := (Reader.forward_next.ok hn).tidied hs.cursor
  rcases marked?_eq_some_iff.mp hm with ⟨hk, rfl⟩ | ⟨hk, rfl⟩ | ⟨hk, rfl⟩
  · have hname : Tidy t.value := hs.cursor.of_next hn (by rw [hk]; rfl)
    refine ⟨hc, hs.routine, ?_⟩
    rintro note ⟨⟩
    exact .append ⟨by decide, by decide⟩ hname
  · have hname : Tidy t.value := hs.cursor.of_next hn (by rw [hk]; rfl)
    refine ⟨hc, ?_, ?_⟩
    · rintro r ⟨⟩
      exact hname
    · rintro note ⟨⟩
      exact .append ⟨by decide, by decide⟩ hname
  · refine ⟨hc, ?_, hs.pending⟩
    rintro r ⟨⟩

/-- Every turn of an emission gives tidy lines. -/
private theorem Emission.Visits.tidied {s : Emission} {visits : List Visit}
    (h : Visits catalog symbols s visits) (hs : s.Tidied) :
    ∀ v ∈ visits, ∀ line ∈ v.lines, line.Tidied := by
  induction h with
  | finished _ => simp
  | newline hn _ _ ih =>
    exact ih ⟨(Reader.forward_next.ok hn).tidied hs.cursor, hs.routine, hs.pending⟩
  | mark hn hm _ ih =>
    exact List.forall_mem_cons.mpr ⟨by simp, ih (hs.of_marked? hn hm)⟩
  | @statement s c d t lines visits hn hk he _ ih =>
    have hc : c.Tidied := (Reader.forward_next.ok hn).tidied hs.cursor
    have hlines := catalog.tidied_of_emitStatement hc hs.routine he
    refine List.forall_mem_cons.mpr ⟨?_, ih ⟨?_, hs.routine, ?_⟩⟩
    · unfold noted
      split
      · exact CodeLine.tidied_noting hs.pending hlines
      · exact hlines
    · exact ((catalog.forward_emitStatement _ t).ok he).tidied hc
    · rintro note ⟨⟩

/-- The notes of all code are tidy, whatever the catalog and the symbols. -/
theorem CodeLine.tidied_of_emit {text : String} {code : List CodeLine}
    (h : emit catalog symbols text = .ok code) : ∀ line ∈ code, line.Tidied := by
  obtain ⟨visits, hv, hcode⟩ := Emission.exists_visits_of_finish_eq_ok h
  have hstart : (Emission.start true text).Tidied := by
    refine ⟨Cursor.tidied_ofText text, ?_, ?_⟩ <;> rintro x ⟨⟩
  intro line hline
  rw [hcode] at hline
  obtain ⟨v, hvisit, hl⟩ := List.mem_flatMap.mp hline
  exact hv.tidied hstart v hvisit line hl

end Notes

/-- A line with debug comments is the plain line and its comments. -/
theorem CodeLine.render_true (line : CodeLine) :
    line.render true = line.render false ++ commentText line.notes := by
  rw [render, render, if_pos rfl, if_neg (by decide), String.append_empty]
  rfl

/-- Tidy comments change neither what is scanned on a line nor how many lines there are. -/
theorem CodeLine.Tidied.scan_render_true {line : CodeLine} (h : line.Tidied) :
    Lexeme.scan (line.render true) = Lexeme.scan (line.render false) ∧
      lineCount (line.render true) = lineCount (line.render false) := by
  rw [render_true]
  constructor
  · exact Lexeme.scan_append_commentText h _
  · rw [lineCount, lineCount, String.toList_append, List.count_append,
      List.count_eq_zero_of_not_mem (newline_not_mem_commentText h), Nat.add_zero]

/-- Debug comments do nothing but follow the lines: with and without them an emission fails with the
same faults, and a scan of the code finds the same tokens on the same lines. -/
theorem debug_only_adds_comments (catalog : Catalog) (symbols : Symbols) (text : String) :
    (∀ fault, CodeLine.printed true catalog symbols text = .error fault ↔
      CodeLine.printed false catalog symbols text = .error fault) ∧
    ((∃ lines, CodeLine.printed true catalog symbols text = .ok lines) ↔
      ∃ lines, CodeLine.printed false catalog symbols text = .ok lines) ∧
    ∀ debugged plain, CodeLine.printed true catalog symbols text = .ok debugged →
      CodeLine.printed false catalog symbols text = .ok plain →
      List.Forall₂ (fun d p ↦ ∃ comment : String, d = p ++ comment ∧
        (comment = "" ∨ " # ".toList <+: comment.toList)) debugged plain ∧
      (Lexeme.scan (joinLines debugged)).map Lexeme.onLine =
        (Lexeme.scan (joinLines plain)).map Lexeme.onLine := by
  -- Both runs are those of one emission with all its notes, side by side with the one that prints.
  rw [CodeLine.printed_eq true, CodeLine.printed_eq false]
  cases hemit : CodeLine.emit catalog symbols text with
  | error fault => simp [Except.map]
  | ok code =>
    refine ⟨by simp [Except.map], by simp [Except.map], ?_⟩
    rintro debugged plain ⟨⟩ ⟨⟩
    constructor
    · rw [List.forall₂_map_left_iff, List.forall₂_map_right_iff, List.forall₂_same]
      intro line _
      exact ⟨_, line.render_true, commentText_eq_or_prefix _⟩
    · apply Lexeme.map_onLine_scan_joinLines
      rw [List.forall₂_map_left_iff, List.forall₂_map_right_iff, List.forall₂_same]
      intro line hline
      exact (CodeLine.tidied_of_emit hemit line hline).scan_render_true

/-- A text in quotes with a number sign and a quote in it, and a label that is called like a number.
The symbols are those of another text. -/
theorem debug_only_adds_comments_quoted :
    let text := "2: x: print \"# \\\" \"\nroutine set: goto x\nreturn"
    let symbols : Symbols := ⟨.ofList [("x", -7)], .empty, [], 99, []⟩
    let debugged := ["print \"# \\\" \" # label x", "jump -7 always # goto x # subroutine set",
      "set @counter setReturn # return from set"]
    let plain := ["print \"# \\\" \"", "jump -7 always", "set @counter setReturn"]
    CodeLine.printed true .standard symbols text = .ok debugged ∧
      CodeLine.printed false .standard symbols text = .ok plain ∧
      List.Forall₂ (fun d p ↦ ∃ comment : String, d = p ++ comment ∧
        (comment = "" ∨ " # ".toList <+: comment.toList)) debugged plain ∧
      (Lexeme.scan (joinLines debugged)).map Lexeme.onLine =
        (Lexeme.scan (joinLines plain)).map Lexeme.onLine := by
  intro text symbols debugged plain
  have hd : CodeLine.printed true .standard symbols text = .ok debugged := by decide +kernel
  have hp : CodeLine.printed false .standard symbols text = .ok plain := by decide +kernel
  exact ⟨hd, hp, (debug_only_adds_comments .standard symbols text).2.2 debugged plain hd hp⟩

end MlogAsm
