import MlogAsm.Proofs.DebugComments
import MlogAsm.Proofs.LastLine

/-!
# Carriage returns

A carriage return is a blank, and a blank at the end of a line leaves no trace in the lexemes. So a
text whose lines end with a carriage return and a line feed has the words of the text whose lines
end with a line feed alone, on the same lines.
-/

namespace MlogAsm

/-- A text with a carriage return before every line feed. -/
def withReturns (text : String) : String :=
  .ofList (text.toList.flatMap fun c ↦ if c = '\n' then ['\r', '\n'] else [c])

private theorem withReturns_of_not_mem {text : String} (h : '\n' ∉ text.toList) :
    withReturns text = text := by
  have hsame : text.toList.flatMap (fun c ↦ if c = '\n' then ['\r', '\n'] else [c]) =
      text.toList.flatMap ([·]) := by
    apply List.flatMap_congr
    intro c hc
    rw [if_neg (ne_of_mem_of_not_mem hc h)]
  rw [withReturns, hsame, List.flatMap_singleton', String.ofList_toList]

private theorem withReturns_append_newline (first second : String) :
    withReturns (first ++ "\n" ++ second) =
      withReturns first ++ "\r" ++ "\n" ++ withReturns second := by
  apply String.toList_injective
  simp [withReturns, List.flatMap_append]

/-- The lines of a text do not become more. -/
private theorem lineCount_append_return (line : String) :
    lineCount (line ++ "\r") = lineCount line := by
  simp [lineCount]

namespace Lexeme

private theorem scan_append_return (line : String) : scan (line ++ "\r") = scan line := by
  rw [scan, String.toList_append]
  exact ofSegments_append_blank (by decide) line.toList 1 0

/-- A carriage return before a line feed moves what is behind it, but not to another line. -/
theorem map_onLine_scan_withReturns (text : String) :
    (scan (withReturns text)).map onLine = (scan text).map onLine := by
  by_cases hmem : '\n' ∈ text.toList
  · -- The first line ends here, and the rest of the text is shorter.
    obtain ⟨front, back, hcut, hfront⟩ := List.eq_append_cons_of_mem hmem
    have htext : text = .ofList front ++ "\n" ++ .ofList back := by
      apply String.toList_injective
      simp [hcut]
    have hline : withReturns (.ofList front) = .ofList front := by
      apply withReturns_of_not_mem
      rwa [String.toList_ofList]
    have ih := map_onLine_scan_withReturns (.ofList back)
    rw [htext, withReturns_append_newline, hline]
    exact map_onLine_scan_append_newline (scan_append_return _) (lineCount_append_return _) ih
  · rw [withReturns_of_not_mem hmem]
termination_by text.toList.length
decreasing_by
  rw [hcut, String.toList_ofList, List.length_append, List.length_cons]
  omega

/-- Lexemes that differ in nothing but their offset are the same words on the same line. -/
private theorem below_zero_of_onLine_eq {l m : Lexeme} (h : l.onLine = m.onLine) : l.Below 0 m := by
  cases l with
  | token t =>
    cases m with
    | token u =>
      simp only [onLine, token.injEq, Token.mk.injEq, and_true] at h
      exact .token ⟨h.1.symm, h.2.1.symm, h.2.2.symm⟩
    | stray => cases h
  | stray c line pos =>
    cases m with
    | token => cases h
    | stray =>
      simp only [onLine, stray.injEq, and_true] at h
      obtain ⟨rfl, rfl⟩ := h
      exact .stray

end Lexeme

private theorem sameWords_withReturns (text : String) : SameWords none text (withReturns text) where
  exists_front := by
    refine ⟨Lexeme.scan (withReturns text), ?_, by simp⟩
    have heq : List.Forall₂ Eq ((Lexeme.scan text).map Lexeme.onLine)
        ((Lexeme.scan (withReturns text)).map Lexeme.onLine) := by
      rw [List.forall₂_eq_eq_eq, Lexeme.map_onLine_scan_withReturns]
    rw [List.forall₂_map_left_iff, List.forall₂_map_right_iff] at heq
    exact heq.imp fun _ _ ↦ Lexeme.below_zero_of_onLine_eq
  isLineEnd := by simp

/-- It does not matter whether lines end with a line feed alone or with a carriage return before it.
A scan finds the same tokens and the same stray characters on the same lines, and what comes of the
text is the same: its symbols and its lines, or its fault. -/
theorem carriage_returns_do_not_matter (text : String) :
    (Lexeme.scan (withReturns text)).map Lexeme.onLine = (Lexeme.scan text).map Lexeme.onLine ∧
      Assembly.ofText (withReturns text) = Assembly.ofText text :=
  ⟨Lexeme.map_onLine_scan_withReturns text,
    (sameWords_withReturns text).ofTextWith_eq Catalog.standard_wellMade⟩

end MlogAsm
