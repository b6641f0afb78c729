/-!
# Line ends

Text read from a file may end its lines with a line feed, a carriage return, or both in this order.
All three become a single line feed.
-/

namespace MlogAsm.Text

/-- Replaces every carriage return, with the line feed that follows it if there is one, by one line
feed. -/
def unifyLineEnds : List Char → List Char
  | [] => []
  | '\r' :: '\n' :: rest => '\n' :: unifyLineEnds rest
  | c :: rest => (if c = '\r' then '\n' else c) :: unifyLineEnds rest

/-- Text without carriage returns stays as it is. -/
theorem unifyLineEnds_of_not_mem {cs : List Char} (h : '\r' ∉ cs) : unifyLineEnds cs = cs := by
  fun_induction unifyLineEnds cs with
  | case1 => rfl
  | case2 rest ih => simp at h
  | case3 c rest _ ih =>
    simp only [List.mem_cons, not_or] at h
    simp [ih h.2, Ne.symm h.1]

end MlogAsm.Text
