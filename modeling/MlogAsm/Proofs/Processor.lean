import MlogAsm.Proofs.Program

/-!
# The processor

How lines are run, as far as it matters where the processor goes on. A line is read by its words.
Jumps, the end of the program and assignments of the counter move the counter; an assignment of a
number is remembered, and everything else just goes on. What a comparison gives is not modelled: an
oracle answers one after the other.
-/

namespace MlogAsm

/-- Repeats a step that may not be possible. -/
def runFor {α : Type} (step : α → Option α) : Nat → α → Option α
  | 0, a => some a
  | n + 1, a => (step a).bind (runFor step n)

theorem runFor_add {α : Type} (step : α → Option α) (m n : Nat) (a : α) :
    runFor step (m + n) a = (runFor step m a).bind (runFor step n) := by
  induction m generalizing a with
  | zero => simp [runFor]
  | succ m ih =>
    rw [Nat.succ_add, runFor, runFor, Option.bind_assoc]
    congr 1
    funext b
    exact ih b

/-- The number that a word of decimal digits stands for. -/
def decimal? (word : String) : Option Nat :=
  if word.toList ≠ [] ∧ word.toList.all Char.isDigit then some (Nat.ofDigitChars 10 word.toList 0)
  else none

theorem isDigit_of_mem_repr {n : Nat} {c : Char} (h : c ∈ n.repr.toList) : c.isDigit = true := by
  rw [Nat.toList_repr] at h
  exact Nat.isDigit_of_mem_toDigits (by decide) (by decide) h

/-- A number is read as it was written. -/
@[simp] theorem decimal?_repr (n : Nat) : decimal? n.repr = some n := by
  have hall : n.repr.toList.all Char.isDigit = true :=
    List.all_eq_true.mpr fun c hc ↦ isDigit_of_mem_repr hc
  have hne : n.repr.toList ≠ [] := by
    rw [Nat.toList_repr]
    exact Nat.toDigits_ne_nil
  unfold decimal?
  rw [if_pos ⟨hne, hall⟩, Nat.toList_repr, Nat.ofDigitChars_ten_toDigits]

private theorem space_not_mem_toString (n : Nat) : ' ' ∉ (toString n).toList :=
  fun h ↦ absurd (isDigit_of_mem_repr h) (by decide)

/-- The words of a line, which spaces separate. -/
def wordsOf (line : String) : List String :=
  (line.toList.splitOn ' ').map String.ofList

/-- The words of a line that was put together from words. -/
def lineWords (ws : List String) : List String :=
  if ws = [] then [] else wordsOf (" ".intercalate ws)

@[simp] theorem lineWords_nil : lineWords [] = [] := rfl

/-- A word without a space is read as it was written. -/
theorem lineWords_cons {w : String} (h : ' ' ∉ w.toList) (ws : List String) :
    lineWords (w :: ws) = w :: lineWords ws := by
  unfold lineWords wordsOf
  cases ws with
  | nil => simp [List.splitOn_eq_singleton h]
  | cons v ws =>
    rw [if_neg (by simp), if_neg (by simp), String.intercalate_cons_cons, String.toList_append,
      String.toList_append, List.append_assoc]
    have hspace : " ".toList = [' '] := rfl
    rw [hspace, List.singleton_append, List.splitOn_append_cons_self_of_not_mem h]
    simp

/-- What a line does. -/
inductive Action where
  /-- Goes on at a line. -/
  | jump (target : Option Nat)
  /-- Goes on at a line if a comparison holds. -/
  | branch (target : Option Nat)
  /-- Goes on where a variable says. -/
  | load (source : String)
  /-- Stores a number, or something else. -/
  | store (name : String) (value : Option Nat)
  /-- Goes on at the beginning. -/
  | restart
  /-- Goes on at the next line. -/
  | advance
  deriving DecidableEq, Repr

/-- What a line with given words does. -/
def Action.ofWords : List String → Action
  | [] => advance
  | word :: args =>
    if word = "jump" then
      match args with
      | [] => advance
      | target :: condition =>
        if condition = ["always"] then jump (decimal? target) else branch (decimal? target)
    else if word = "set" then
      match args with
      | [name, value] => if name = "@counter" then load value else store name (decimal? value)
      | _ => advance
    else if word = "end" then restart
    else advance

private theorem space_not_mem_returnVariable {r : String} (h : ' ' ∉ r.toList) :
    ' ' ∉ (returnVariable r).toList := by
  rw [returnVariable, String.toList_append, List.mem_append]
  rintro (hr | hr)
  · exact h hr
  · exact absurd hr (by decide)

theorem returnVariable_ne_counter (r : String) : returnVariable r ≠ "@counter" := by
  intro h
  have hl := congrArg (fun s : String ↦ s.toList.getLast?) h
  rw [returnVariable] at hl
  simp at hl

namespace Action

/-- What a line does that was put together from words. -/
theorem ofWords_wordsOf (ws : List String) :
    ofWords (wordsOf (" ".intercalate ws)) = ofWords (lineWords ws) := by
  cases ws with
  | nil => decide
  | cons w ws => rw [lineWords, if_neg (by simp)]

theorem ofWords_jump (n : Nat) :
    ofWords (lineWords ["jump", toString n, "always"]) = .jump (some n) := by
  rw [lineWords_cons (by decide), lineWords_cons (space_not_mem_toString n),
    lineWords_cons (by decide)]
  simp [ofWords]

theorem ofWords_branch (n : Nat) {operator : String} (hs : ' ' ∉ operator.toList)
    (ha : operator ≠ "always") (operands : List String) :
    ofWords (lineWords ("jump" :: toString n :: operator :: operands)) = .branch (some n) := by
  rw [lineWords_cons (by decide), lineWords_cons (space_not_mem_toString n), lineWords_cons hs]
  simp [ofWords, ha]

theorem ofWords_store (n : Nat) {r : String} (h : ' ' ∉ r.toList) :
    ofWords (lineWords ["set", returnVariable r, toString n]) =
      .store (returnVariable r) (some n) := by
  rw [lineWords_cons (by decide), lineWords_cons (space_not_mem_returnVariable h),
    lineWords_cons (space_not_mem_toString n)]
  simp [ofWords, returnVariable_ne_counter]

theorem ofWords_load {r : String} (h : ' ' ∉ r.toList) :
    ofWords (lineWords ["set", "@counter", returnVariable r]) = .load (returnVariable r) := by
  rw [lineWords_cons (by decide), lineWords_cons (by decide),
    lineWords_cons (space_not_mem_returnVariable h)]
  simp [ofWords]

theorem ofWords_other {word : String} (hs : ' ' ∉ word.toList) (hj : word ≠ "jump")
    (ha : word ≠ "set") (he : word ≠ "end") (args : List String) :
    ofWords (lineWords (word :: args)) = .advance := by
  rw [lineWords_cons hs]
  simp [ofWords, hj, ha, he]

end Action

/-- A processor. -/
structure Processor where
  /-- The line to run next. -/
  counter : Nat
  /-- The numbers that were stored. -/
  memory : String → Option Nat
  /-- The number of comparisons so far. -/
  asked : Nat

namespace Processor

/-- A processor that has run nothing. -/
def start : Processor := ⟨0, fun _ ↦ none, 0⟩

/-- Does what a line says. -/
def act (oracle : Nat → Bool) (m : Processor) : Action → Option Processor
  | .jump target => target.map fun n ↦ { m with counter := n }
  | .branch target =>
    if oracle m.asked then target.map fun n ↦ { m with counter := n, asked := m.asked + 1 }
    else some { m with counter := m.counter + 1, asked := m.asked + 1 }
  | .load source => (m.memory source).map fun n ↦ { m with counter := n }
  | .store name value =>
    some { m with
      counter := m.counter + 1
      memory := fun v ↦ if v = name then value else m.memory v }
  | .restart => some { m with counter := 0 }
  | .advance => some { m with counter := m.counter + 1 }

/-- Runs a line. Behind the last line nothing can be run. -/
def step (oracle : Nat → Bool) (lines : List String) (m : Processor) : Option Processor :=
  lines[m.counter]?.bind fun line ↦ m.act oracle (.ofWords (wordsOf line))

end Processor
end MlogAsm
