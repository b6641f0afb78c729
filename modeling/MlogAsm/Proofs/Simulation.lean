import MlogAsm.Proofs.Processor
import MlogAsm.Proofs.Translation

/-!
# Simulation

A program can be run as it is written, statement by statement: a jump goes to a statement, and a
routine goes back to the statement behind its call. The lines of the program do the same on the
processor. Statements and lines are counted differently, so what is kept is that the counter of the
processor is the number of lines before the statement, for the statement that comes next as well as
for those that routines go back to.
-/

namespace MlogAsm

/-- A run of a program, statement by statement. -/
structure Walk where
  /-- The statement that comes next. -/
  index : Nat
  /-- The statement that a routine goes back to. -/
  returns : String → Option Nat
  /-- The number of comparisons so far. -/
  asked : Nat

namespace Walk

/-- Before the first statement. -/
def start : Walk := ⟨0, fun _ ↦ none, 0⟩

/-- Runs a statement in its place. -/
def act (oracle : Nat → Bool) (p : Program) (w : Walk) (x : Placed) : Option Walk :=
  match x.statement with
  | .jumpAlways label | .goto label =>
    (p.entryIndex? .label label).map fun i ↦ { w with index := i }
  | .jumpIf label _ _ =>
    if oracle w.asked then
      (p.entryIndex? .label label).map fun i ↦ { w with index := i, asked := w.asked + 1 }
    else some { w with index := w.index + 1, asked := w.asked + 1 }
  | .gosub callee =>
    (p.entryIndex? .routine callee).map fun i ↦
      { w with
        index := i
        returns := fun r ↦ if r = callee then some (w.index + 1) else w.returns r }
  | .leave => (x.routine.bind w.returns).map fun i ↦ { w with index := i }
  | .plain words _ _ => some { w with index := if words = ["end"] then 0 else w.index + 1 }

/-- Runs the statement that comes next. Behind the last one nothing can be run. -/
def step (oracle : Nat → Bool) (p : Program) (w : Walk) : Option Walk :=
  p.placed[w.index]?.bind (w.act oracle p)

end Walk

/-- An action that goes on at the next line, and stores nothing but what the targets of a statement
may hold. -/
def Action.Harmless (targets : List Token) : Action → Prop
  | advance => True
  | store name _ => ∃ t ∈ targets, t.value = name
  | _ => False

/-- An operation or a group has a name that is one word and no jump, and an operation that is
written as an assignment has its target first. -/
def Instruction.PlainName : Instruction → Prop
  | .operation op =>
    ' ' ∉ op.name.toList ∧ op.name ≠ "jump" ∧
      (op.name = "set" → ∀ slot ∈ op.args.head?, slot.writes = true)
  | .group g => ' ' ∉ g.name.toList ∧ g.name ≠ "jump" ∧ g.name ≠ "set" ∧ g.name ≠ "end"
  | .control _ => True

instance (instruction : Instruction) : Decidable instruction.PlainName :=
  match instruction with
  | .operation _ => inferInstanceAs (Decidable (_ ∧ _))
  | .group _ => inferInstanceAs (Decidable (_ ∧ _))
  | .control _ => inferInstanceAs (Decidable True)

private theorem Catalog.standard_plainName :
    ∀ instruction ∈ standard.instructions, instruction.PlainName := by
  decide +kernel

/-- An assignment stores into its target, unless it is an assignment of the counter. -/
private theorem Action.harmless_set {target : Token} {targets : List Token} (ht : target ∈ targets)
    (hs : ' ' ∉ target.value.toList) (hc : target.value ≠ "@counter") (args : List String) :
    (ofWords (lineWords ("set" :: target.value :: args))).Harmless targets := by
  rw [lineWords_cons (by decide), lineWords_cons hs]
  rcases lineWords args with _ | ⟨value, _ | ⟨next, rest⟩⟩
  · simp [ofWords, Harmless]
  · simp only [ofWords, hc]
    exact ⟨target, ht, rfl⟩
  · simp [ofWords, Harmless]

private theorem Slot.Fills.exists_fits_head {known : String → Prop} {slots : List Slot} {t : Token}
    {ts : List Token} (h : Fills known slots (t :: ts)) :
    ∃ slot others, slots = slot :: others ∧ slot.Fits known t := by
  cases h with
  | fill hf _ => exact ⟨_, _, rfl, hf⟩

/-- The line of an operation ends the program if it is the operation for that, and otherwise goes on
at the next line. -/
private theorem Statement.Written.plain_action {known : String → Prop} {text : String}
    {words : List String} {slots : List Slot} {operands : List Token} {lead : Token}
    {rest : List Token}
    (h : (Statement.plain words slots operands).Written .standard known (lead :: rest))
    (hm : ∀ t ∈ lead :: rest, Lexeme.token t ∈ Lexeme.scan text)
    (hc : ∀ t ∈ Slot.targets slots operands, t.value ≠ "@counter") :
    if words = ["end"] then
      Action.ofWords (lineWords (words ++ operands.map Token.value)) = .restart
    else
      (Action.ofWords (lineWords (words ++ operands.map Token.value))).Harmless
        (Slot.targets slots operands) := by
  cases h with
  | @operation _ op _ hl hf =>
    obtain ⟨hs, hj, hset⟩ := Catalog.standard_plainName _ (List.mem_of_find?_eq_some hl)
    rw [List.singleton_append]
    by_cases he : op.name = "end"
    · rw [he, if_pos rfl, lineWords_cons (by decide)]
      simp [Action.ofWords]
    · rw [if_neg (by simpa using he)]
      -- Of the operations only the assignment can store, and it stores into its first operand.
      by_cases ha : op.name = "set"
      · rw [ha]
        cases operands with
        | nil => exact trivial
        | cons t ts =>
          obtain ⟨slot, others, hargs, hfit⟩ := hf.exists_fits_head
          have hw : slot.writes = true := hset ha slot (by simp [hargs])
          have hkind := hfit.of_variable
            (Catalog.standard_regular.writesVariables.operation hl slot (by simp [hargs]) hw)
          have hword : t.kind.isWord = true := by
            rcases hkind with hk | hk <;> simp [hk, TokenKind.isWord]
          have htarget : t ∈ Slot.targets op.args (t :: ts) := by simp [hargs, Slot.targets, hw]
          exact Action.harmless_set htarget
            (Lexeme.space_not_mem_value (hm t (by simp)) hword) (hc t htarget) _
      · rw [Action.ofWords_other hs hj ha he]
        exact trivial
  | member hl hpick hf =>
    obtain ⟨hs, hj, ha, he⟩ := Catalog.standard_plainName _ (List.mem_of_find?_eq_some hl)
    rw [if_neg (by simp), List.cons_append, Action.ofWords_other hs hj ha he]
    exact trivial
  | compute hl hform hf =>
    rw [if_neg (by decide), List.singleton_append,
      Action.ofWords_other (by decide) (by decide) (by decide) (by decide)]
    exact trivial

/-- No statement writes to the counter, or to the variable in which a routine keeps where it goes
back to. -/
def Program.KeepsReturns (p : Program) : Prop :=
  ∀ s ∈ p.statements, ∀ t ∈ s.targets,
    t.value ≠ "@counter" ∧ ∀ r, p.Declares .routine r → t.value ≠ returnVariable r

/-- A processor follows a walk: it is at the first line of the statement that comes next, and has
stored the first lines of the statements that routines go back to. -/
structure Processor.Follows (p : Program) (w : Walk) (m : Processor) : Prop where
  counter_eq : m.counter = p.offset w.index
  memory_eq : ∀ r, p.Declares .routine r → m.memory (returnVariable r) = (w.returns r).map p.offset
  asked_eq : m.asked = w.asked

/-- A processor does what a walk does: for a statement it takes as many steps as the statement has
lines and follows again, and where the walk is over it is over too. -/
def Processor.Matches (oracle : Nat → Bool) (p : Program) (lines : List String) (w : Walk)
    (m : Processor) : Prop :=
  (∀ w', w.step oracle p = some w' → ∃ x m', p.placed[w.index]? = some x ∧
    runFor (Processor.step oracle lines) x.statement.size m = some m' ∧ Follows p w' m') ∧
  (w.step oracle p = none → m.step oracle lines = none)

section Step

variable {oracle : Nat → Bool} {p : Program} {text : String} {w : Walk} {m : Processor} {x : Placed}

/-- A routine that is open at a statement is declared. -/
theorem Program.declares_of_getElem? {i : Nat} {r : String} (hx : p.placed[i]? = some x)
    (ho : x.routine = some r) : p.Declares .routine r := by
  rcases Program.declares_of_mem_placedFrom (List.mem_of_getElem? hx) ho with h | h
  · cases h
  · exact h

theorem Processor.start_follows (p : Program) : Follows p .start .start where
  counter_eq := by simp [start, Walk.start]
  memory_eq _ _ := rfl
  asked_eq := rfl

/-- A processor that follows runs the line that comes next. -/
private theorem Processor.step_eq_act (k : Nat) (ws : List String)
    (hx : p.placed[w.index]? = some x)
    (hk : (x.statement.words p.lineIndex x.routine (p.offset w.index))[k]? = some ws)
    (hc : m.counter = p.offset w.index + k) :
    m.step oracle (p.lines false) = m.act oracle (.ofWords (lineWords ws)) := by
  have hlt : k < x.statement.size := by
    rw [← Statement.length_words x.statement x.routine (p.offset w.index)]
    exact (List.getElem?_eq_some_iff.mp hk).1
  rw [step, hc, Program.getElem?_lines hx hlt, hk]
  exact congrArg (m.act oracle) (Action.ofWords_wordsOf ws)

/-- A statement that both sides run matches. -/
private theorem Processor.matches_of_some {w' : Walk} {m' : Processor}
    (hx : p.placed[w.index]? = some x) (hw : w.act oracle p x = some w')
    (hm : runFor (Processor.step oracle (p.lines false)) x.statement.size m = some m')
    (hf : Follows p w' m') : Matches oracle p (p.lines false) w m := by
  have hstep : w.step oracle p = some w' := by rw [Walk.step, hx, Option.bind_some, hw]
  constructor
  · intro w'' h
    rw [hstep] at h
    cases h
    exact ⟨x, m', hx, hm, hf⟩
  · intro h
    rw [hstep] at h
    cases h

/-- A statement with one line that both sides run matches. -/
private theorem Processor.matches_of_step {w' : Walk} {m' : Processor}
    (hx : p.placed[w.index]? = some x) (hsize : x.statement.size = 1)
    (hw : w.act oracle p x = some w') (hm : m.step oracle (p.lines false) = some m')
    (hf : Follows p w' m') :
    Matches oracle p (p.lines false) w m := by
  refine matches_of_some hx hw ?_ hf
  rw [hsize, runFor, hm]
  rfl

/-- A statement that neither side can run matches. -/
private theorem Processor.matches_of_none (hx : w.step oracle p = none)
    (hm : m.step oracle (p.lines false) = none) : Matches oracle p (p.lines false) w m := by
  refine ⟨fun w' h ↦ ?_, fun _ ↦ hm⟩
  rw [hx] at h
  cases h

namespace Processor.Follows

variable {routine note : Option String} {s : Statement} {label callee : String}

/-- The next line is the first one of the next statement, if this one has no other. -/
private theorem counter_succ (hf : Follows p w m) (hx : p.placed[w.index]? = some x)
    (hsize : x.statement.size = 1) : m.counter + 1 = p.offset (w.index + 1) := by
  rw [Program.offset_succ hx, hf.counter_eq, hsize]

/-- A jump to a label. -/
private theorem matches_jump (hf : Follows p w m)
    (hx : p.placed[w.index]? = some ⟨routine, note, s⟩)
    (hs : s = .jumpAlways label ∨ s = .goto label) (hd : p.Declares .label label) :
    Matches oracle p (p.lines false) w m := by
  obtain ⟨i, hi, hindex⟩ := Program.exists_entryIndex? hd
  have hact : w.act oracle p ⟨routine, note, s⟩ = some { w with index := i } := by
    rcases hs with rfl | rfl <;> simp [Walk.act, hi]
  have hstep : m.step oracle (p.lines false) = some { m with counter := p.offset i } := by
    rw [step_eq_act 0 ["jump", toString (p.lineIndex .label label), "always"] hx
      (by rcases hs with rfl | rfl <;> rfl) hf.counter_eq, Action.ofWords_jump, hindex]
    rfl
  have hsize : s.size = 1 := by rcases hs with rfl | rfl <;> rfl
  exact matches_of_step hx hsize hact hstep ⟨rfl, hf.memory_eq, hf.asked_eq⟩

/-- A jump on a comparison. Both sides get the same answer, because they have asked as often. -/
private theorem matches_jumpIf (hf : Follows p w m) (hp : p.Reads .standard text)
    {operator : String} {operands : List Token}
    (hx : p.placed[w.index]? = some ⟨routine, note, .jumpIf label operator operands⟩)
    (hd : p.Declares .label label) : Matches oracle p (p.lines false) w m := by
  obtain ⟨i, hi, hindex⟩ := Program.exists_entryIndex? hd
  obtain ⟨lead, rest, hw, hm⟩ := hp.exists_written (Program.mem_statements_of_getElem? hx)
  have hspelled : ' ' ∉ operator.toList ∧ operator ≠ "always" := by
    cases hw with
    | @jumpIf _ _ token _ _ _ _ _ ho _ =>
      have ht := hm token (by simp)
      exact ⟨Lexeme.space_not_mem_value ht (by simp [ho, TokenKind.isWord]),
        Lexeme.value_ne_always ht ho⟩
  obtain ⟨others, hwords⟩ :=
    Statement.exists_words_jumpIf p.lineIndex routine (p.offset w.index) label operator operands
  have hstep : m.step oracle (p.lines false) = m.act oracle (.branch (some (p.offset i))) := by
    rw [step_eq_act 0 _ hx (by rw [hwords]; rfl) hf.counter_eq,
      Action.ofWords_branch _ hspelled.1 hspelled.2, hindex]
  cases ho : oracle w.asked with
  | true =>
    have hact : w.act oracle p ⟨routine, note, .jumpIf label operator operands⟩ =
        some { w with index := i, asked := w.asked + 1 } := by simp [Walk.act, ho, hi]
    rw [act, hf.asked_eq, if_pos ho] at hstep
    exact matches_of_step hx rfl hact hstep ⟨rfl, hf.memory_eq, rfl⟩
  | false =>
    have hact : w.act oracle p ⟨routine, note, .jumpIf label operator operands⟩ =
        some { w with index := w.index + 1, asked := w.asked + 1 } := by simp [Walk.act, ho]
    rw [act, hf.asked_eq, if_neg (by simp [ho])] at hstep
    exact matches_of_step hx rfl hact hstep ⟨hf.counter_succ hx rfl, hf.memory_eq, rfl⟩

/-- A call. The return address is stored before the jump, so both lines are run. -/
private theorem matches_gosub (hf : Follows p w m) (hp : p.Reads .standard text)
    (hx : p.placed[w.index]? = some ⟨routine, note, .gosub callee⟩)
    (hd : p.Declares .routine callee) : Matches oracle p (p.lines false) w m := by
  obtain ⟨i, hi, hindex⟩ := Program.exists_entryIndex? hd
  have hspace : ' ' ∉ callee.toList := hp.space_not_mem_routine hd
  let stored : Processor :=
    { m with
      counter := m.counter + 1
      memory := fun v ↦
        if v = returnVariable callee then some (p.offset w.index + 2) else m.memory v }
  have hfirst : m.step oracle (p.lines false) = some stored := by
    rw [step_eq_act 0 ["set", returnVariable callee, toString (p.offset w.index + 2)] hx rfl
      hf.counter_eq, Action.ofWords_store _ hspace]
    rfl
  have hsecond : stored.step oracle (p.lines false) =
      some { stored with counter := p.offset i } := by
    rw [step_eq_act 1 ["jump", toString (p.lineIndex .routine callee), "always"] hx rfl
      (congrArg (· + 1) hf.counter_eq), Action.ofWords_jump, hindex]
    rfl
  have hrun : runFor (step oracle (p.lines false)) 2 m =
      some { stored with counter := p.offset i } := by
    rw [runFor, hfirst, Option.bind_some, runFor, hsecond]
    rfl
  have hact : w.act oracle p ⟨routine, note, .gosub callee⟩ = some { w with
      index := i
      returns := fun r ↦ if r = callee then some (w.index + 1) else w.returns r } := by
    simp [Walk.act, hi]
  refine matches_of_some hx hact hrun ⟨rfl, fun r hr ↦ ?_, hf.asked_eq⟩
  -- The address is the line after the jump, which is the first one of the next statement.
  by_cases he : r = callee
  · rw [he]
    simp only [stored, if_true, Option.map_some, Program.offset_succ hx]
    rfl
  · have hne : returnVariable r ≠ returnVariable callee := by
      intro h
      exact he ((String.append_left_inj _).mp h)
    simp only [stored, if_neg hne, if_neg he]
    exact hf.memory_eq r hr

/-- A return. -/
private theorem matches_leave (hf : Follows p w m) (hp : p.Reads .standard text)
    (hx : p.placed[w.index]? = some ⟨some callee, note, .leave⟩) :
    Matches oracle p (p.lines false) w m := by
  have hd : p.Declares .routine callee := Program.declares_of_getElem? hx rfl
  have hspace : ' ' ∉ callee.toList := hp.space_not_mem_routine hd
  have hstep : m.step oracle (p.lines false) = m.act oracle (.load (returnVariable callee)) := by
    rw [step_eq_act 0 ["set", "@counter", returnVariable callee] hx rfl hf.counter_eq,
      Action.ofWords_load hspace]
  have hmemory := hf.memory_eq callee hd
  cases hr : w.returns callee with
  | none =>
    rw [hr] at hmemory
    refine matches_of_none ?_ ?_
    · rw [Walk.step, hx]
      simp [Walk.act, hr]
    · rw [hstep, act, hmemory]
      rfl
  | some i =>
    rw [hr] at hmemory
    have hact : w.act oracle p ⟨some callee, note, .leave⟩ = some { w with index := i } := by
      simp [Walk.act, hr]
    rw [act, hmemory] at hstep
    exact matches_of_step hx rfl hact hstep ⟨rfl, hf.memory_eq, hf.asked_eq⟩

/-- A statement that is written as it runs. -/
private theorem matches_plain (hf : Follows p w m) (hp : p.Reads .standard text)
    (hk : p.KeepsReturns) {words : List String} {slots : List Slot} {operands : List Token}
    (hx : p.placed[w.index]? = some ⟨routine, note, .plain words slots operands⟩) :
    Matches oracle p (p.lines false) w m := by
  have hs := Program.mem_statements_of_getElem? hx
  obtain ⟨lead, rest, hw, hm⟩ := hp.exists_written hs
  have haction := hw.plain_action hm fun t ht ↦ (hk _ hs t ht).1
  have hstep : m.step oracle (p.lines false) =
      m.act oracle (.ofWords (lineWords (words ++ operands.map Token.value))) :=
    step_eq_act 0 _ hx rfl hf.counter_eq
  by_cases he : words = ["end"]
  · rw [if_pos he] at haction
    rw [haction] at hstep
    have hact : w.act oracle p ⟨routine, note, .plain words slots operands⟩ =
        some { w with index := 0 } := by simp [Walk.act, he]
    exact matches_of_step hx rfl hact hstep ⟨p.offset_zero.symm, hf.memory_eq, hf.asked_eq⟩
  · rw [if_neg he] at haction
    have hact : w.act oracle p ⟨routine, note, .plain words slots operands⟩ =
        some { w with index := w.index + 1 } := by simp only [Walk.act, if_neg he]
    generalize Action.ofWords (lineWords (words ++ operands.map Token.value)) = action
      at haction hstep
    cases action with
    | advance =>
      exact matches_of_step hx rfl hact hstep
        ⟨hf.counter_succ hx rfl, hf.memory_eq, hf.asked_eq⟩
    | store name value =>
      refine matches_of_step hx rfl hact hstep ⟨hf.counter_succ hx rfl, fun r hr ↦ ?_, hf.asked_eq⟩
      obtain ⟨t, ht, rfl⟩ := haction
      dsimp only
      rw [if_neg ((hk _ hs t ht).2 r hr).symm]
      exact hf.memory_eq r hr
    | jump | branch | load | restart => exact haction.elim

/-- Every statement matches. -/
theorem matches_of_reads (hf : Follows p w m) (hp : p.Reads .standard text) (hr : p.Resolved)
    (hk : p.KeepsReturns) : Matches oracle p (p.lines false) w m := by
  cases hx : p.placed[w.index]? with
  | none =>
    refine matches_of_none ?_ ?_
    · rw [Walk.step, hx]
      rfl
    · rw [step, hf.counter_eq, Program.getElem?_lines_of_none hx]
      rfl
  | some x =>
    obtain ⟨routine, note, s⟩ := x
    have hs := hr _ (List.mem_of_getElem? hx)
    cases s with
    | plain words slots operands => exact hf.matches_plain hp hk hx
    | jumpAlways label => exact hf.matches_jump hx (.inl rfl) hs
    | jumpIf label operator operands => exact hf.matches_jumpIf hp hx hs
    | goto label => exact hf.matches_jump hx (.inr rfl) hs
    | gosub callee => exact hf.matches_gosub hp hx hs.1
    | leave =>
      cases routine with
      | none => exact absurd rfl hs
      | some callee => exact hf.matches_leave hp hx

end Processor.Follows
end Step

section Run

variable {oracle : Nat → Bool} {p : Program} {lines : List String} {w : Walk} {m : Processor}

/-- A processor that matches every step of a walk follows it for any number of steps, and comes to
an end where it does. -/
theorem Processor.Follows.exists_run
    (hmatch : ∀ w m, Processor.Follows p w m → Processor.Matches oracle p lines w m)
    (hf : Processor.Follows p w m) (n : Nat) :
    (∀ w', runFor (Walk.step oracle p) n w = some w' → ∃ k m', n ≤ k ∧ k ≤ 2 * n ∧
      runFor (Processor.step oracle lines) k m = some m' ∧ Processor.Follows p w' m') ∧
    (runFor (Walk.step oracle p) n w = none →
      ∃ k ≤ 2 * n, runFor (Processor.step oracle lines) k m = none) := by
  induction n generalizing w m with
  | zero =>
    constructor
    · intro w' h
      cases h
      exact ⟨0, m, Nat.le_refl _, Nat.le_refl _, rfl, hf⟩
    · intro h
      cases h
  | succ n ih =>
    obtain ⟨hsome, hnone⟩ := hmatch w m hf
    rw [runFor]
    cases hs : w.step oracle p with
    | none =>
      constructor
      · intro w' h
        cases h
      · intro _
        refine ⟨1, by omega, ?_⟩
        rw [runFor, hnone hs]
        rfl
    | some w₁ =>
      -- The first statement takes one or two lines, and what is left of the run follows from there.
      obtain ⟨x, m₁, -, hrun, hf₁⟩ := hsome w₁ hs
      obtain ⟨hlow, hhigh⟩ := x.statement.size_bounds
      obtain ⟨ihsome, ihnone⟩ := ih hf₁
      constructor
      · intro w' h
        obtain ⟨k, m', hk, hk', hr, hf'⟩ := ihsome w' h
        refine ⟨x.statement.size + k, m', by omega, by omega, ?_, hf'⟩
        rw [runFor_add, hrun]
        exact hr
      · intro h
        obtain ⟨k, hk, hr⟩ := ihnone h
        refine ⟨x.statement.size + k, by omega, ?_⟩
        rw [runFor_add, hrun]
        exact hr

end Run

/-- The lines of an assembled program run as the program does, if no statement writes to the counter
or to where a routine keeps its return. The lines of the first statements are as many as the offset
says; a processor that follows a walk does so again after each statement; and so it does in runs of
any length, from the beginning on. -/
theorem processor_simulates_walk (text : String) (a : Assembly) (p : Program)
    (ha : Assembly.ofText text = .ok a) (hp : p.Reads .standard text) (hk : p.KeepsReturns)
    (oracle : Nat → Bool) :
    (∀ i, (a.lines false).take (p.offset i) =
        Placed.linesFrom p.lineIndex false 0 (p.placed.take i) ∧
      (Placed.linesFrom p.lineIndex false 0 (p.placed.take i)).length = p.offset i) ∧
    Processor.Follows p .start .start ∧
    ∀ w m, Processor.Follows p w m →
      Processor.Matches oracle p (a.lines false) w m ∧
      ∀ n,
        (∀ w', runFor (Walk.step oracle p) n w = some w' → ∃ k m', n ≤ k ∧ k ≤ 2 * n ∧
          runFor (Processor.step oracle (a.lines false)) k m = some m' ∧
          Processor.Follows p w' m') ∧
        (runFor (Walk.step oracle p) n w = none →
          ∃ k ≤ 2 * n, runFor (Processor.step oracle (a.lines false)) k m = none) := by
  obtain ⟨q, hq, hres, hlines⟩ := Assembly.exists_reads_lines_eq ha
  cases hp.unique hq
  rw [hlines false]
  have hmatch : ∀ w m, Processor.Follows p w m → Processor.Matches oracle p (p.lines false) w m :=
    fun w m hf ↦ hf.matches_of_reads hp hres hk
  exact ⟨fun i ↦ ⟨p.take_lines i, p.length_linesFrom_take i⟩, Processor.start_follows p,
    fun w m hf ↦ ⟨hmatch w m hf, fun n ↦ hf.exists_run hmatch n⟩⟩

/-- A call of a routine that stores a number and returns. -/
def Program.call : Program :=
  [.statement (.gosub "r"), .statement (.plain ["end"] [] []), .declare .routine "r",
    .statement (.plain ["set"]
      [{ name := "varname", kind := .variable, writes := true }, { name := "value", kind := .any }]
      [⟨.name, "x", 4, 27⟩, ⟨.int, "1", 4, 29⟩]),
    .statement .leave]

private theorem Program.call_reads :
    call.Reads .standard "gosub r\nend\nroutine r:\nset x 1\nreturn\n" := by
  have helements : (elements "gosub r\nend\nroutine r:\nset x 1\nreturn\n").map
      (Item.ofElement? .standard) = call.map some := by decide +kernel
  have hok : (Assembly.ofText "gosub r\nend\nroutine r:\nset x 1\nreturn\n").toBool = true := by
    decide +kernel
  cases ha : Assembly.ofText "gosub r\nend\nroutine r:\nset x 1\nreturn\n" with
  | error f =>
    rw [ha] at hok
    cases hok
  | ok a => exact Assembly.reads_of_map_ofElement? ha helements

private theorem Program.call_keepsReturns : call.KeepsReturns := by
  have hx : ∀ s ∈ call.statements, ∀ t ∈ s.targets, t.value = "x" := by decide
  intro s hs t ht
  rw [hx s hs t ht]
  refine ⟨by decide, fun r hr ↦ ?_⟩
  have hr : r = "r" := by simpa [Declares, call] using hr
  rw [hr]
  decide

/-- The processor calls the routine, stores the number and comes back to the end. -/
theorem processor_simulates_walk_call :
    let text := "gosub r\nend\nroutine r:\nset x 1\nreturn\n"
    let lines := ["set rReturn 2", "jump 3 always", "end", "set x 1", "set @counter rReturn"]
    (Assembly.ofText text).map (Assembly.lines false) = .ok lines ∧
      Program.call.Reads .standard text ∧ Program.call.KeepsReturns ∧
      ∀ oracle, ∃ k m, k ≤ 6 ∧ runFor (Processor.step oracle lines) k .start = some m ∧
        m.counter = 2 := by
  intro text lines
  have hl : (Assembly.ofText text).map (Assembly.lines false) = .ok lines := by decide +kernel
  refine ⟨hl, Program.call_reads, Program.call_keepsReturns, fun oracle ↦ ?_⟩
  cases ha : Assembly.ofText text with
  | error f =>
    rw [ha] at hl
    cases hl
  | ok a =>
    rw [ha] at hl
    obtain ⟨-, hstart, hsim⟩ :=
      processor_simulates_walk text a .call ha Program.call_reads Program.call_keepsReturns oracle
    obtain ⟨-, hrun⟩ := hsim _ _ hstart
    obtain ⟨k, m, -, hk, hm, hf⟩ := (hrun 3).1 _ rfl
    rw [Except.ok.inj hl] at hm
    exact ⟨k, m, hk, hm, hf.counter_eq⟩

end MlogAsm
