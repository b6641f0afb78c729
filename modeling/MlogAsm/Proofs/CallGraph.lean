import Mathlib.Data.List.Chain
import MlogAsm.Proofs.Simulation

/-!
# The call graph

There is no call stack: every routine has one place for where it goes back to. A call of the routine
that is open is refused, and no other call is, so routines can call each other in a circle. What is
lost is lost there: as long as calls and returns are made in the routine that was called last, a
routine on no cycle of calls finds the way back that its own call left.
-/

namespace MlogAsm

namespace Program

/-- A call of the second routine stands where the first one is open. -/
def Calls (p : Program) (caller callee : String) : Prop :=
  ∃ x ∈ p.placed, x.routine = some caller ∧ x.statement = .gosub callee

/-- A routine is on a cycle of calls. -/
def Recursive (p : Program) (routine : String) : Prop :=
  Relation.TransGen p.Calls routine routine

end Program

section Cycles

variable {p : Program} {r : String}

/-- A routine does not call itself. -/
theorem Program.Resolved.not_calls_self (hr : p.Resolved) (r : String) : ¬ p.Calls r r := by
  rintro ⟨x, hx, hroutine, hs⟩
  have hresolved := hr x hx
  rw [hs] at hresolved
  exact hresolved.2 hroutine

/-- A cycle of calls leads through another routine. -/
theorem Program.Resolved.exists_calls_of_recursive (hr : p.Resolved)
    (h : p.Recursive r) : ∃ q, q ≠ r ∧ p.Calls r q ∧ Relation.TransGen p.Calls q r := by
  obtain ⟨q, hcall, hback⟩ := Relation.TransGen.head'_iff.mp h
  have hne : q ≠ r := by
    intro he
    rw [he] at hcall
    exact hr.not_calls_self r hcall
  rcases Relation.reflTransGen_iff_eq_or_transGen.mp hback with he | hback
  · exact absurd he.symm hne
  · exact ⟨q, hne, hcall, hback⟩

end Cycles

namespace Statement

/-- Whether a statement is a call or a return. -/
def isLink : Statement → Bool
  | gosub _ | leave => true
  | _ => false

/-- The label that a statement can go to. -/
def target? : Statement → Option String
  | jumpAlways label | jumpIf label _ _ | goto label => some label
  | _ => none

/-- Whether the next statement can come after a statement, for a call when it has come back. -/
def goesOn : Statement → Bool
  | plain words _ _ => words ≠ ["end"]
  | jumpIf _ _ _ | gosub _ => true
  | _ => false

end Statement

/-- A call that has not come back yet. -/
structure Frame where
  callee : String
  /-- The statement behind the call. -/
  back : Nat

namespace Frame

/-- The routine that was called last. -/
def innermost? (frames : List Frame) : Option String :=
  frames.head?.map callee

/-- The calls that are open after a statement. -/
def after (index : Nat) (frames : List Frame) : Statement → List Frame
  | .gosub callee => ⟨callee, index + 1⟩ :: frames
  | .leave => frames.tail
  | .plain words _ _ => if words = ["end"] then [] else frames
  | .jumpAlways _ | .jumpIf _ _ _ | .goto _ => frames

private theorem after_of_target? {index : Nat} {frames : List Frame} {s : Statement}
    {label : String} (h : s.target? = some label) : after index frames s = frames := by
  cases s with
  | jumpAlways _ | jumpIf _ _ _ | goto _ => rfl
  | plain _ _ _ | gosub _ | leave => cases h

private theorem after_of_goesOn {index : Nat} {frames : List Frame} {s : Statement}
    (h : s.goesOn = true) (hl : s.isLink = false) : after index frames s = frames := by
  cases s with
  | plain words slots operands => exact if_neg (of_decide_eq_true h)
  | jumpIf _ _ _ => rfl
  | jumpAlways _ | goto _ => cases h
  | gosub _ | leave => cases hl

end Frame

namespace Walk

/-- The runs with the calls that are open, if every call and every return stands in the routine that
was called last, or outside of all if no call is open. -/
inductive Nested (oracle : Nat → Bool) (p : Program) : Walk → List Frame → Prop where
  | start : Nested oracle p .start []
  | step {w w' : Walk} {x : Placed} {frames : List Frame} (h : Nested oracle p w frames)
      (hx : p.placed[w.index]? = some x) (hw : w.act oracle p x = some w')
      (hin : x.statement.isLink = true → x.routine = Frame.innermost? frames) :
      Nested oracle p w' (Frame.after w.index frames x.statement)

/-- What a statement does: where a walk goes on, and where its routines go back to. -/
inductive Moves (p : Program) (w : Walk) (x : Placed) (w' : Walk) : Prop where
  | jump {label : String} (hs : x.statement.target? = some label)
      (hi : p.entryIndex? .label label = some w'.index) (hr : w'.returns = w.returns)
  | next (hs : x.statement.goesOn = true) (hl : x.statement.isLink = false)
      (hi : w'.index = w.index + 1) (hr : w'.returns = w.returns)
  | call {callee : String} (hs : x.statement = .gosub callee)
      (hi : p.entryIndex? .routine callee = some w'.index)
      (hr : w'.returns = fun r ↦ if r = callee then some (w.index + 1) else w.returns r)
  | back {r : String} (hs : x.statement = .leave) (ho : x.routine = some r)
      (hi : w.returns r = some w'.index) (hr : w'.returns = w.returns)
  | restart {slots : List Slot} {operands : List Token}
      (hs : x.statement = .plain ["end"] slots operands) (hi : w'.index = 0)
      (hr : w'.returns = w.returns)

section Step

variable {oracle : Nat → Bool} {p : Program} {w w' : Walk} {x : Placed}

private theorem moves_of_act (h : w.act oracle p x = some w') : w.Moves p x w' := by
  cases hs : x.statement with
  | plain words slots operands =>
    simp only [act, hs, Option.some.injEq] at h
    by_cases he : words = ["end"]
    · rw [if_pos he] at h
      rw [he] at hs
      rw [← h]
      exact .restart hs rfl rfl
    · rw [if_neg he] at h
      rw [← h]
      exact .next (by rw [hs]; exact decide_eq_true he) (by rw [hs]; rfl) rfl rfl
  | jumpAlways label | goto label =>
    simp only [act, hs, Option.map_eq_some_iff] at h
    obtain ⟨i, hi, he⟩ := h
    rw [← he]
    exact .jump (by rw [hs]; rfl) hi rfl
  | jumpIf label operator operands =>
    simp only [act, hs] at h
    by_cases ho : oracle w.asked = true
    · rw [if_pos ho, Option.map_eq_some_iff] at h
      obtain ⟨i, hi, he⟩ := h
      rw [← he]
      exact .jump (by rw [hs]; rfl) hi rfl
    · rw [if_neg ho, Option.some.injEq] at h
      rw [← h]
      exact .next (by rw [hs]; rfl) (by rw [hs]; rfl) rfl rfl
  | gosub callee =>
    simp only [act, hs, Option.map_eq_some_iff] at h
    obtain ⟨i, hi, he⟩ := h
    rw [← he]
    exact .call hs hi rfl
  | leave =>
    simp only [act, hs, Option.map_eq_some_iff, Option.bind_eq_some_iff] at h
    obtain ⟨i, ⟨r, ho, hi⟩, he⟩ := h
    rw [← he]
    exact .back hs ho hi rfl

/-- Only a call of a routine changes where the routine goes back to. -/
private theorem returns_of_act (h : w.act oracle p x = some w') (r : String) :
    w'.returns r = if x.statement = .gosub r then some (w.index + 1) else w.returns r := by
  cases moves_of_act h with
  | jump hs _ hr | next _ hs _ hr =>
    have hne : x.statement ≠ .gosub r := by
      intro he
      rw [he] at hs
      cases hs
    rw [hr, if_neg hne]
  | call hs _ hr =>
    rw [hr, hs]
    simp only [Statement.gosub.injEq, eq_comm]
  | back hs _ _ hr | restart hs _ hr => simp [hr, hs]

/-- A statement leaves alone where the routine goes back to that is open. -/
private theorem returns_open_of_act (hp : p.Resolved) (hx : p.placed[w.index]? = some x)
    {r : String} (ho : x.routine = some r) (h : w.act oracle p x = some w') :
    w'.returns r = w.returns r := by
  have hne : x.statement ≠ .gosub r :=
    fun hs ↦ hp.not_calls_self r ⟨x, List.mem_of_getElem? hx, ho, hs⟩
  rw [returns_of_act h, if_neg hne]

/-- A call of a routine from the one that was called last. -/
theorem Nested.call {frames : List Frame} (h : Nested oracle p w frames)
    {routine note : Option String} {callee : String} {i : Nat}
    (hx : p.placed[w.index]? = some ⟨routine, note, .gosub callee⟩)
    (hi : p.entryIndex? .routine callee = some i) (hin : routine = Frame.innermost? frames) :
    Nested oracle p
      { w with
        index := i
        returns := fun r ↦ if r = callee then some (w.index + 1) else w.returns r }
      (⟨callee, w.index + 1⟩ :: frames) :=
  .step h hx (by simp [act, hi]) fun _ ↦ hin

end Step
end Walk

namespace Frame

/-- What holds of the calls that are open: each was made by the routine that was called before it,
and a routine on no cycle goes back behind its own call. -/
structure Kept (p : Program) (w : Walk) (frames : List Frame) : Prop where
  declared : ∀ f ∈ frames, p.Declares .routine f.callee
  chain : frames.IsChain fun inner outer ↦ p.Calls outer.callee inner.callee
  returns : ∀ f ∈ frames, ¬ p.Recursive f.callee → w.returns f.callee = some f.back

section Kept

variable {oracle : Nat → Bool} {p : Program} {w w' : Walk} {x : Placed} {frames : List Frame}

/-- Calls lead from every routine that is active to the one that was called last. -/
private theorem reflTransGen_of_isChain {f g : Frame}
    (h : (f :: frames).IsChain fun inner outer ↦ p.Calls outer.callee inner.callee)
    (hg : g ∈ f :: frames) : Relation.ReflTransGen p.Calls g.callee f.callee := by
  induction frames generalizing f with
  | nil => rw [List.mem_singleton.mp hg]
  | cons f' frames ih =>
    obtain ⟨hcall, htail⟩ := List.isChain_cons_cons.mp h
    rcases List.mem_cons.mp hg with rfl | hg
    · exact .refl
    · exact (ih htail hg).tail hcall

private theorem exists_cons_of_innermost? {r : String} (h : innermost? frames = some r) :
    ∃ f rest, frames = f :: rest ∧ f.callee = r := by
  cases frames with
  | nil => cases h
  | cons f rest => exact ⟨f, rest, rfl, Option.some.inj h⟩

/-- The routine that was called last makes the call. -/
private theorem calls_of_innermost? {f : Frame} {callee : String} (hx : p.placed[w.index]? = some x)
    (hs : x.statement = .gosub callee) (hin : x.routine = innermost? (f :: frames)) :
    p.Calls f.callee callee :=
  ⟨x, List.mem_of_getElem? hx, hin, hs⟩

/-- A call of a routine that is active closes a cycle. -/
theorem Kept.recursive_of_call (hk : Kept p w frames) {callee : String}
    (hx : p.placed[w.index]? = some x) (hs : x.statement = .gosub callee)
    (hin : x.routine = innermost? frames) {f : Frame} (hf : f ∈ frames)
    (hcallee : f.callee = callee) : p.Recursive callee := by
  cases frames with
  | nil => cases hf
  | cons g frames =>
    have hpath := reflTransGen_of_isChain hk.chain hf
    rw [hcallee] at hpath
    exact Relation.TransGen.tail' hpath (calls_of_innermost? hx hs hin)

private theorem kept_start (p : Program) : Kept p .start [] where
  declared := by simp
  chain := .nil
  returns := by simp

/-- A call keeps the others, because it overwrites a way back only if it closes a cycle. -/
theorem Kept.call (hk : Kept p w frames) {callee : String} (hr : p.Resolved)
    (hx : p.placed[w.index]? = some x) (hs : x.statement = .gosub callee)
    (hin : x.routine = innermost? frames) (hw : w.act oracle p x = some w') :
    Kept p w' (⟨callee, w.index + 1⟩ :: frames) where
  declared := by
    have hresolved := hr x (List.mem_of_getElem? hx)
    rw [hs] at hresolved
    exact List.forall_mem_cons.mpr ⟨hresolved.1, hk.declared⟩
  chain := by
    cases frames with
    | nil => exact .singleton _
    | cons f frames =>
      exact List.isChain_cons_cons.mpr ⟨calls_of_innermost? hx hs hin, hk.chain⟩
  returns := by
    rw [List.forall_mem_cons]
    constructor
    · intro _
      rw [Walk.returns_of_act hw, if_pos hs]
    · intro f hf hrec
      have hne : x.statement ≠ .gosub f.callee := by
        intro he
        exact hrec (hk.recursive_of_call hx he hin hf rfl)
      rw [Walk.returns_of_act hw, if_neg hne]
      exact hk.returns f hf hrec

/-- The calls that are open after a statement that makes none are among those before. -/
private theorem Kept.of_suffix (hk : Kept p w frames) {frames' : List Frame}
    (hsuffix : frames' <:+ frames) (hw : w.act oracle p x = some w')
    (hs : ∀ r, x.statement ≠ .gosub r) : Kept p w' frames' where
  declared f hf := hk.declared f (hsuffix.mem hf)
  chain := hk.chain.suffix hsuffix
  returns f hf hrec := by
    rw [Walk.returns_of_act hw, if_neg (hs _)]
    exact hk.returns f (hsuffix.mem hf) hrec

private theorem after_suffix {index : Nat} {s : Statement} (h : ∀ r, s ≠ .gosub r) :
    after index frames s <:+ frames := by
  cases s with
  | gosub callee => exact absurd rfl (h callee)
  | leave => exact List.tail_suffix frames
  | plain words slots operands =>
    by_cases he : words = ["end"]
    · simp [after, he]
    · simp [after, he]
  | jumpAlways _ | jumpIf _ _ _ | goto _ => exact List.suffix_refl frames

/-- Every statement keeps what holds of the calls that are open. -/
theorem Kept.step (hk : Kept p w frames) (hr : p.Resolved) (hx : p.placed[w.index]? = some x)
    (hw : w.act oracle p x = some w')
    (hin : x.statement.isLink = true → x.routine = innermost? frames) :
    Kept p w' (after w.index frames x.statement) := by
  by_cases hcall : ∃ callee, x.statement = .gosub callee
  · obtain ⟨callee, hs⟩ := hcall
    rw [hs] at hin ⊢
    exact hk.call hr hx hs (hin rfl) hw
  · have hs : ∀ r, x.statement ≠ .gosub r := fun r he ↦ hcall ⟨r, he⟩
    exact hk.of_suffix (after_suffix hs) hw hs

end Kept
end Frame

/-- What holds of the calls that are open holds along every run. -/
theorem Walk.Nested.kept {oracle : Nat → Bool} {p : Program} {w : Walk} {frames : List Frame}
    (h : Nested oracle p w frames) (hr : p.Resolved) : Frame.Kept p w frames := by
  induction h with
  | start => exact Frame.kept_start p
  | step _ hx hw hin ih => exact ih.step hr hx hw hin

/-- The statement at an index stands in a routine or outside of all, if there is one. -/
def Program.Within (p : Program) (index : Nat) (routine : Option String) : Prop :=
  ∀ x ∈ p.placed[index]?, x.routine = routine

instance (p : Program) (index : Nat) (routine : Option String) :
    Decidable (p.Within index routine) :=
  inferInstanceAs (Decidable (∀ x ∈ p.placed[index]?, x.routine = routine))

/-- Routines are entered by calls and left by returns only: jumps stay where they are, and what
comes after a statement stands in the same routine. -/
structure Program.Structured (p : Program) : Prop where
  start : p.Within 0 none
  entry : ∀ r, p.Declares .routine r → ∀ i ∈ p.entryIndex? .routine r, p.Within i (some r)
  jump : ∀ x ∈ p.placed, ∀ label ∈ x.statement.target?, ∀ i ∈ p.entryIndex? .label label,
    p.Within i x.routine
  next : ∀ i < p.placed.length, ∀ x ∈ p.placed[i]?, x.statement.goesOn = true →
    p.Within (i + 1) x.routine

/-- Every call that is open goes back into the routine that was called before. -/
def Frame.Rooted (p : Program) : List Frame → Prop
  | [] => True
  | f :: frames => p.Within f.back (innermost? frames) ∧ Rooted p frames

/-- A walk is in the routine that was called last, and the calls that are open lead out of it. -/
structure Walk.InPlace (p : Program) (w : Walk) (frames : List Frame) : Prop where
  here : p.Within w.index (Frame.innermost? frames)
  rooted : Frame.Rooted p frames

section Structured

variable {oracle : Nat → Bool} {p : Program} {w w' : Walk} {x : Placed} {frames : List Frame}

/-- Every statement of a structured program leaves a walk in its place, if the ways back are those
of the calls that are open. -/
theorem Walk.InPlace.step (h : InPlace p w frames) (hp : p.Structured)
    (hreturns : ∀ f ∈ frames, w.returns f.callee = some f.back) (hx : p.placed[w.index]? = some x)
    (hw : w.act oracle p x = some w') :
    InPlace p w' (Frame.after w.index frames x.statement) := by
  have hroutine : x.routine = Frame.innermost? frames := h.here x hx
  have hnext (hs : x.statement.goesOn = true) :
      p.Within (w.index + 1) (Frame.innermost? frames) := by
    rw [← hroutine]
    exact hp.next _ (List.getElem?_eq_some_iff.mp hx).1 x hx hs
  cases moves_of_act hw with
  | jump hs hi _ =>
    have hhere := hp.jump x (List.mem_of_getElem? hx) _ hs _ hi
    rw [hroutine] at hhere
    rw [Frame.after_of_target? hs]
    exact ⟨hhere, h.rooted⟩
  | next hs hl hi _ =>
    rw [Frame.after_of_goesOn hs hl]
    exact ⟨by rw [hi]; exact hnext hs, h.rooted⟩
  | @call callee hs hi _ =>
    have hd : p.Declares .routine callee := Program.isSome_entryIndex?_iff.mp (by rw [hi]; rfl)
    have hback := hnext (by rw [hs]; rfl)
    rw [hs]
    exact ⟨hp.entry callee hd _ hi, hback, h.rooted⟩
  | back hs ho hi _ =>
    -- The return stands in the routine that was called last, so it finds the way back of that call.
    obtain ⟨f, rest, hframes, hf⟩ := Frame.exists_cons_of_innermost? (hroutine.symm.trans ho)
    have hback := hreturns f (by rw [hframes]; exact List.mem_cons_self)
    rw [hf, hi, Option.some.injEq] at hback
    have hrooted := h.rooted
    rw [hframes] at hrooted
    rw [hs, hframes]
    exact ⟨by rw [hback]; exact hrooted.1, hrooted.2⟩
  | restart hs hi _ =>
    rw [hs]
    exact ⟨by rw [hi]; exact hp.start, trivial⟩

/-- In a structured program without cycles of calls, calls and returns are always made in the
routine that was called last. -/
theorem Program.Structured.exists_nested (hp : p.Structured) (hr : p.Resolved)
    (hc : ∀ r, ¬ p.Recursive r) (n : Nat) (h : Walk.Nested oracle p w frames)
    (hplace : w.InPlace p frames) (hrun : runFor (Walk.step oracle p) n w = some w') :
    ∃ frames', Walk.Nested oracle p w' frames' := by
  induction n generalizing w frames with
  | zero =>
    cases hrun
    exact ⟨frames, h⟩
  | succ n ih =>
    rw [runFor, Option.bind_eq_some_iff] at hrun
    obtain ⟨w₁, hstep, hrun⟩ := hrun
    rw [Walk.step, Option.bind_eq_some_iff] at hstep
    obtain ⟨x, hx, hw⟩ := hstep
    have hreturns : ∀ f ∈ frames, w.returns f.callee = some f.back :=
      fun f hf ↦ (h.kept hr).returns f hf (hc _)
    exact ih (.step h hx hw fun _ ↦ hplace.here x hx) (hplace.step hp hreturns hx hw) hrun

end Structured

section Runs

variable {oracle : Nat → Bool} {p : Program} {w w' : Walk} {x : Placed} {m : Processor}
  {lines : List String} {frames : List Frame}

private theorem Walk.Nested.exists_runFor (h : Nested oracle p w frames) :
    ∃ n, runFor (Walk.step oracle p) n .start = some w := by
  induction h with
  | start => exact ⟨0, rfl⟩
  | step _ hx hw _ ih =>
    obtain ⟨n, hn⟩ := ih
    refine ⟨n + 1, ?_⟩
    rw [runFor_add, hn, Option.bind_some, runFor, Walk.step, hx, Option.bind_some, hw]
    rfl

/-- A processor that follows has the ways back of the calls that are open, but for those on
cycles. -/
theorem Processor.Follows.memory_of_kept (hf : Follows p w m) (hk : Frame.Kept p w frames)
    {f : Frame} (hframe : f ∈ frames) (hrec : ¬ p.Recursive f.callee) :
    m.memory (returnVariable f.callee) = some (p.offset f.back) := by
  rw [hf.memory_eq _ (hk.declared f hframe), hk.returns f hframe hrec, Option.map_some]

/-- The lines of a statement leave alone where the open routine goes back to. -/
theorem Processor.Matches.exists_keeps_open (h : Matches oracle p lines w m) (hr : p.Resolved)
    (hf : Follows p w m) (hx : p.placed[w.index]? = some x) {r : String} (ho : x.routine = some r)
    (hw : Walk.step oracle p w = some w') :
    ∃ m', runFor (Processor.step oracle lines) x.statement.size m = some m' ∧ Follows p w' m' ∧
      m'.memory (returnVariable r) = m.memory (returnVariable r) := by
  obtain ⟨y, m', hy, hrun, hf'⟩ := h.1 w' hw
  obtain rfl : x = y := Option.some.inj (hx.symm.trans hy)
  have hd := Program.declares_of_getElem? hx ho
  rw [Walk.step, hx, Option.bind_some] at hw
  refine ⟨m', hrun, hf', ?_⟩
  rw [hf'.memory_eq r hd, hf.memory_eq r hd, Walk.returns_open_of_act hr hx ho hw]

end Runs

/-- A way back is lost only on a cycle of calls, and a cycle leads through two routines. In an
assembled program no routine calls itself. While calls and returns are made in the routine that was
called last, a routine that is active and on no cycle goes back behind its own call, and only a
routine on a cycle is called while it is active. In a structured program without cycles all calls
and returns are made so. If no statement writes to the counter or to where a routine keeps its
return, the processor follows every run from the beginning on. It has the ways back of all active
routines that are on no cycle then, and the lines of a statement leave alone the way back of the
routine that is open. -/
theorem return_lost_only_on_cycle (text : String) (a : Assembly) (p : Program)
    (ha : Assembly.ofText text = .ok a) (hp : p.Reads .standard text) (oracle : Nat → Bool) :
    (∀ r, ¬ p.Calls r r) ∧
    (∀ r, p.Recursive r → ∃ q, q ≠ r ∧ p.Calls r q ∧ Relation.TransGen p.Calls q r) ∧
    (∀ w frames, Walk.Nested oracle p w frames →
      (∀ f ∈ frames, ¬ p.Recursive f.callee → w.returns f.callee = some f.back) ∧
      ∀ x callee, p.placed[w.index]? = some x → x.statement = .gosub callee →
        x.routine = Frame.innermost? frames → (∃ f ∈ frames, f.callee = callee) →
        p.Recursive callee) ∧
    (p.Structured → (∀ r, ¬ p.Recursive r) → ∀ n w,
      runFor (Walk.step oracle p) n .start = some w → ∃ frames, Walk.Nested oracle p w frames) ∧
    (p.KeepsReturns →
      (∀ n w, runFor (Walk.step oracle p) n .start = some w →
        ∃ k m, runFor (Processor.step oracle (a.lines false)) k .start = some m ∧
          Processor.Follows p w m) ∧
      (∀ w frames, Walk.Nested oracle p w frames →
        ∃ k m, runFor (Processor.step oracle (a.lines false)) k .start = some m ∧
          Processor.Follows p w m ∧
          ∀ f ∈ frames, ¬ p.Recursive f.callee →
            m.memory (returnVariable f.callee) = some (p.offset f.back)) ∧
      ∀ w w' m x r, Processor.Follows p w m → p.placed[w.index]? = some x → x.routine = some r →
        Walk.step oracle p w = some w' →
        ∃ m', runFor (Processor.step oracle (a.lines false)) x.statement.size m = some m' ∧
          Processor.Follows p w' m' ∧
          m'.memory (returnVariable r) = m.memory (returnVariable r)) := by
  obtain ⟨q, hq, hr, hlines⟩ := Assembly.exists_reads_lines_eq ha
  rw [← hp.unique hq] at hr hlines
  rw [hlines false]
  refine ⟨hr.not_calls_self, fun r h ↦ hr.exists_calls_of_recursive h, ?_, ?_, fun hkeeps ↦ ?_⟩
  · intro w frames h
    have hk := h.kept hr
    refine ⟨hk.returns, ?_⟩
    rintro x callee hx hs hin ⟨f, hf, hcallee⟩
    exact hk.recursive_of_call hx hs hin hf hcallee
  · intro hs hc n w hrun
    exact hs.exists_nested hr hc n .start ⟨hs.start, trivial⟩ hrun
  · have hmatch : ∀ w m, Processor.Follows p w m →
        Processor.Matches oracle p (p.lines false) w m :=
      fun w m hf ↦ hf.matches_of_reads hp hr hkeeps
    have hfollows (n : Nat) (w : Walk) (hrun : runFor (Walk.step oracle p) n .start = some w) :
        ∃ k m, runFor (Processor.step oracle (p.lines false)) k .start = some m ∧
          Processor.Follows p w m := by
      obtain ⟨k, m, -, -, hm, hf⟩ := ((Processor.start_follows p).exists_run hmatch n).1 w hrun
      exact ⟨k, m, hm, hf⟩
    refine ⟨hfollows, fun w frames h ↦ ?_, ?_⟩
    · obtain ⟨n, hrun⟩ := h.exists_runFor
      obtain ⟨k, m, hm, hf⟩ := hfollows n w hrun
      exact ⟨k, m, hm, hf, fun f hframe ↦ hf.memory_of_kept (h.kept hr) hframe⟩
    · intro w w' m x r hf hx ho hw
      exact (hmatch w m hf).exists_keeps_open hr hf hx ho hw

/-- A routine that calls another one in a loop. -/
def Program.loop : Program :=
  [.statement (.gosub "a"), .statement (.plain ["end"] [] []), .declare .routine "a",
    .declare .label "x", .statement (.gosub "b"),
    .statement (.jumpIf "x" "equal" [⟨.int, "1", 5, 47⟩, ⟨.int, "1", 5, 49⟩]), .statement .leave,
    .close, .declare .routine "b", .statement .leave, .close]

private theorem Program.loop_structured : loop.Structured where
  start := by decide
  entry := by
    intro r hr
    have hr : r = "a" ∨ r = "b" := by simpa [Declares, loop] using hr
    rcases hr with rfl | rfl
    · decide
    · decide
  jump := by decide
  next := by decide

private theorem Program.loop_not_recursive (r : String) : ¬ loop.Recursive r := by
  have hplaced : ∀ x ∈ loop.placed, x.routine = some "a" ∧ x.statement = .gosub "b" ∨
      x.routine = none ∨ x.statement.size = 1 := by decide
  have hcalls {q q' : String} (h : loop.Calls q q') : q = "a" ∧ q' = "b" := by
    obtain ⟨x, hx, ho, hs⟩ := h
    have hx := hplaced x hx
    rw [ho, hs] at hx
    simpa [Statement.size] using hx
  have hpath {q q' : String} (h : Relation.TransGen loop.Calls q q') : q = "a" ∧ q' = "b" := by
    induction h with
    | single h => exact hcalls h
    | tail _ h ih => exact ⟨ih.1, (hcalls h).2⟩
  intro h
  obtain ⟨ha, hb⟩ := hpath h
  exact absurd (ha.symm.trans hb) (by decide)

private theorem Program.loop_keepsReturns : loop.KeepsReturns := by
  have hnone : ∀ s ∈ loop.statements, s.targets = [] := by decide
  intro s hs t ht
  rw [hnone s hs] at ht
  cases ht

/-- Both calls are open in the inner routine, and both ways back are there, on the processor too. -/
theorem return_lost_only_on_cycle_loop :
    let text := "gosub a\nend\nroutine a:\nx: gosub b\njump x equal 1 1\nreturn\nendroutine\n" ++
      "routine b:\nreturn\nendroutine\n"
    (∃ a, Assembly.ofText text = .ok a ∧
      ∀ oracle, ∃ k m, runFor (Processor.step oracle (a.lines false)) k .start = some m ∧
        m.memory "bReturn" = some 5 ∧ m.memory "aReturn" = some 2) ∧
      Program.loop.Reads .standard text ∧ Program.loop.KeepsReturns ∧
      Program.loop.Structured ∧ (∀ r, ¬ Program.loop.Recursive r) ∧
      ∀ oracle,
        (∃ w, Walk.Nested oracle .loop w [⟨"b", 3⟩, ⟨"a", 1⟩] ∧
          w.returns "b" = some 3 ∧ w.returns "a" = some 1) ∧
        ∀ n w, runFor (Walk.step oracle .loop) n .start = some w →
          ∃ frames, Walk.Nested oracle .loop w frames := by
  intro text
  have hok : (Assembly.ofText text).toBool = true := by decide +kernel
  have helements : (elements text).map (Item.ofElement? .standard) = Program.loop.map some := by
    decide +kernel
  have hwalk (oracle : Nat → Bool) : ∃ w, Walk.Nested oracle .loop w [⟨"b", 3⟩, ⟨"a", 1⟩] := by
    have houter : Walk.Nested oracle .loop _ _ := Walk.Nested.call .start rfl rfl rfl
    exact ⟨_, houter.call rfl rfl rfl⟩
  cases ha : Assembly.ofText text with
  | error f =>
    rw [ha] at hok
    cases hok
  | ok a =>
    have hp : Program.loop.Reads .standard text := Assembly.reads_of_map_ofElement? ha helements
    refine ⟨⟨a, rfl, fun oracle ↦ ?_⟩, hp, Program.loop_keepsReturns, Program.loop_structured,
      Program.loop_not_recursive, fun oracle ↦ ?_⟩
    · obtain ⟨_, _, _, _, hrun⟩ := return_lost_only_on_cycle text a .loop ha hp oracle
      obtain ⟨w, h⟩ := hwalk oracle
      obtain ⟨k, m, hm, -, hmemory⟩ := (hrun Program.loop_keepsReturns).2.1 w _ h
      have hb := hmemory ⟨"b", 3⟩ (by simp) (Program.loop_not_recursive "b")
      have ha := hmemory ⟨"a", 1⟩ (by simp) (Program.loop_not_recursive "a")
      exact ⟨k, m, hm, hb, ha⟩
    · obtain ⟨_, _, hnested, hruns, _⟩ := return_lost_only_on_cycle text a .loop ha hp oracle
      obtain ⟨w, h⟩ := hwalk oracle
      have hreturns := (hnested w _ h).1
      have hb := hreturns ⟨"b", 3⟩ (by simp) (Program.loop_not_recursive "b")
      have ha := hreturns ⟨"a", 1⟩ (by simp) (Program.loop_not_recursive "a")
      exact ⟨⟨w, h, hb, ha⟩, hruns Program.loop_structured Program.loop_not_recursive⟩

/-- Two routines that call each other. -/
def Program.circle : Program :=
  [.statement (.gosub "a"), .statement (.plain ["end"] [] []), .declare .routine "a",
    .statement (.gosub "b"), .statement .leave, .close, .declare .routine "b",
    .statement (.gosub "a"), .statement .leave, .close]

private theorem Program.circle_recursive : circle.Recursive "a" := by
  have hout : circle.Calls "a" "b" := ⟨⟨some "a", some "subroutine a", .gosub "b"⟩, by decide⟩
  have hback : circle.Calls "b" "a" := ⟨⟨some "b", some "subroutine b", .gosub "a"⟩, by decide⟩
  exact .tail (.single hout) hback

/-- Two routines that call each other can be assembled, although the first one loses where it was
called from. -/
theorem not_acyclic_or_returns_kept :
    ¬ ∀ (text : String) (a : Assembly) (p : Program), Assembly.ofText text = .ok a →
      p.Reads .standard text → (∀ r, ¬ p.Recursive r) ∨
        ∀ oracle w frames, Walk.Nested oracle p w frames →
          ∀ f ∈ frames, w.returns f.callee = some f.back := by
  intro hall
  let text := "gosub a\nend\nroutine a:\ngosub b\nreturn\nendroutine\n" ++
    "routine b:\ngosub a\nreturn\nendroutine\n"
  have hok : (Assembly.ofText text).toBool = true := by decide +kernel
  have helements : (elements text).map (Item.ofElement? .standard) = Program.circle.map some := by
    decide +kernel
  cases ha : Assembly.ofText text with
  | error f =>
    rw [ha] at hok
    cases hok
  | ok a =>
    rcases hall text a .circle ha (Assembly.reads_of_map_ofElement? ha helements) with h | h
    · exact h "a" Program.circle_recursive
    · let oracle : Nat → Bool := fun _ ↦ true
      have hfirst : Walk.Nested oracle .circle _ _ := Walk.Nested.call .start rfl rfl rfl
      have hsecond := hfirst.call rfl rfl rfl
      have hthird := hsecond.call rfl rfl rfl
      have hkept := h oracle _ _ hthird ⟨"a", 1⟩ (by simp [Walk.start])
      cases hkept

end MlogAsm
