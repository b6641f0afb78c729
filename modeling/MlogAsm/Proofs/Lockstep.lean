import MlogAsm.Fault

/-!
# Lockstep

Two runs side by side, from states that belong together. Either both succeed, with results that
belong together, or both fail, with faults that do. The second run may also be excused from all of
that by a fault of the first one.
-/

namespace MlogAsm

variable {σ τ α β γ δ : Type} {lenient : Prop} {F : Fault → Fault → Prop}

/-- Two outcomes match: both are results, or both are faults, that belong together. If the second
run is `lenient`, it may do anything where the first one fails. -/
inductive Matched (lenient : Prop) (F : Fault → Fault → Prop) (Q : α → β → σ → τ → Prop) :
    EStateM.Result Fault σ α → EStateM.Result Fault τ β → Prop where
  | ok {a : α} {b : β} {s : σ} {t : τ} (h : Q a b s t) : Matched lenient F Q (.ok a s) (.ok b t)
  | error {f g : Fault} {s : σ} {t : τ} (h : F f g) : Matched lenient F Q (.error f s) (.error g t)
  | excused {f : Fault} {s : σ} {r : EStateM.Result Fault τ β} (h : lenient) :
      Matched lenient F Q (.error f s) r

/-- Two steps match from all states that belong together. -/
def Lockstep (lenient : Prop) (F : Fault → Fault → Prop) (P : σ → τ → Prop)
    (Q : α → β → σ → τ → Prop) (m : EStateM Fault σ α) (n : EStateM Fault τ β) : Prop :=
  ∀ s t, P s t → Matched lenient F Q (m s) (n t)

namespace Lockstep

variable {P : σ → τ → Prop} {Q : α → β → σ → τ → Prop} {R : γ → δ → σ → τ → Prop}
  {m : EStateM Fault σ α} {n : EStateM Fault τ β}

theorem pure {a : α} {b : β} (h : ∀ s t, P s t → Q a b s t) :
    Lockstep lenient F P Q (pure a) (pure b) :=
  fun s t hst ↦ .ok (h s t hst)

theorem throw {f g : Fault} (h : F f g) :
    Lockstep lenient F P Q (throw f : EStateM Fault σ α) (throw g : EStateM Fault τ β) :=
  fun _ _ _ ↦ .error h

theorem modify {f : σ → σ} {g : τ → τ} {Q : PUnit → PUnit → σ → τ → Prop}
    (h : ∀ s t, P s t → Q ⟨⟩ ⟨⟩ (f s) (g t)) :
    Lockstep lenient F P Q (modify f : EStateM Fault σ PUnit) (modify g : EStateM Fault τ PUnit) :=
  fun s t hst ↦ .ok (h s t hst)

theorem bind {f : α → EStateM Fault σ γ} {g : β → EStateM Fault τ δ}
    (hm : Lockstep lenient F P Q m n) (hf : ∀ a b, Lockstep lenient F (Q a b) R (f a) (g b)) :
    Lockstep lenient F P R (m >>= f) (n >>= g) := by
  intro s t hst
  have h := hm s t hst
  change Matched lenient F R (EStateM.bind m f s) (EStateM.bind n g t)
  unfold EStateM.bind
  generalize m s = x, n t = y at h ⊢
  cases h with
  | ok hq => exact hf _ _ _ _ hq
  | error he => exact .error he
  | excused he => exact .excused he

/-- What is known of every result of a step holds of the results that match. -/
theorem attach {G : α → Prop} (hm : Lockstep lenient F P Q m n)
    (hg : ∀ {s s' : σ} {a : α}, m s = .ok a s' → G a) :
    Lockstep lenient F P (fun a b s t ↦ G a ∧ Q a b s t) m n := by
  intro s t hst
  have h := hm s t hst
  generalize hx : m s = x, n t = y at h ⊢
  cases h with
  | ok h => exact .ok ⟨hg hx, h⟩
  | error he => exact .error he
  | excused he => exact .excused he

end Lockstep

/-- What comes of two texts: results that belong together, or faults that do. If the second is
`lenient`, anything may come of it where the first one is at fault. -/
inductive Outcomes (lenient : Prop) (F : Fault → Fault → Prop) (Q : α → β → Prop) :
    Except Fault α → Except Fault β → Prop where
  | ok {a : α} {b : β} (h : Q a b) : Outcomes lenient F Q (.ok a) (.ok b)
  | error {f g : Fault} (h : F f g) : Outcomes lenient F Q (.error f) (.error g)
  | excused {f : Fault} {y : Except Fault β} (h : lenient) : Outcomes lenient F Q (.error f) y

namespace Outcomes

variable {Q : α → β → Prop} {R : γ → δ → Prop} {x : Except Fault α} {y : Except Fault β}

theorem bind (h : Outcomes lenient F Q x y) {f : α → Except Fault γ} {g : β → Except Fault δ}
    (hfg : ∀ a b, Q a b → Outcomes lenient F R (f a) (g b)) :
    Outcomes lenient F R (x >>= f) (y >>= g) := by
  cases h with
  | ok h => exact hfg _ _ h
  | error h => exact .error h
  | excused h => exact .excused h

theorem map (h : Outcomes lenient F Q x y) {f : α → γ} {g : β → δ}
    (hfg : ∀ a b, Q a b → R (f a) (g b)) : Outcomes lenient F R (x.map f) (y.map g) := by
  cases h with
  | ok h => exact .ok (hfg _ _ h)
  | error h => exact .error h
  | excused h => exact .excused h

theorem imp {Q' : α → β → Prop} (h : Outcomes lenient F Q x y) (hq : ∀ a b, Q a b → Q' a b) :
    Outcomes lenient F Q' x y := by
  cases h with
  | ok h => exact .ok (hq _ _ h)
  | error h => exact .error h
  | excused h => exact .excused h

theorem map_right {R : α → δ → Prop} (h : Outcomes lenient F Q x y) {g : β → δ}
    (hg : ∀ a b, Q a b → R a (g b)) : Outcomes lenient F R x (y.map g) := by
  cases h with
  | ok h => exact .ok (hg _ _ h)
  | error h => exact .error h
  | excused h => exact .excused h

/-- A result is one in both. -/
theorem exists_eq_ok (h : Outcomes lenient F Q x y) {a : α} (hx : x = .ok a) :
    ∃ b, y = .ok b ∧ Q a b := by
  cases h with
  | ok h =>
    cases hx
    exact ⟨_, rfl, h⟩
  | error h => cases hx
  | excused h => cases hx

/-- Where faults have to be the same and results are told from the first ones, so is the outcome. -/
theorem eq_map {f : α → β} (h : Outcomes False (fun f g ↦ g = f) (fun a b ↦ b = f a) x y) :
    y = x.map f := by
  cases h with
  | ok h => exact congrArg _ h
  | error h => exact congrArg _ h
  | excused h => exact h.elim

end Outcomes
end MlogAsm
