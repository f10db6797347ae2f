import Mathlib.Logic.Basic
import Mathlib.Tactic.Push

/-!
# Programs that may stop

Rules for `EStateM ε σ`, the programs that change a state and may stop with an
error and the state reached so far.  `bind_ok` and `bind_error` compute a run.
`Triple` is partial knowledge of one: what holds when the program returns and
what holds when it stops.  `Related` compares two programs on states of two types.
-/

namespace Run

section
variable {ε σ α β : Type}

/-! ## Computing a run -/

theorem bind_ok {x : EStateM ε σ α} {f : α → EStateM ε σ β} {s s' : σ} {a : α}
    (h : x.run s = .ok a s') : (x >>= f).run s = (f a).run s' := by
  rw [EStateM.run] at h
  change EStateM.bind x f s = _
  rw [EStateM.bind, h]
  rfl

theorem bind_error {x : EStateM ε σ α} {f : α → EStateM ε σ β} {s s' : σ} {e : ε}
    (h : x.run s = .error e s') : (x >>= f).run s = .error e s' := by
  rw [EStateM.run] at h
  change EStateM.bind x f s = _
  rw [EStateM.bind, h]

@[simp] theorem pure_run (a : α) (s : σ) : (pure a : EStateM ε σ α).run s = .ok a s := rfl

theorem ok_bind (a : α) (f : α → Except ε β) : (Except.ok a >>= f) = f a := rfl

/-- A step of a program without a state. -/
theorem except_bind_eq_ok {x : Except ε α} {f : α → Except ε β} {b : β} :
    x >>= f = .ok b ↔ ∃ a, x = .ok a ∧ f a = .ok b := by
  cases x with
  | error e => exact ⟨nofun, nofun⟩
  | ok a => exact ⟨fun h => ⟨a, rfl, h⟩, fun ⟨_, ha, h⟩ => by cases ha; exact h⟩

/-- A program without a state gets through for all of a list, or it stops for one of it. -/
theorem all_ok_or_error {α β : Type} (f : α → Except ε β) (l : List α) :
    (∀ a ∈ l, ∃ b, f a = .ok b) ∨ ∃ a ∈ l, ∃ e, f a = .error e := by
  rw [or_iff_not_imp_left]
  intro h
  push Not at h
  obtain ⟨a, ha, hnot⟩ := h
  cases hf : f a with
  | error e => exact ⟨a, ha, e, hf⟩
  | ok b => exact absurd hf (hnot b)

/-! ## Triples -/

/-- From a state with `P` the program returns with `Q` or stops with `E`. -/
def Triple (P : σ → Prop) (x : EStateM ε σ α) (Q : α → σ → Prop) (E : ε → σ → Prop) : Prop :=
  ∀ s, P s →
    (∃ a s', x.run s = .ok a s' ∧ Q a s') ∨ (∃ e s', x.run s = .error e s' ∧ E e s')

theorem Triple.pure {P : σ → Prop} {a : α} {Q : α → σ → Prop} {E : ε → σ → Prop}
    (h : ∀ s, P s → Q a s) : Triple P (pure a) Q E :=
  fun s hs => Or.inl ⟨a, s, rfl, h s hs⟩

theorem Triple.bind {P : σ → Prop} {x : EStateM ε σ α} {R : α → σ → Prop}
    {f : α → EStateM ε σ β} {Q : β → σ → Prop} {E : ε → σ → Prop} (hx : Triple P x R E)
    (hf : ∀ a, Triple (R a) (f a) Q E) : Triple P (x >>= f) Q E := by
  intro s hs
  rcases hx s hs with ⟨a, s', hrun, hr⟩ | ⟨e, s', hrun, he⟩
  · rw [bind_ok hrun]
    exact hf a s' hr
  · rw [bind_error hrun]
    exact Or.inr ⟨e, s', rfl, he⟩

theorem Triple.conseq {P P' : σ → Prop} {x : EStateM ε σ α} {Q Q' : α → σ → Prop}
    {E E' : ε → σ → Prop} (h : Triple P x Q E) (hP : ∀ s, P' s → P s)
    (hQ : ∀ a s, Q a s → Q' a s) (hE : ∀ e s, E e s → E' e s) : Triple P' x Q' E' := by
  intro s hs
  rcases h s (hP s hs) with ⟨a, s', hrun, hr⟩ | ⟨e, s', hrun, he⟩
  · exact Or.inl ⟨a, s', hrun, hQ a s' hr⟩
  · exact Or.inr ⟨e, s', hrun, hE e s' he⟩

/-- A fact that follows from the precondition may be assumed. -/
theorem Triple.assume {P : σ → Prop} {φ : Prop} {x : EStateM ε σ α} {Q : α → σ → Prop}
    {E : ε → σ → Prop} (hφ : ∀ s, P s → φ) (h : φ → Triple P x Q E) : Triple P x Q E :=
  fun s hs => h (hφ s hs) s hs

/-! ## Related programs -/

/-- The state a run ends in, however it ends. -/
def finalState : EStateM.Result ε σ α → σ
  | .ok _ s => s
  | .error _ s => s

variable {τ : Type} {R : σ → τ → Prop}

/-- The same end in related states. -/
inductive ResultRel (R : σ → τ → Prop) : EStateM.Result ε σ α → EStateM.Result ε τ α → Prop where
  | ok {a : α} {s : σ} {t : τ} : R s t → ResultRel R (.ok a s) (.ok a t)
  | error {e : ε} {s : σ} {t : τ} : R s t → ResultRel R (.error e s) (.error e t)

theorem ResultRel.finalState {r : EStateM.Result ε σ α} {r' : EStateM.Result ε τ α}
    (h : ResultRel R r r') : R (finalState r) (finalState r') := by
  cases h with
  | ok hs => exact hs
  | error hs => exact hs

/-- From related states two programs come to the same end in related states. -/
def Related (R : σ → τ → Prop) (x : EStateM ε σ α) (y : EStateM ε τ α) : Prop :=
  ∀ s t, R s t → ResultRel R (x.run s) (y.run t)

theorem Related.pure (a : α) : Related R (pure a : EStateM ε σ α) (pure a) := fun _ _ hs => .ok hs

theorem Related.throw (e : ε) : Related R (throw e : EStateM ε σ α) (throw e) :=
  fun _ _ hs => .error hs

theorem Related.bind {x : EStateM ε σ α} {y : EStateM ε τ α} {f : α → EStateM ε σ β}
    {g : α → EStateM ε τ β} (hx : Related R x y) (hf : ∀ a, Related R (f a) (g a)) :
    Related R (x >>= f) (y >>= g) := by
  intro s t hs
  have hrel := hx s t hs
  cases hr : x.run s with
  | ok a s' =>
      rw [hr] at hrel
      generalize hr' : y.run t = r' at hrel
      cases hrel with
      | ok hs' =>
          rw [bind_ok hr, bind_ok hr']
          exact hf a _ _ hs'
  | error e s' =>
      rw [hr] at hrel
      generalize hr' : y.run t = r' at hrel
      cases hrel with
      | error hs' =>
          rw [bind_error hr, bind_error hr']
          exact .error hs'

end

end Run
