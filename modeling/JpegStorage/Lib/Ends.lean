import Mathlib.Logic.Basic
import Mathlib.Logic.Relation

/-!
# Runs that come to an end

`Ends Step Q s` says that every run from `s`, whichever steps are taken, comes to a
state without a step, and that `Q` holds there.  It is shown with an invariant and a
number that every step makes smaller (`Ends.of_measure`).
-/

section
variable {σ : Type} {Step : σ → σ → Prop} {Q : σ → Prop}

/-- Every run ends, and it ends with `Q`. -/
inductive Ends (Step : σ → σ → Prop) (Q : σ → Prop) : σ → Prop where
  | intro {s : σ} : (∀ s', Step s s' → Ends Step Q s') → ((∀ s', ¬ Step s s') → Q s) →
      Ends Step Q s

/-- An invariant with a measure that goes down. -/
theorem Ends.of_measure {I : σ → Prop} (measure : σ → Nat)
    (hstep : ∀ s s', I s → Step s s' → I s' ∧ measure s' < measure s)
    (hend : ∀ s, I s → (∀ s', ¬ Step s s') → Q s) {s : σ} (h : I s) : Ends Step Q s := by
  induction hn : measure s using Nat.strongRecOn generalizing s with
  | ind n ih =>
      refine .intro (fun s' hs' => ?_) (hend s h)
      obtain ⟨hI, hlt⟩ := hstep s s' h hs'
      exact ih (measure s') (hn ▸ hlt) hI rfl

theorem Ends.steps {s s' : σ} (h : Ends Step Q s) (hrun : Relation.ReflTransGen Step s s') :
    Ends Step Q s' := by
  induction hrun with
  | refl => exact h
  | tail _ hstep ih =>
      cases ih with
      | intro hsteps _ => exact hsteps _ hstep

/-- There is an end. -/
theorem Ends.exists_end {s : σ} (h : Ends Step Q s) :
    ∃ s', Relation.ReflTransGen Step s s' ∧ (∀ s'', ¬ Step s' s'') ∧ Q s' := by
  induction h with
  | @intro s _ hend ih =>
      by_cases hstuck : ∀ s', ¬ Step s s'
      · exact ⟨s, .refl, hstuck, hend hstuck⟩
      · obtain ⟨s₁, hnot⟩ := not_forall.mp hstuck
        have hs₁ := not_not.mp hnot
        obtain ⟨s', hrun, hstop, hQ⟩ := ih s₁ hs₁
        exact ⟨s', .head hs₁ hrun, hstop, hQ⟩

/-- What is known of the states that are reached may be used at the end. -/
theorem Ends.mono {Q' : σ → Prop} {s : σ} (h : Ends Step Q s)
    (hQ : ∀ s', Relation.ReflTransGen Step s s' → Q s' → Q' s') : Ends Step Q' s := by
  induction h with
  | @intro s _ hend ih =>
      refine .intro (fun s₁ hs₁ => ih s₁ hs₁ fun s' hrun => hQ s' (.head hs₁ hrun)) fun hstuck => ?_
      exact hQ s .refl (hend hstuck)

end
