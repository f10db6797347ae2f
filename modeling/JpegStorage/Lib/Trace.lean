import JpegStorage.Lib.Run
import Mathlib.Data.List.Basic

/-!
# The points of a run

A program and the list of the points its run comes to, given as a function of the
state it starts from.  A ghost goes along: `step` says how a point changes it and
`Good` what has to hold of a point after the ghost of the points before it.
`Tracks` is the judgment that every point is good and that an invariant relates the
ghost and the state where the program returns.
-/

namespace Run

section
variable {ε σ π γ α β : Type} {step : γ → π → γ} {Good : γ → π → Prop}

/-- Every point is good for the ghost of the points before it. -/
def Along (step : γ → π → γ) (Good : γ → π → Prop) : γ → List π → Prop
  | _, [] => True
  | g, p :: ps => Good g p ∧ Along step Good (step g p) ps

@[simp] theorem along_nil (g : γ) : Along step Good g [] := trivial

theorem along_append {g : γ} {ps qs : List π} :
    Along step Good g (ps ++ qs) ↔
      Along step Good g ps ∧ Along step Good (ps.foldl step g) qs := by
  induction ps generalizing g with
  | nil => simp
  | cons p ps ih => simp only [List.cons_append, Along, ih, List.foldl_cons, and_assoc]

/-- Points that are good whatever the ghost is. -/
theorem along_iff_forall {P : π → Prop} {g : γ} {ps : List π} :
    Along step (fun _ p => P p) g ps ↔ ∀ p ∈ ps, P p := by
  induction ps generalizing g with
  | nil => simp
  | cons p ps ih => rw [Along, ih, List.forall_mem_cons]

/-- A single point of a run. -/
theorem Along.point {g : γ} {before after : List π} {p : π}
    (h : Along step Good g (before ++ p :: after)) : Good (before.foldl step g) p :=
  (along_append.mp h).2.1

/-- The points of a program and then of one that goes on from its result. -/
def andThen (pts : σ → List π) (x : EStateM ε σ α) (pts' : α → σ → List π) : σ → List π :=
  fun s => pts s ++
    match x.run s with
    | .ok a s' => pts' a s'
    | .error _ _ => []

theorem andThen_nil (pts : σ → List π) (x : EStateM ε σ α) :
    andThen pts x (fun _ _ => []) = pts := by
  funext s
  rw [andThen]
  split <;> exact List.append_nil _

/-- From a state with `P` all points are good.  The program returns with the invariant
and `Q` or stops with `E`. -/
def Tracks (step : γ → π → γ) (Good : γ → π → Prop) (I : γ → σ → Prop) (P : σ → Prop)
    (pts : σ → List π) (x : EStateM ε σ α) (Q : α → σ → Prop) (E : ε → Prop) : Prop :=
  ∀ g s, I g s → P s → Along step Good g (pts s) ∧
    ((∃ a s', x.run s = .ok a s' ∧ I ((pts s).foldl step g) s' ∧ Q a s') ∨
      ∃ e s', x.run s = .error e s' ∧ E e)

variable {I : γ → σ → Prop} {P P' : σ → Prop} {E : ε → Prop} {pts : σ → List π}
  {x : EStateM ε σ α} {Q Q' : α → σ → Prop}

theorem Tracks.pure {a : α} (h : ∀ s, P s → Q a s) :
    Tracks step Good I P (fun _ => []) (pure a) Q E :=
  fun _ s hI hs => ⟨trivial, Or.inl ⟨a, s, rfl, hI, h s hs⟩⟩

theorem Tracks.bind {R : α → σ → Prop} {f : α → EStateM ε σ β} {pts' : α → σ → List π}
    {Q : β → σ → Prop} (hx : Tracks step Good I P pts x R E)
    (hf : ∀ a, Tracks step Good I (R a) (pts' a) (f a) Q E) :
    Tracks step Good I P (andThen pts x pts') (x >>= f) Q E := by
  intro g s hI hs
  obtain ⟨hpts, hrun⟩ := hx g s hI hs
  rw [andThen]
  rcases hrun with ⟨a, s', hrun, hI', hR⟩ | ⟨e, s', hrun, hE⟩
  · obtain ⟨hpts', hrun'⟩ := hf a _ s' hI' hR
    rw [bind_ok hrun]
    simp only [hrun, along_append, List.foldl_append]
    exact ⟨⟨hpts, hpts'⟩, hrun'⟩
  · rw [bind_error hrun]
    simp only [hrun, List.append_nil]
    exact ⟨hpts, Or.inr ⟨e, s', rfl, hE⟩⟩

/-- A program without points, of which a triple is known. -/
theorem Tracks.of_triple {E' : ε → σ → Prop} (h : Triple P x Q E') (hE : ∀ e s, E' e s → E e) :
    Tracks step Good (fun _ _ => True) P (fun _ => []) x Q E := by
  intro g s _ hs
  refine ⟨trivial, ?_⟩
  rcases h s hs with ⟨a, s', hrun, hq⟩ | ⟨e, s', hrun, he⟩
  · exact Or.inl ⟨a, s', hrun, trivial, hq⟩
  · exact Or.inr ⟨e, s', hrun, hE e s' he⟩

/-- A program without points behind one. -/
theorem Tracks.followed {R : α → σ → Prop} {f : α → EStateM ε σ β} {Q : β → σ → Prop}
    (hx : Tracks step Good I P pts x R E)
    (hf : ∀ a, Tracks step Good I (R a) (fun _ => []) (f a) Q E) :
    Tracks step Good I P pts (x >>= f) Q E := by
  have hbind := hx.bind hf
  rwa [andThen_nil] at hbind

/-- A program whose result is only passed on. -/
theorem Tracks.map {f : α → β} {Q : β → σ → Prop}
    (hx : Tracks step Good I P pts x (fun a s => Q (f a) s) E) :
    Tracks step Good I P pts (x >>= fun a => Pure.pure (f a)) Q E := by
  exact hx.followed fun _ => .pure fun _ hs => hs

theorem Tracks.conseq (h : Tracks step Good I P pts x Q E) (hP : ∀ s, P' s → P s)
    (hQ : ∀ a s, Q a s → Q' a s) : Tracks step Good I P' pts x Q' E := by
  intro g s hI hs
  obtain ⟨hpts, hrun⟩ := h g s hI (hP s hs)
  refine ⟨hpts, ?_⟩
  rcases hrun with ⟨a, s', hrun, hI', hq⟩ | hstop
  · exact Or.inl ⟨a, s', hrun, hI', hQ a s' hq⟩
  · exact Or.inr hstop

/-- A fact that follows from the precondition may be assumed. -/
theorem Tracks.assume {φ : Prop} (hφ : ∀ s, P s → φ) (h : φ → Tracks step Good I P pts x Q E) :
    Tracks step Good I P pts x Q E :=
  fun g s hI hs => h (hφ s hs) g s hI hs

end

end Run
