import JpegStorage.Lib.Run
import Mathlib.Data.Set.Insert

/-!
# Computations that may be interrupted

`Interruptible σ ε α` is the result of a computation together with the states that are
left when it is interrupted before it has one.  A computation that follows another one may be
interrupted in either of them.

`Safe Q C` says that `Q` holds of what is returned and `C` of every state that is left.
The rules follow the computation: `Safe.bind` for one behind the other, `Safe.fold` with an
invariant for one that is repeated.
-/

namespace Interrupt

/-- A computation that may be interrupted. -/
structure Interruptible (σ ε α : Type) where
  /-- What it returns when it is not. -/
  result : Except ε α
  /-- What it leaves when it is. -/
  leaves : Set σ

namespace Interruptible

variable {σ ε α β γ : Type}

@[ext] theorem ext {m m' : Interruptible σ ε α} (hresult : m.result = m'.result)
    (hleaves : ∀ s, s ∈ m.leaves ↔ s ∈ m'.leaves) : m = m' := by
  cases m
  cases m'
  obtain rfl := hresult
  obtain rfl := Set.ext hleaves
  rfl

/-- A computation that changes nothing. -/
def lift (x : Except ε α) : Interruptible σ ε α := ⟨x, ∅⟩

/-- A computation that changes a state at once.  An interruption leaves the state before. -/
def atomic (before : σ) (x : Except ε α) : Interruptible σ ε α := ⟨x, {before}⟩

instance : Monad (Interruptible σ ε) where
  pure a := lift (.ok a)
  bind m f :=
    { result := m.result >>= fun a => (f a).result
      leaves := {s | s ∈ m.leaves ∨ ∃ a, m.result = .ok a ∧ s ∈ (f a).leaves} }

@[simp] theorem result_pure (a : α) : (pure a : Interruptible σ ε α).result = .ok a := rfl

@[simp] theorem result_lift (x : Except ε α) : (lift x : Interruptible σ ε α).result = x := rfl

@[simp] theorem result_atomic (before : σ) (x : Except ε α) : (atomic before x).result = x := rfl

@[simp] theorem result_bind (m : Interruptible σ ε α) (f : α → Interruptible σ ε β) :
    (m >>= f).result = m.result >>= fun a => (f a).result := rfl

theorem mem_leaves_bind {m : Interruptible σ ε α} {f : α → Interruptible σ ε β} {s : σ} :
    s ∈ (m >>= f).leaves ↔ s ∈ m.leaves ∨ ∃ a, m.result = .ok a ∧ s ∈ (f a).leaves := Iff.rfl

theorem not_mem_leaves_lift {x : Except ε α} {s : σ} : s ∉ (lift x : Interruptible σ ε α).leaves :=
  Set.notMem_empty s

theorem pure_bind (a : α) (f : α → Interruptible σ ε β) : (pure a >>= f) = f a := by
  refine ext rfl fun s => ⟨?_, fun hs => Or.inr ⟨a, rfl, hs⟩⟩
  rintro (hs | ⟨a', ha, hs⟩)
  · exact absurd hs not_mem_leaves_lift
  · cases ha
    exact hs

theorem bind_pure (m : Interruptible σ ε α) : m >>= pure = m := by
  refine ext ?_ fun s => ⟨?_, Or.inl⟩
  · rw [result_bind]
    cases m.result <;> rfl
  · rintro (hs | ⟨a, _, hs⟩)
    · exact hs
    · exact absurd hs not_mem_leaves_lift

theorem bind_assoc (m : Interruptible σ ε α) (f : α → Interruptible σ ε β)
    (g : β → Interruptible σ ε γ) : m >>= f >>= g = m >>= fun a => f a >>= g := by
  refine ext ?_ fun s => ?_
  · cases hm : m.result <;> simp only [result_bind, hm] <;> rfl
  · simp only [mem_leaves_bind, result_bind, Run.except_bind_eq_ok]
    constructor
    · rintro ((hs | ⟨a, ha, hs⟩) | ⟨b, ⟨a, ha, hb⟩, hs⟩)
      · exact Or.inl hs
      · exact Or.inr ⟨a, ha, Or.inl hs⟩
      · exact Or.inr ⟨a, ha, Or.inr ⟨b, hb, hs⟩⟩
    · rintro (hs | ⟨a, ha, hs | ⟨b, hb, hs⟩⟩)
      · exact Or.inl (Or.inl hs)
      · exact Or.inl (Or.inr ⟨a, ha, hs⟩)
      · exact Or.inr ⟨b, ⟨a, ha, hb⟩, hs⟩

theorem bind_congr {m : Interruptible σ ε α} {f g : α → Interruptible σ ε β}
    (h : ∀ a, f a = g a) : m >>= f = m >>= g := congrArg (m >>= ·) (funext h)

/-- A computation for each element of a list. -/
def fold (f : α → β → Interruptible σ ε β) : List α → β → Interruptible σ ε β
  | [], b => pure b
  | a :: as, b => do
      let b ← f a b
      fold f as b

theorem fold_append (f : α → β → Interruptible σ ε β) (as as' : List α) (b : β) :
    fold f (as ++ as') b = fold f as b >>= fold f as' := by
  induction as generalizing b with
  | nil => exact (pure_bind b _).symm
  | cons a as ih =>
      rw [List.cons_append, fold, fold, bind_assoc]
      exact bind_congr fun b => ih b

/-! ## Safety -/

/-- What it returns and what it leaves. -/
structure Safe (m : Interruptible σ ε α) (Q : α → Prop) (C : σ → Prop) : Prop where
  /-- It returns with `Q`. -/
  returns : ∀ a, m.result = .ok a → Q a
  /-- It leaves `C`. -/
  leaves : ∀ s ∈ m.leaves, C s

variable {Q Q' : α → Prop} {R : β → Prop} {C C' : σ → Prop}

theorem Safe.mono {m : Interruptible σ ε α} (h : m.Safe Q C) (hQ : ∀ a, Q a → Q' a)
    (hC : ∀ s, C s → C' s) : m.Safe Q' C' :=
  ⟨fun a ha => hQ a (h.returns a ha), fun s hs => hC s (h.leaves s hs)⟩

theorem Safe.and {m : Interruptible σ ε α} (h : m.Safe Q C) (h' : m.Safe Q' C') :
    m.Safe (fun a => Q a ∧ Q' a) (fun s => C s ∧ C' s) :=
  ⟨fun a ha => ⟨h.returns a ha, h'.returns a ha⟩, fun s hs => ⟨h.leaves s hs, h'.leaves s hs⟩⟩

/-- What is returned is the result. -/
theorem Safe.result {m : Interruptible σ ε α} (h : m.Safe Q C) :
    m.Safe (fun a => m.result = .ok a ∧ Q a) C :=
  ⟨fun a ha => ⟨ha, h.returns a ha⟩, h.leaves⟩

theorem Safe.pure {a : α} (h : Q a) : (Pure.pure a : Interruptible σ ε α).Safe Q C := by
  refine ⟨fun a' ha => ?_, fun s hs => absurd hs not_mem_leaves_lift⟩
  cases ha
  exact h

theorem Safe.lift {x : Except ε α} (h : ∀ a, x = .ok a → Q a) :
    (Interruptible.lift x : Interruptible σ ε α).Safe Q C :=
  ⟨h, fun _ hs => absurd hs not_mem_leaves_lift⟩

theorem Safe.atomic {before : σ} {x : Except ε α} (hbefore : C before)
    (h : ∀ a, x = .ok a → Q a) : (Interruptible.atomic before x).Safe Q C := by
  refine ⟨h, fun s hs => ?_⟩
  rw [Set.mem_singleton_iff.mp hs]
  exact hbefore

theorem Safe.bind {m : Interruptible σ ε α} {f : α → Interruptible σ ε β} (hm : m.Safe Q C)
    (hf : ∀ a, Q a → (f a).Safe R C) : (m >>= f).Safe R C := by
  constructor
  · intro b hb
    obtain ⟨a, ha, hb⟩ := Run.except_bind_eq_ok.mp hb
    exact (hf a (hm.returns a ha)).returns b hb
  · rintro s (hs | ⟨a, ha, hs⟩)
    · exact hm.leaves s hs
    · exact (hf a (hm.returns a ha)).leaves s hs

/-- What holds before each element, with the elements that are left. -/
theorem Safe.fold {f : α → β → Interruptible σ ε β} {I : List α → β → Prop}
    (hstep : ∀ a as b, I (a :: as) b → (f a b).Safe (I as) C) {as : List α} {b : β}
    (h : I as b) : (Interruptible.fold f as b).Safe (I []) C := by
  induction as generalizing b with
  | nil => exact Safe.pure h
  | cons a as ih => exact (hstep a as b h).bind fun b' hb' => ih hb'

end Interruptible

end Interrupt
