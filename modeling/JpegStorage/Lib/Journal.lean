import Mathlib.Data.List.Induction

/-!
# Journals

Writes that only append, each under a key: the next place under a key is the number of
writes to it so far.  `held` is what a journal has under a key.

All places under a key are below a capacity exactly when no more is held in the end
(`places_lt_iff`).
-/

namespace Journal

variable {α κ : Type} [DecidableEq κ] {key : α → κ}

/-- The writes under a key, in their order. -/
def held (key : α → κ) (k : κ) (ws : List α) : List α := ws.filter fun w => key w = k

@[simp] theorem held_nil (k : κ) : held key k [] = [] := rfl

@[simp] theorem held_append (k : κ) (ws ws' : List α) :
    held key k (ws ++ ws') = held key k ws ++ held key k ws' :=
  List.filter_append ..

theorem held_flatMap {β : Type} (k : κ) (f : β → List α) (xs : List β) :
    held key k (xs.flatMap f) = xs.flatMap fun x => held key k (f x) :=
  List.filter_flatMap ..

/-- Under another key nothing is held. -/
theorem held_eq_nil {k : κ} {ws : List α} (h : ∀ w ∈ ws, key w ≠ k) : held key k ws = [] :=
  List.filter_eq_nil_iff.mpr fun w hw => by simpa using h w hw

theorem held_eq_self {k : κ} {ws : List α} (h : ∀ w ∈ ws, key w = k) : held key k ws = ws :=
  List.filter_eq_self.mpr fun w hw => by simpa using h w hw

/-- The last write under a key is the one with the largest place. -/
theorem places_lt_iff {k : κ} {cap : Nat} {ws : List α} :
    (∀ before w after, ws = before ++ w :: after → key w = k → (held key k before).length < cap) ↔
      (held key k ws).length ≤ cap := by
  constructor
  · intro h
    induction ws using List.reverseRecOn with
    | nil => exact Nat.zero_le _
    | append_singleton ws w ih =>
        rw [held_append, List.length_append]
        by_cases hw : key w = k
        · have hlast := h ws w [] rfl hw
          rw [held_eq_self (List.forall_mem_singleton.mpr hw), List.length_singleton]
          omega
        · rw [held_eq_nil (List.forall_mem_singleton.mpr hw), List.length_nil, Nat.add_zero]
          refine ih fun before w' after hsplit hw' => h before w' (after ++ [w]) ?_ hw'
          rw [hsplit, List.append_assoc, List.cons_append]
  · rintro hle before w after rfl hw
    have hhere : held key k (w :: after) = w :: held key k after :=
      List.filter_cons_of_pos (by simpa using hw)
    rw [held_append, hhere, List.length_append, List.length_cons] at hle
    omega

end Journal
