import Mathlib.Data.List.Perm.Basic
import Mathlib.Data.Nat.Factorial.Basic
import Mathlib.Logic.Function.Iterate
import Mathlib.Order.Lattice

/-!
# The next permutation

`next_permutation` of the C++ standard library turns a sequence into the one that
follows it among its permutations in lexicographic order.  The last one becomes
the first.

`rank` is the number of permutations in front of a sequence without repetitions.
A step adds one to it (`nextPermutation_spec`), so the permutations met in fewer
than `n!` steps from the first one are different (`iterate_inj`).
-/

namespace Permute

open scoped Nat

section
variable {α : Type} [LinearOrder α]

/-- Exchange `x` with the first element greater than it. -/
def exchange (x : α) : List α → Option (α × List α)
  | [] => none
  | y :: ys =>
      if x < y then some (y, x :: ys)
      else
        match exchange x ys with
        | none => none
        | some (z, zs) => some (z, y :: zs)

/-- `next_permutation` and its result.  When the tail has no next permutation it
comes back reversed, in ascending order, and its first element greater than the head
takes the place of the head. -/
def nextPermutation : List α → List α × Bool
  | [] => ([], false)
  | x :: xs =>
      match nextPermutation xs with
      | (ys, true) => (x :: ys, true)
      | (ys, false) =>
          match exchange x ys with
          | some (y, zs) => (y :: zs, true)
          | none => (ys ++ [x], false)

/-- The number of permutations in front. -/
def rank : List α → Nat
  | [] => 0
  | x :: xs => xs.countP (· < x) * xs.length ! + rank xs

theorem countP_lt_eq_zero {x : α} {xs : List α} (h : ∀ y ∈ xs, x < y) : xs.countP (· < x) = 0 := by
  rw [List.countP_eq_zero]
  intro y hy
  simpa using (h y hy).le

theorem countP_lt_eq_length {x : α} {xs : List α} (h : ∀ y ∈ xs, y < x) :
    xs.countP (· < x) = xs.length := by
  rw [List.countP_eq_length]
  intro y hy
  simpa using h y hy

/-- Nothing is in front of an ascending sequence. -/
theorem rank_ascending {xs : List α} (h : xs.Pairwise (· < ·)) : rank xs = 0 := by
  induction xs with
  | nil => rfl
  | cons x xs ih =>
      obtain ⟨hx, hxs⟩ := List.pairwise_cons.mp h
      rw [rank, countP_lt_eq_zero hx, ih hxs, Nat.zero_mul]

theorem rank_cons_perm {x : α} {xs ys : List α} (h : ys.Perm xs) :
    rank (x :: ys) = xs.countP (· < x) * xs.length ! + rank ys := by
  rw [rank, h.countP_eq, h.length_eq]

/-- Nothing is exchanged when `x` is the greatest. -/
theorem exchange_none {x : α} {ys : List α} (hx : x ∉ ys) (h : exchange x ys = none) :
    ∀ y ∈ ys, y < x := by
  induction ys with
  | nil => simp
  | cons y ys ih =>
      rw [exchange] at h
      split at h
      · cases h
      next hlt =>
        split at h
        next hnone =>
          intro z hz
          cases List.mem_cons.mp hz with
          | inl heq =>
              subst heq
              exact lt_of_le_of_ne (not_lt.mp hlt) fun heq => hx (heq ▸ List.mem_cons_self ..)
          | inr hmem => exact ih (fun hmem => hx (List.mem_cons_of_mem _ hmem)) hnone z hmem
        · cases h

/-- An exchange in an ascending sequence keeps it ascending.  One element more is
below the new head. -/
theorem exchange_some {x y : α} {ys zs : List α} (hys : ys.Pairwise (· < ·)) (hx : x ∉ ys)
    (h : exchange x ys = some (y, zs)) :
    (y :: zs).Perm (x :: ys) ∧ zs.Pairwise (· < ·) ∧
      zs.countP (· < y) = ys.countP (· < x) + 1 := by
  induction ys generalizing y zs with
  | nil => cases h
  | cons a ys ih =>
      obtain ⟨ha, hys⟩ := List.pairwise_cons.mp hys
      rw [exchange] at h
      split at h
      next hlt =>
        cases h
        have hxs : ∀ z ∈ ys, x < z := fun z hz => hlt.trans (ha z hz)
        refine ⟨.swap .., List.pairwise_cons.mpr ⟨hxs, hys⟩, ?_⟩
        rw [List.countP_cons, List.countP_cons, countP_lt_eq_zero ha, countP_lt_eq_zero hxs]
        simp [hlt, hlt.le]
      next hlt =>
        split at h
        · cases h
        next z zs' hsome =>
          cases h
          have hne : a ≠ x := fun heq => hx (heq ▸ List.mem_cons_self ..)
          have hax : a < x := lt_of_le_of_ne (not_lt.mp hlt) hne
          obtain ⟨hperm, hzs, hcount⟩ := ih hys (fun hmem => hx (List.mem_cons_of_mem _ hmem)) hsome
          have hall : ∀ b ∈ y :: zs', a < b := by
            intro b hb
            cases List.mem_cons.mp (hperm.mem_iff.mp hb) with
            | inl heq => exact heq ▸ hax
            | inr hmem => exact ha b hmem
          refine ⟨?_, List.pairwise_cons.mpr ⟨fun b hb => hall b (List.mem_cons_of_mem _ hb), hzs⟩, ?_⟩
          · exact (List.Perm.swap ..).trans ((hperm.cons a).trans (.swap ..))
          · rw [List.countP_cons, List.countP_cons, hcount]
            simp [hax, hall y (List.mem_cons_self ..)]

/-- A step goes to the permutation behind, or from the last one to the first. -/
theorem nextPermutation_spec {xs : List α} (h : xs.Nodup) :
    (nextPermutation xs).1.Perm xs ∧
      ((nextPermutation xs).2 = true → rank (nextPermutation xs).1 = rank xs + 1) ∧
      ((nextPermutation xs).2 = false →
        (nextPermutation xs).1.Pairwise (· < ·) ∧ rank xs + 1 = xs.length !) := by
  induction xs with
  | nil => exact ⟨.refl _, nofun, fun _ => ⟨.nil, rfl⟩⟩
  | cons x xs ih =>
      obtain ⟨hx, hxs⟩ := List.nodup_cons.mp h
      obtain ⟨hperm, htrue, hfalse⟩ := ih hxs
      rw [nextPermutation]
      generalize nextPermutation xs = next at hperm htrue hfalse ⊢
      obtain ⟨ys, found⟩ := next
      cases found with
      | true =>
          refine ⟨hperm.cons x, fun _ => ?_, nofun⟩
          change rank (x :: ys) = rank (x :: xs) + 1
          rw [rank_cons_perm hperm, htrue rfl, rank, Nat.add_assoc]
      | false =>
          obtain ⟨hys, hrank⟩ := hfalse rfl
          have hxys : x ∉ ys := mt hperm.mem_iff.mp hx
          cases hex : exchange x ys with
          | some p =>
              obtain ⟨y, zs⟩ := p
              obtain ⟨hperm', hzs, hcount⟩ := exchange_some hys hxys hex
              have hlen : zs.length = xs.length := by
                have hlen' := hperm'.length_eq
                rw [List.length_cons, List.length_cons, hperm.length_eq] at hlen'
                omega
              simp only [hex]
              refine ⟨hperm'.trans (hperm.cons x), fun _ => ?_, nofun⟩
              calc rank (y :: zs)
                  = (xs.countP (· < x) + 1) * xs.length ! := by
                    rw [rank, rank_ascending hzs, hcount, hlen, hperm.countP_eq, Nat.add_zero]
                _ = xs.countP (· < x) * xs.length ! + (rank xs + 1) := by
                    rw [Nat.succ_mul, hrank]
                _ = rank (x :: xs) + 1 := by rw [rank, Nat.add_assoc]
          | none =>
              have hall := exchange_none hxys hex
              have hallxs : ∀ z ∈ xs, z < x := fun z hz => hall z (hperm.mem_iff.mpr hz)
              simp only [hex]
              refine ⟨?_, nofun, fun _ => ⟨?_, ?_⟩⟩
              · exact (List.perm_append_singleton x ys).trans (hperm.cons x)
              · refine List.pairwise_append.mpr ⟨hys, List.pairwise_singleton _ x, ?_⟩
                intro z hz b hb
                rw [List.mem_singleton.mp hb]
                exact hall z hz
              · rw [rank, countP_lt_eq_length hallxs, Nat.add_assoc, hrank, List.length_cons,
                  Nat.factorial_succ, Nat.succ_mul]

/-- `next_permutation` without its result. -/
def step (xs : List α) : List α := (nextPermutation xs).1

theorem step_perm {xs : List α} (h : xs.Nodup) : (step xs).Perm xs := (nextPermutation_spec h).1

/-- A permutation that is not the last one has the next rank behind it. -/
theorem rank_step {xs : List α} (h : xs.Nodup) (hlast : rank xs + 1 < xs.length !) :
    rank (step xs) = rank xs + 1 := by
  obtain ⟨_, htrue, hfalse⟩ := nextPermutation_spec h
  cases hfound : (nextPermutation xs).2 with
  | true => exact htrue hfound
  | false =>
      have hend := (hfalse hfound).2
      omega

theorem iterate_perm {xs : List α} (h : xs.Nodup) (n : Nat) : (step^[n] xs).Perm xs := by
  induction n with
  | zero => exact .refl _
  | succ n ih =>
      rw [Function.iterate_succ_apply']
      exact (step_perm (ih.nodup_iff.mpr h)).trans ih

/-- From the first permutation on the number of steps is the rank. -/
theorem rank_iterate {xs : List α} (h : xs.Pairwise (· < ·)) {n : Nat} (hn : n < xs.length !) :
    rank (step^[n] xs) = n := by
  have hnodup : xs.Nodup := h.imp fun hlt => hlt.ne
  induction n with
  | zero => exact rank_ascending h
  | succ n ih =>
      have hperm := iterate_perm hnodup n
      have hrank := ih (by omega)
      have hlast : rank (step^[n] xs) + 1 < (step^[n] xs).length ! := by
        rw [hrank, hperm.length_eq]
        exact hn
      rw [Function.iterate_succ_apply', rank_step (hperm.nodup_iff.mpr hnodup) hlast, hrank]

/-- Fewer than `n!` steps do not come back to a permutation. -/
theorem iterate_inj {xs : List α} (h : xs.Pairwise (· < ·)) {m n : Nat} (hm : m < xs.length !)
    (hn : n < xs.length !) (heq : step^[m] xs = step^[n] xs) : m = n := by
  rw [← rank_iterate h hm, ← rank_iterate h hn, heq]

end

example : nextPermutation [1, 3, 2] = ([2, 1, 3], true) := by decide

end Permute
