import Mathlib.Algebra.BigOperators.Fin
import Mathlib.Algebra.Order.BigOperators.Group.Finset
import Mathlib.Algebra.Order.Rearrangement
import Mathlib.Algebra.Order.Ring.Nat
import Mathlib.Data.Fin.Tuple.Sort
import Mathlib.Data.List.GetD

/-!
# Cheapest assignments

Each of some weights is given one of a sorted list of sizes, and no two the same.  The sum of
the weights times their sizes is least when the heaviest has the first size, the next one the
second, and so on (`sum_mul_le`).
-/

namespace Assignment

/-! ## Weights by number -/

section
variable {n m : ℕ} {weight : Fin n → ℕ} {size : ℕ → ℕ} {place : Fin n → ℕ}

/-- Increasing places are not in front of the first ones. -/
theorem le_of_strictMono {f : Fin n → ℕ} (hf : StrictMono f) (i : Fin n) : (i : ℕ) ≤ f i := by
  obtain ⟨i, hi⟩ := i
  induction i with
  | zero => exact Nat.zero_le _
  | succ i ih => exact (ih (Nat.lt_of_succ_lt hi)).trans_lt (hf (Fin.mk_lt_mk.mpr i.lt_succ_self))

/-- Places that are not the same are increasing ones in some order. -/
theorem exists_sorted (hplace : Function.Injective place) :
    ∃ (f : Fin n → ℕ) (σ : Equiv.Perm (Fin n)), StrictMono f ∧ ∀ i, place i = f (σ i) := by
  refine ⟨place ∘ Tuple.sort place, (Tuple.sort place).symm, ?_, fun i => ?_⟩
  · exact (Tuple.monotone_sort place).strictMono_of_injective
      (hplace.comp (Tuple.sort place).injective)
  · rw [Function.comp_apply, Equiv.apply_symm_apply]

theorem sum_mul_le_of_antitone (hweight : Antitone weight) (hsize : MonotoneOn size (Set.Iio m))
    (hplace : Function.Injective place) (hlt : ∀ i, place i < m) :
    ∑ i : Fin n, weight i * size i ≤ ∑ i, weight i * size (place i) := by
  obtain ⟨f, σ, hf, hsorted⟩ := exists_sorted hplace
  have hbound : ∀ i, f i < m := by
    intro i
    have hi := hlt (σ.symm i)
    rwa [hsorted, Equiv.apply_symm_apply] at hi
  have hmono : Monotone fun i => size (f i) := fun i j hij =>
    hsize (hbound i) (hbound j) (hf.monotone hij)
  calc ∑ i : Fin n, weight i * size i
      ≤ ∑ i, weight i * size (f i) := by
        refine Finset.sum_le_sum fun i _ => Nat.mul_le_mul_left _ ?_
        have hle := le_of_strictMono hf i
        exact hsize (hle.trans_lt (hbound i)) (hbound i) hle
    _ ≤ ∑ i, weight i * size (f (σ i)) :=
        (hweight.antivary hmono).sum_mul_le_sum_mul_comp_perm
    _ = ∑ i, weight i * size (place i) := by
        refine Finset.sum_congr rfl fun i _ => ?_
        rw [hsorted]

end

/-! ## Weights in a list -/

variable {α : Type} [DecidableEq α] {weight : α → ℕ} {sizes : List ℕ} {place : α → ℕ} {l : List α}

/-- The elements of a list that is sorted by weight take the sizes as they come. -/
theorem sum_mul_le (hnodup : l.Nodup) (hweight : l.Pairwise fun a b => weight b ≤ weight a)
    (hsizes : sizes.Pairwise (· ≤ ·)) (hplace : Set.InjOn place {a | a ∈ l})
    (hlt : ∀ a ∈ l, place a < sizes.length) :
    (l.map fun a => weight a * sizes.getD (l.idxOf a) 0).sum ≤
      (l.map fun a => weight a * sizes.getD (place a) 0).sum := by
  have hanti : Antitone fun i : Fin l.length => weight l[i] := by
    intro i j hij
    rcases hij.lt_or_eq with hlt | rfl
    · exact List.pairwise_iff_getElem.mp hweight i j i.2 j.2 hlt
    · exact Nat.le_refl _
  have hmono : MonotoneOn (fun i => sizes.getD i 0) (Set.Iio sizes.length) := by
    intro i hi j hj hij
    dsimp only
    rw [List.getD_eq_getElem _ _ hi, List.getD_eq_getElem _ _ hj]
    rcases hij.lt_or_eq with hlt | rfl
    · exact List.pairwise_iff_getElem.mp hsizes i j hi hj hlt
    · exact Nat.le_refl _
  have hinj : Function.Injective fun i : Fin l.length => place l[i] := by
    intro i j hij
    have heq := hplace (List.getElem_mem i.2) (List.getElem_mem j.2) hij
    exact Fin.ext ((List.Nodup.getElem_inj_iff hnodup).mp heq)
  have hle := sum_mul_le_of_antitone hanti hmono hinj fun i => hlt _ (List.getElem_mem i.2)
  rw [← Fin.sum_univ_fun_getElem, ← Fin.sum_univ_fun_getElem]
  refine le_of_eq_of_le (Finset.sum_congr rfl fun i _ => ?_) hle
  rw [hnodup.idxOf_getElem i i.2]
  rfl

end Assignment
