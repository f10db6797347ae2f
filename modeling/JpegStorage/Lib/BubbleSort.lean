import Mathlib.Data.List.Basic
import Mathlib.Order.Lattice

/-!
# Bubble sort

A pass compares neighbours and swaps them when the second has the larger key, so that the
smallest key among those compared comes last (`pass_last`).  Passes that get shorter by
one each time leave the list in descending order of the keys (`sort_sorted`).
-/

namespace BubbleSort

section
variable {α κ : Type} [LinearOrder κ] (key : α → κ)

/-- The first `n` comparisons of neighbours. -/
def pass : Nat → List α → List α
  | n + 1, a :: b :: l => if key a < key b then b :: pass n (a :: l) else a :: pass n (b :: l)
  | _, l => l

/-- As many passes as there are elements. -/
def sort (l : List α) : List α :=
  (List.range l.length).foldl (fun acc i => pass key (l.length - i - 1) acc) l

variable {key}

theorem pass_zero (l : List α) : pass key 0 l = l := by
  cases l <;> rfl

theorem pass_swap {a b : α} (h : key a < key b) (n : Nat) (l : List α) :
    pass key (n + 1) (a :: b :: l) = b :: pass key n (a :: l) := if_pos h

theorem pass_keep {a b : α} (h : ¬ key a < key b) (n : Nat) (l : List α) :
    pass key (n + 1) (a :: b :: l) = a :: pass key n (b :: l) := if_neg h

theorem pass_perm (n : Nat) (l : List α) : (pass key n l).Perm l := by
  induction n generalizing l with
  | zero => rw [pass_zero]
  | succ n ih =>
      rcases l with _ | ⟨a, _ | ⟨b, l⟩⟩
      · exact .refl _
      · exact .refl _
      · by_cases h : key a < key b
        · rw [pass_swap h]
          exact ((ih (a :: l)).cons b).trans (.swap ..)
        · rw [pass_keep h]
          exact (ih (b :: l)).cons a

/-- What is behind the comparisons stays. -/
theorem pass_append {n : Nat} {a : α} {l : List α} (h : l.length = n) (back : List α) :
    pass key n (a :: (l ++ back)) = pass key n (a :: l) ++ back := by
  induction n generalizing a l with
  | zero =>
      rw [List.length_eq_zero_iff.mp h, pass_zero, pass_zero]
      rfl
  | succ n ih =>
      cases l with
      | nil => cases h
      | cons b l =>
          have hlen : l.length = n := Nat.succ.inj h
          rw [List.cons_append]
          by_cases hlt : key a < key b
          · rw [pass_swap hlt, pass_swap hlt, ih hlen, List.cons_append]
          · rw [pass_keep hlt, pass_keep hlt, ih hlen, List.cons_append]

/-- The smallest key comes last. -/
theorem pass_last {n : Nat} {a : α} {l : List α} (h : l.length = n) :
    ∃ init m, pass key n (a :: l) = init ++ [m] ∧ ∀ x ∈ a :: l, key m ≤ key x := by
  induction n generalizing a l with
  | zero =>
      rw [List.length_eq_zero_iff.mp h, pass_zero]
      exact ⟨[], a, rfl, by simp⟩
  | succ n ih =>
      cases l with
      | nil => cases h
      | cons b l =>
          have hlen : l.length = n := Nat.succ.inj h
          by_cases hlt : key a < key b
          · obtain ⟨init, m, hpass, hm⟩ := @ih a l hlen
            have hma := hm a (List.mem_cons_self ..)
            refine ⟨b :: init, m, by rw [pass_swap hlt, hpass, List.cons_append], fun x hx => ?_⟩
            rcases List.mem_cons.mp hx with rfl | hx
            · exact hma
            · rcases List.mem_cons.mp hx with rfl | hx
              · exact hma.trans hlt.le
              · exact hm x (List.mem_cons_of_mem _ hx)
          · obtain ⟨init, m, hpass, hm⟩ := @ih b l hlen
            refine ⟨a :: init, m, by rw [pass_keep hlt, hpass, List.cons_append], fun x hx => ?_⟩
            rcases List.mem_cons.mp hx with rfl | hx
            · exact (hm b (List.mem_cons_self ..)).trans (not_lt.mp hlt)
            · exact hm x hx

/-- After `i` passes the last `i` elements are in their places. -/
theorem passes_sorted {l : List α} {i : Nat} (h : i ≤ l.length) :
    ∃ front back,
      (List.range i).foldl (fun acc i => pass key (l.length - i - 1) acc) l = front ++ back ∧
        front.length = l.length - i ∧ back.Pairwise (fun x y => key y ≤ key x) ∧
          ∀ x ∈ front, ∀ y ∈ back, key y ≤ key x := by
  induction i with
  | zero => exact ⟨l, [], by simp, rfl, .nil, by simp⟩
  | succ i ih =>
      obtain ⟨front, back, hfold, hlen, hsorted, hle⟩ := ih (Nat.le_of_succ_le h)
      cases front with
      | nil =>
          rw [List.length_nil] at hlen
          omega
      | cons a front =>
          have hcount : front.length = l.length - i - 1 := by
            rw [List.length_cons] at hlen
            omega
          obtain ⟨init, m, hpass, hm⟩ := @pass_last _ _ _ key _ a _ hcount
          have hperm := @pass_perm _ _ _ key (l.length - i - 1) (a :: front)
          rw [hpass] at hperm
          refine ⟨init, m :: back, ?_, ?_, ?_, ?_⟩
          · rw [List.range_succ, List.foldl_append, hfold]
            change pass key _ (a :: (front ++ back)) = _
            rw [pass_append hcount, hpass, List.append_assoc]
            rfl
          · have htotal := hperm.length_eq
            rw [List.length_append, List.length_singleton, List.length_cons, hcount] at htotal
            omega
          · refine List.pairwise_cons.mpr ⟨fun y hy => ?_, hsorted⟩
            exact hle m (hperm.mem_iff.mp (by simp)) y hy
          · intro x hx y hy
            have hfront : x ∈ a :: front := hperm.mem_iff.mp (List.mem_append_left _ hx)
            rcases List.mem_cons.mp hy with rfl | hy
            · exact hm x hfront
            · exact hle x hfront y hy

theorem sort_sorted (l : List α) : (sort key l).Pairwise fun x y => key y ≤ key x := by
  obtain ⟨front, back, hsort, hlen, hsorted, _⟩ := @passes_sorted _ _ _ key l _ (Nat.le_refl _)
  rw [Nat.sub_self] at hlen
  rw [sort, hsort, List.length_eq_zero_iff.mp hlen]
  exact hsorted

theorem foldl_perm {step : List α → Nat → List α} (h : ∀ l i, (step l i).Perm l) (is : List Nat)
    (l : List α) : (is.foldl step l).Perm l := by
  induction is generalizing l with
  | nil => exact .refl _
  | cons i is ih => exact (ih _).trans (h l i)

theorem sort_perm (l : List α) : (sort key l).Perm l :=
  foldl_perm (fun l _ => pass_perm _ l) _ l

end

end BubbleSort
