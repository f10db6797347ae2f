import Mathlib.Algebra.BigOperators.Group.Finset.Basic
import Mathlib.Algebra.BigOperators.Ring.Finset
import Mathlib.Data.List.GetD
import Mathlib.Tactic.Ring

/-!
# Rolling hashes

`poly` reads symbols as digits of a base, the last one the lowest.  A window of
symbols moves on by taking out its first symbol and shifting in the next
(`poly_roll`), and `poly_eq_sum` is the sum that is meant.

While a window is filled for the first time its hash is that of the symbols with
zeros behind them.  `windowPoly` covers both: it is the hash of the last `W` symbols of a
sequence, filled up with zeros.
-/

namespace Rolling

variable {R : Type*} [CommRing R]

/-- The symbols as digits. -/
def poly (base : R) (xs : List R) : R := xs.foldl (fun h x => h * base + x) 0

@[simp] theorem poly_nil (base : R) : poly base [] = 0 := rfl

@[simp] theorem poly_snoc (base : R) (xs : List R) (x : R) :
    poly base (xs ++ [x]) = poly base xs * base + x := by
  simp [poly]

theorem poly_cons (base : R) (x : R) (xs : List R) :
    poly base (x :: xs) = x * base ^ xs.length + poly base xs := by
  induction xs using List.reverseRecOn with
  | nil => simp [poly]
  | append_singleton xs y ih =>
      rw [← List.cons_append, poly_snoc, ih, poly_snoc, List.length_append, List.length_singleton,
        pow_succ]
      ring

/-- A window moves on by a symbol. -/
theorem poly_roll (base : R) (x y : R) (xs : List R) :
    (poly base (x :: xs) - x * base ^ xs.length) * base + y = poly base (xs ++ [y]) := by
  rw [poly_cons, poly_snoc]
  ring

/-- The symbols are weighed from the last one on. -/
theorem poly_eq_sum (base : R) (xs : List R) :
    poly base xs = ∑ k ∈ Finset.range xs.length, xs.reverse.getD k 0 * base ^ k := by
  induction xs using List.reverseRecOn with
  | nil => rfl
  | append_singleton xs y ih =>
      rw [poly_snoc, ih, List.length_append, List.length_singleton, Finset.sum_range_succ',
        List.reverse_concat, Finset.sum_mul]
      congr 1
      · refine Finset.sum_congr rfl fun k _ => ?_
        rw [List.getD_cons_succ, pow_succ, mul_assoc]
      · simp

/-! ## Windows -/

/-- The hash of the last `W` symbols, and of all of them with zeros behind them when
they are fewer. -/
def windowPoly (base : R) (W : Nat) (xs : List R) : R :=
  poly base (xs.drop (xs.length - W)) * base ^ (W - xs.length)

@[simp] theorem windowPoly_nil (base : R) (W : Nat) : windowPoly base W [] = 0 := by
  simp [windowPoly]

/-- What is in front of a full window does not count. -/
theorem windowPoly_append (base : R) {W : Nat} (xs : List R) {ys : List R} (h : W ≤ ys.length) :
    windowPoly base W (xs ++ ys) = windowPoly base W ys := by
  have hle : W ≤ xs.length + ys.length := h.trans (Nat.le_add_left ..)
  have hdrop : (xs ++ ys).drop (xs.length + ys.length - W) = ys.drop (ys.length - W) := by
    rw [Nat.add_sub_assoc h, List.drop_length_add_append]
  rw [windowPoly, windowPoly, List.length_append, hdrop, Nat.sub_eq_zero_of_le h,
    Nat.sub_eq_zero_of_le hle]

/-- A symbol goes to its place in a window that is not full. -/
theorem windowPoly_fill (base : R) {W : Nat} {xs : List R} (h : xs.length < W) (x : R) :
    windowPoly base W (xs ++ [x]) =
      windowPoly base W xs + x * base ^ (W - xs.length - 1) := by
  obtain ⟨n, rfl⟩ := Nat.exists_eq_add_of_lt h
  have hlen : (xs ++ [x]).length = xs.length + 1 := List.length_append
  have hnow : xs.length - (xs.length + n + 1) = 0 := by omega
  have hnext : xs.length + 1 - (xs.length + n + 1) = 0 := by omega
  have hleft : xs.length + n + 1 - (xs.length + 1) = n := by omega
  have hleft' : xs.length + n + 1 - xs.length = n + 1 := by omega
  rw [windowPoly, windowPoly, hlen, hnow, hnext, List.drop_zero, List.drop_zero, poly_snoc, hleft,
    hleft', Nat.add_sub_cancel, pow_succ]
  ring

/-- A full window moves on. -/
theorem windowPoly_slide (base : R) {W : Nat} {xs : List R} (hW : 0 < W) (h : W ≤ xs.length)
    (x : R) :
    windowPoly base W (xs ++ [x]) =
      (windowPoly base W xs - xs.getD (xs.length - W) 0 * base ^ (W - 1)) * base + x := by
  have hlen : (xs ++ [x]).length = xs.length + 1 := List.length_append
  have hlt : xs.length - W < xs.length := by omega
  have hnext : xs.length + 1 - W = xs.length - W + 1 := by omega
  have hwindow : xs.drop (xs.length - W) =
      xs.getD (xs.length - W) 0 :: xs.drop (xs.length - W + 1) := by
    rw [List.drop_eq_getElem_cons hlt, List.getD_eq_getElem _ _ hlt]
  have hrest : (xs.drop (xs.length - W + 1)).length = W - 1 := by
    rw [List.length_drop]
    omega
  have hroll := poly_roll base (xs.getD (xs.length - W) 0) x (xs.drop (xs.length - W + 1))
  rw [hrest, ← hwindow] at hroll
  rw [windowPoly, windowPoly, hlen, hnext, List.drop_append_of_le_length hlt, ← hroll,
    Nat.sub_eq_zero_of_le h, Nat.sub_eq_zero_of_le (h.trans (Nat.le_succ _)), pow_zero, mul_one,
    mul_one]

/-- Of a full window the last `W` symbols count. -/
theorem windowPoly_full (base : R) {W : Nat} {xs : List R} (h : W ≤ xs.length) :
    windowPoly base W xs =
      ∑ k ∈ Finset.range W, xs.getD (xs.length - 1 - k) 0 * base ^ k := by
  have hlen : (xs.drop (xs.length - W)).length = W := by
    rw [List.length_drop]
    omega
  rw [windowPoly, Nat.sub_eq_zero_of_le h, pow_zero, mul_one, poly_eq_sum, hlen]
  refine Finset.sum_congr rfl fun k hk => ?_
  have hlt : k < W := Finset.mem_range.mp hk
  have hrev : (xs.drop (xs.length - W)).reverse.getD k 0 = xs.getD (xs.length - 1 - k) 0 := by
    rw [List.getD_eq_getElem?_getD, List.getElem?_reverse (by omega), hlen, List.getElem?_drop,
      List.getD_eq_getElem?_getD]
    congr 2
    omega
  rw [hrev]

end Rolling
