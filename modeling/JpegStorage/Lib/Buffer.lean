import Mathlib.Logic.Function.Basic

/-!
# Buffers

A buffer is a function from positions to elements.  `write` copies a list into
it and `read` copies one out.  Writing behind what was read adds to it
(`read_write_append`), and a part of what can be read is read at its own position
(`read_slice`).
-/

namespace Buffer

section
variable {α : Type}

/-- `n` elements from a position on. -/
def read (m : Nat → α) : Nat → Nat → List α
  | _, 0 => []
  | off, n + 1 => m off :: read m (off + 1) n

/-- Elements copied to a position. -/
def write (m : Nat → α) : Nat → List α → Nat → α
  | _, [] => m
  | off, x :: xs => Function.update (write m (off + 1) xs) off x

@[simp] theorem length_read (m : Nat → α) (off n : Nat) : (read m off n).length = n := by
  induction n generalizing off with
  | zero => rfl
  | succ n ih => rw [read, List.length_cons, ih]

theorem read_congr {m m' : Nat → α} {off n : Nat}
    (h : ∀ p, off ≤ p → p < off + n → m p = m' p) : read m off n = read m' off n := by
  induction n generalizing off with
  | zero => rfl
  | succ n ih =>
      rw [read, read, h off (Nat.le_refl _) (by omega), ih fun p h1 h2 => h p (by omega) (by omega)]

theorem read_add (m : Nat → α) (off n k : Nat) :
    read m off (n + k) = read m off n ++ read m (off + n) k := by
  induction n generalizing off with
  | zero => rw [Nat.zero_add, read, List.nil_append, Nat.add_zero]
  | succ n ih =>
      rw [Nat.add_right_comm, read, ih, read, List.cons_append, Nat.add_right_comm off 1 n,
        Nat.add_assoc off n 1]

/-- A part of what is read. -/
theorem read_slice (m : Nat → α) {off i n k : Nat} (h : i + n ≤ k) :
    ((read m off k).drop i).take n = read m (off + i) n := by
  obtain ⟨rest, rfl⟩ := Nat.exists_eq_add_of_le h
  rw [read_add, read_add, List.append_assoc, List.drop_left' (length_read ..),
    List.take_left' (length_read ..)]

/-- A list that is found element by element. -/
theorem read_eq {m : Nat → α} {off : Nat} {xs : List α}
    (h : ∀ (k : Nat) (x : α), xs[k]? = some x → m (off + k) = x) : read m off xs.length = xs := by
  induction xs generalizing off with
  | nil => rfl
  | cons x xs ih =>
      have hrest : ∀ (k : Nat) (y : α), xs[k]? = some y → m (off + 1 + k) = y := by
        intro k y hy
        rw [Nat.add_assoc, Nat.add_comm 1 k]
        exact h (k + 1) y hy
      have hfirst : m off = x := h 0 x rfl
      rw [List.length_cons, read, ih hrest, hfirst]

theorem write_below (m : Nat → α) {off p : Nat} (xs : List α) (h : p < off) :
    write m off xs p = m p := by
  induction xs generalizing off with
  | nil => rfl
  | cons x xs ih => rw [write, Function.update_of_ne (by omega), ih (by omega)]

/-- What is written is read back. -/
theorem read_write (m : Nat → α) (off : Nat) (xs : List α) :
    read (write m off xs) off xs.length = xs := by
  induction xs generalizing off with
  | nil => rfl
  | cons x xs ih =>
      have hrest : read (write m off (x :: xs)) (off + 1) xs.length =
          read (write m (off + 1) xs) (off + 1) xs.length := by
        refine read_congr fun p hp _ => ?_
        rw [write, Function.update_of_ne (by omega)]
      rw [List.length_cons, read, hrest, ih, write, Function.update_self]

/-- What is in front of a write stays. -/
theorem read_write_below (m : Nat → α) {off i n : Nat} (xs : List α) (h : i + n ≤ off) :
    read (write m off xs) i n = read m i n :=
  read_congr fun _ _ hp => write_below m xs (by omega)

/-- Writing behind what was read adds to it. -/
theorem read_write_append (m : Nat → α) (off n : Nat) (xs : List α) :
    read (write m (off + n) xs) off (n + xs.length) = read m off n ++ xs := by
  rw [read_add, read_write_below m xs (Nat.le_refl _), read_write]

/-- Writing what is there already changes nothing. -/
theorem read_write_same {m : Nat → α} {off : Nat} {xs ys : List α}
    (hread : read m off ys.length = ys) (hsame : ys.take xs.length <+: xs) :
    read (write m off xs) off ys.length = ys := by
  induction ys generalizing off xs with
  | nil => rfl
  | cons y ys ih =>
      cases xs with
      | nil => exact hread
      | cons x xs =>
          rw [List.length_cons, List.take_succ_cons, List.cons_prefix_cons] at hsame
          obtain ⟨rfl, hsame⟩ := hsame
          rw [List.length_cons, read, List.cons.injEq] at hread
          have hrest : read (write m off (y :: xs)) (off + 1) ys.length =
              read (write m (off + 1) xs) (off + 1) ys.length := by
            refine read_congr fun p hp _ => ?_
            rw [write, Function.update_of_ne (by omega)]
          rw [List.length_cons, read, hrest, ih hread.2 hsame, write, Function.update_self]

/-! ## Parts of a list -/

/-- A list is in another one at a position. -/
def Slice (xs : List α) (off : Nat) (ys : List α) : Prop :=
  off + ys.length ≤ xs.length ∧ (xs.drop off).take ys.length = ys

/-- A list that is cut off behind a part of it. -/
theorem Slice.cut {xs zs ys : List α} {off : Nat} (h : Slice xs off ys) (hpre : zs <+: xs)
    (hle : off + ys.length ≤ zs.length) : Slice zs off ys := by
  obtain ⟨rest, rfl⟩ := hpre
  have hlen : ys.length ≤ (zs.drop off).length := by
    rw [List.length_drop]
    omega
  refine ⟨hle, ?_⟩
  rw [← h.2, List.drop_append_of_le_length (by omega), List.take_append_of_le_length hlen,
    List.length_take, List.length_drop, Nat.min_eq_left (by omega)]

theorem slice_read {m : Nat → α} {n off : Nat} {ys : List α} :
    Slice (read m 0 n) off ys ↔ off + ys.length ≤ n ∧ read m off ys.length = ys := by
  rw [Slice, length_read]
  refine and_congr_right fun hle => ?_
  rw [read_slice m hle, Nat.zero_add]

end

end Buffer
