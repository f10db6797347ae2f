import Mathlib.Algebra.Group.Nat.Defs
import Mathlib.Data.List.Basic

/-!
# Binary records

`encode` is a number in a given count of bytes, the lowest byte first, and decoding
gives it back when it fits (`decode_encode`).  Records of one size are found in a
sequence by counting (`drop_records`).
-/

namespace Records

/-- The lowest `n` bytes of a number. -/
def encode : Nat → Nat → List UInt8
  | 0, _ => []
  | n + 1, v => UInt8.ofNat v :: encode n (v / 256)

/-- The number in the first `n` bytes. -/
def decode : Nat → List UInt8 → Nat
  | 0, _ => 0
  | _ + 1, [] => 0
  | n + 1, b :: bytes => b.toNat + 256 * decode n bytes

@[simp] theorem length_encode (n v : Nat) : (encode n v).length = n := by
  induction n generalizing v with
  | zero => rfl
  | succ n ih => rw [encode, List.length_cons, ih]

theorem decode_lt (n : Nat) (bytes : List UInt8) : decode n bytes < 256 ^ n := by
  induction n generalizing bytes with
  | zero => exact Nat.one_pos
  | succ n ih =>
      rw [Nat.pow_succ]
      cases bytes with
      | nil => exact Nat.mul_pos (Nat.pow_pos (by decide)) (by decide)
      | cons b bytes =>
          have hb := b.toNat_lt
          have hrest := ih bytes
          rw [decode]
          omega

theorem decode_encode {n v : Nat} (h : v < 256 ^ n) (rest : List UInt8) :
    decode n (encode n v ++ rest) = v := by
  induction n generalizing v with
  | zero => rw [Nat.lt_one_iff.mp h]; rfl
  | succ n ih =>
      have hrest : v / 256 < 256 ^ n := by
        rw [Nat.pow_succ] at h
        exact Nat.div_lt_of_lt_mul (by omega)
      rw [encode, List.cons_append, decode, ih hrest, UInt8.toNat_ofNat']
      omega

section
variable {α β : Type} {f : α → List β} {size : Nat}

/-- Records that are skipped. -/
theorem drop_records (hsize : ∀ x, (f x).length = size) {xs : List α} {n : Nat}
    (h : n ≤ xs.length) (rest : List β) :
    (xs.flatMap f ++ rest).drop (size * n) = (xs.drop n).flatMap f ++ rest := by
  induction n generalizing xs with
  | zero => rfl
  | succ n ih =>
      cases xs with
      | nil => exact absurd h (Nat.not_succ_le_zero n)
      | cons x xs =>
          rw [List.flatMap_cons, List.append_assoc, Nat.mul_succ, Nat.add_comm, ← List.drop_drop,
            List.drop_left' (hsize x), ih (Nat.le_of_succ_le_succ h), List.drop_succ_cons]

end

end Records
