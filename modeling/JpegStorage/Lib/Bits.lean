import Mathlib.Tactic.Ring
import Mathlib.Tactic.Linarith

/-!
# Bit strings

A bit string is a `List Bool`, most significant bit first.  `ofNat w n` spells
the `w` low bits of `n` and `toNat` reads a string back.  The two are inverse
on strings of one length (`ofNat_toNat`, `toNat_ofNat`), and both send
concatenation to shift and add (`toNat_append`, `ofNat_add`).

The second half relates the word operations a bit reader or bit writer uses to
the strings: a right shift keeps the first bits, a mask keeps the last ones,
and shift and or append.  The last section spells the bytes of a file.
-/

namespace Bits

/-! ## Numbers and strings -/

/-- The `w` low bits of `n`, most significant first. -/
def ofNat : Nat → Nat → List Bool
  | 0, _ => []
  | w + 1, n => ofNat w (n / 2) ++ [n % 2 == 1]

/-- The number a string spells. -/
def toNat : List Bool → Nat
  | [] => 0
  | b :: bs => b.toNat * 2 ^ bs.length + toNat bs

@[simp] theorem ofNat_zero (n : Nat) : ofNat 0 n = [] := rfl

@[simp] theorem toNat_nil : toNat [] = 0 := rfl

@[simp] theorem length_ofNat : ∀ (w n : Nat), (ofNat w n).length = w
  | 0, _ => rfl
  | w + 1, n => by rw [ofNat, List.length_append, length_ofNat w]; rfl

theorem toNat_append : ∀ xs ys : List Bool, toNat (xs ++ ys) = toNat xs * 2 ^ ys.length + toNat ys
  | [], ys => by simp
  | x :: xs, ys => by
      rw [List.cons_append, toNat, toNat, toNat_append xs ys, List.length_append, pow_add]
      ring

theorem toNat_lt : ∀ xs : List Bool, toNat xs < 2 ^ xs.length
  | [] => by simp
  | x :: xs => by
      have ih := toNat_lt xs
      rw [toNat, List.length_cons, pow_succ]
      cases x <;> simp <;> omega

theorem toNat_ofNat : ∀ (w n : Nat), toNat (ofNat w n) = n % 2 ^ w
  | 0, n => by simp [Nat.mod_one]
  | w + 1, n => by
      rw [ofNat, toNat_append, toNat_ofNat w (n / 2)]
      have hsplit : n % 2 ^ (w + 1) = n / 2 % 2 ^ w * 2 + n % 2 := by
        rw [pow_succ, Nat.mul_comm (2 ^ w) 2, Nat.mod_mul]
        ring
      rw [hsplit]
      rcases Nat.mod_two_eq_zero_or_one n with h | h <;> simp [h, toNat]

theorem toNat_ofNat_of_lt {w n : Nat} (h : n < 2 ^ w) : toNat (ofNat w n) = n := by
  rw [toNat_ofNat, Nat.mod_eq_of_lt h]

/-- Strings of one length that spell one number are equal. -/
theorem eq_of_toNat : ∀ {xs ys : List Bool}, xs.length = ys.length → toNat xs = toNat ys → xs = ys
  | [], [], _, _ => rfl
  | [], _ :: _, h, _ => by simp at h
  | _ :: _, [], h, _ => by simp at h
  | x :: xs, y :: ys, hlen, h => by
      have hlen' : xs.length = ys.length := by simpa using hlen
      have hx := toNat_lt xs
      have hy := toNat_lt ys
      rw [toNat, toNat, hlen'] at h
      rw [hlen'] at hx
      cases x <;> cases y <;> simp at h
      · rw [eq_of_toNat hlen' h]
      · omega
      · omega
      · rw [eq_of_toNat hlen' h]

theorem ofNat_toNat (xs : List Bool) : ofNat xs.length (toNat xs) = xs :=
  eq_of_toNat (length_ofNat _ _) (toNat_ofNat_of_lt (toNat_lt xs))

/-- Only the low `w` bits of the number are spelt. -/
theorem ofNat_mod (w n : Nat) : ofNat w (n % 2 ^ w) = ofNat w n :=
  eq_of_toNat (by simp) (by rw [toNat_ofNat, toNat_ofNat, Nat.mod_mod])

theorem ofNat_injective {w m n : Nat} (hm : m < 2 ^ w) (hn : n < 2 ^ w)
    (h : ofNat w m = ofNat w n) : m = n := by
  rw [← toNat_ofNat_of_lt hm, ← toNat_ofNat_of_lt hn, h]

/-- The first `v` of `v + w` bits are the quotient, the other `w` the rest. -/
theorem ofNat_add (v w n : Nat) : ofNat (v + w) n = ofNat v (n / 2 ^ w) ++ ofNat w n := by
  refine eq_of_toNat (by simp) ?_
  rw [toNat_append, toNat_ofNat, toNat_ofNat, toNat_ofNat, length_ofNat, pow_add,
    Nat.mul_comm (2 ^ v) (2 ^ w), Nat.mod_mul]
  ring

theorem ofNat_append (xs ys : List Bool) {v w n : Nat} (hv : xs.length = v) (hw : ys.length = w)
    (hn : n = toNat xs * 2 ^ w + toNat ys) : ofNat (v + w) n = xs ++ ys := by
  subst hv hw hn
  rw [← toNat_append, ← List.length_append, ofNat_toNat]

/-! ## Shift, mask and or -/

/-- A right shift by all but `k` bits reads the first `k` bits. -/
theorem toNat_take (xs : List Bool) (k : Nat) :
    toNat (xs.take k) = toNat xs / 2 ^ (xs.length - k) := by
  have hsplit := toNat_append (xs.take k) (xs.drop k)
  have hlt := toNat_lt (xs.drop k)
  rw [List.take_append_drop, List.length_drop] at hsplit
  rw [List.length_drop] at hlt
  rw [hsplit, Nat.mul_comm, Nat.mul_add_div (by positivity), Nat.div_eq_of_lt hlt, Nat.add_zero]

theorem ofNat_take {w n k : Nat} (h : k ≤ w) : (ofNat w n).take k = ofNat k (n / 2 ^ (w - k)) := by
  have hsplit := ofNat_add k (w - k) n
  rw [Nat.add_sub_cancel' h] at hsplit
  rw [hsplit, List.take_append_of_le_length (by simp), List.take_of_length_le (by simp)]

theorem ofNat_drop {w n k : Nat} (h : k ≤ w) : (ofNat w n).drop k = ofNat (w - k) n := by
  have hsplit := ofNat_add k (w - k) n
  rw [Nat.add_sub_cancel' h] at hsplit
  rw [hsplit, List.drop_append_of_le_length (by simp), List.drop_eq_nil_of_le (by simp),
    List.nil_append]

/-- A left shift leaves room for a number below the power: or is then sum. -/
theorem shiftLeft_or {a b k : Nat} (h : b < 2 ^ k) : a <<< k ||| b = a * 2 ^ k + b := by
  rw [Nat.shiftLeft_eq, Nat.mul_comm, ← Nat.two_pow_add_eq_or_of_lt h]

/-- Complementing every bit subtracts from the all-ones word. -/
theorem toNat_map_not : ∀ xs : List Bool, toNat (xs.map not) = 2 ^ xs.length - 1 - toNat xs
  | [] => rfl
  | x :: xs => by
      have ih := toNat_map_not xs
      have hlt := toNat_lt xs
      rw [List.map_cons, toNat, toNat, ih, List.length_map, List.length_cons, pow_succ]
      cases x <;> simp <;> omega

/-- A string of ones spells the largest number of its length. -/
theorem toNat_replicate_true : ∀ n : Nat, toNat (List.replicate n true) = 2 ^ n - 1
  | 0 => rfl
  | n + 1 => by
      have hpos : 0 < 2 ^ n := by positivity
      rw [List.replicate_succ, toNat, toNat_replicate_true n, List.length_replicate, pow_succ]
      simp
      omega

/-! ## Bytes -/

/-- The eight bits of a byte. -/
def ofByte (b : UInt8) : List Bool := ofNat 8 b.toNat

/-- The bits of a byte string. -/
def ofBytes (bs : List UInt8) : List Bool := bs.flatMap ofByte

@[simp] theorem length_ofByte (b : UInt8) : (ofByte b).length = 8 := length_ofNat _ _

@[simp] theorem toNat_ofByte (b : UInt8) : toNat (ofByte b) = b.toNat :=
  toNat_ofNat_of_lt b.toNat_lt

@[simp] theorem ofBytes_nil : ofBytes [] = [] := rfl

@[simp] theorem ofBytes_cons (b : UInt8) (bs : List UInt8) :
    ofBytes (b :: bs) = ofByte b ++ ofBytes bs := rfl

@[simp] theorem ofBytes_append (xs ys : List UInt8) :
    ofBytes (xs ++ ys) = ofBytes xs ++ ofBytes ys := List.flatMap_append

@[simp] theorem length_ofBytes : ∀ bs : List UInt8, (ofBytes bs).length = 8 * bs.length
  | [] => rfl
  | b :: bs => by
      rw [ofBytes_cons, List.length_append, length_ofByte, length_ofBytes bs, List.length_cons]
      omega

theorem ofBytes_injective {xs ys : List UInt8} (h : ofBytes xs = ofBytes ys) : xs = ys := by
  induction xs generalizing ys with
  | nil =>
      have hlen := congrArg List.length h
      rw [length_ofBytes, length_ofBytes, List.length_nil] at hlen
      exact (List.eq_nil_of_length_eq_zero (by omega)).symm
  | cons x xs ih =>
      cases ys with
      | nil =>
          have hlen := congrArg List.length h
          rw [length_ofBytes, length_ofBytes, List.length_cons, List.length_nil] at hlen
          omega
      | cons y ys =>
          obtain ⟨hbyte, hbytes⟩ := List.append_inj h (by rw [length_ofByte, length_ofByte])
          have hxy : x = y := by
            rw [← UInt8.toNat_inj, ← toNat_ofByte x, hbyte, toNat_ofByte]
          rw [hxy, ih hbytes]

theorem ofBytes_take (n : Nat) (bs : List UInt8) :
    (ofBytes bs).take (8 * n) = ofBytes (bs.take n) := by
  induction n generalizing bs with
  | zero => rfl
  | succ n ih =>
      cases bs with
      | nil => rfl
      | cons b bs =>
          have hlen : 8 * (n + 1) = (ofByte b).length + 8 * n := by
            rw [length_ofByte]
            omega
          rw [List.take_succ_cons, ofBytes_cons, ofBytes_cons, hlen, List.take_length_add_append, ih]

/-- The byte whose bits are `xs`, for a string of eight bits. -/
def toByte (xs : List Bool) : UInt8 := UInt8.ofNat (toNat xs)

end Bits
