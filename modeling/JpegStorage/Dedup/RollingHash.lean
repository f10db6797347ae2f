import JpegStorage.Dedup.Fingerprint
import JpegStorage.Lib.Rolling
import Mathlib.Data.ZMod.Basic

/-!
# The fingerprint is a polynomial of the window

`winFp` has 16 bits, the tables have 23, and the arithmetic has 32.  The masks are
powers of two, so modulo `2^16` every step is that of a rolling hash in base 257.
*Tables.*  `powerLUT` holds the powers of the base, and `removeLUT` the negatives that take
a byte out of the window.
*Window.*  From a fingerprint that starts at zero `winFp` is the hash of the last
`slidingWinSize` bytes of the chunk, filled up with zeros (`cuts_fingerprint`).
*Overflow.*  No product and no sum reaches `2^32` (`NoWrap`).
-/

namespace Dedup

open Rolling

namespace Chunker

/-! ## Modulo 2^16 -/

theorem natCast_mod {m : Nat} (h : 16 ≤ m) (n : Nat) :
    ((n % 2 ^ m : Nat) : ZMod (2 ^ 16)) = n :=
  (ZMod.natCast_eq_natCast_iff' _ _ _).mpr (Nat.mod_mod_of_dvd n (Nat.pow_dvd_pow 2 h))

theorem and_polyMOD (n : Nat) : n &&& polyMOD = n % 2 ^ 23 := by
  rw [polyMOD, Nat.and_two_pow_sub_one_eq_mod]

/-! ## The tables -/

theorem powerLUT_lt (i : Nat) : powerLUT i < 2 ^ 23 := by
  cases i with
  | zero => simp [powerLUT]
  | succ i =>
      rw [powerLUT, and_polyMOD]
      exact Nat.mod_lt _ (by simp)

theorem powerLUT_mul_lt (i : Nat) : powerLUT i * polyBase < 2 ^ 32 := by
  have hlt := powerLUT_lt i
  rw [polyBase]
  omega

theorem powerLUT_cast (i : Nat) : (powerLUT i : ZMod (2 ^ 16)) = 257 ^ i := by
  induction i with
  | zero => simp [powerLUT]
  | succ i ih =>
      rw [powerLUT, and_polyMOD, natCast_mod (by simp), u32, natCast_mod (by simp), Nat.cast_mul, ih,
        pow_succ]
      rfl

theorem byte_mul_powerLUT_lt (byte : UInt8) (i : Nat) : byte.toNat * powerLUT i < 2 ^ 31 := by
  have hmul := Nat.mul_le_mul (Nat.le_of_lt_succ byte.toNat_lt) (powerLUT_lt i).le
  omega

theorem removeLUT_lt (chunker : Chunker) (i : Nat) : chunker.removeLUT i < 2 ^ 23 := by
  rw [removeLUT, and_polyMOD, and_polyMOD]
  split
  · exact Nat.mod_lt _ (by simp)
  · simp

/-- Adding an entry takes a byte out of the window. -/
theorem removeLUT_cast (chunker : Chunker) (i : Nat) :
    (chunker.removeLUT i : ZMod (2 ^ 16)) = -(i * 257 ^ (chunker.slidingWinSize - 1)) := by
  have hlow : ((u32 (i * powerLUT (chunker.slidingWinSize - 1)) % 2 ^ 23 : Nat) : ZMod (2 ^ 16)) =
      i * 257 ^ (chunker.slidingWinSize - 1) := by
    rw [natCast_mod (by simp), u32, natCast_mod (by simp), Nat.cast_mul, powerLUT_cast]
  have hlt := Nat.mod_lt (u32 (i * powerLUT (chunker.slidingWinSize - 1))) (y := 2 ^ 23) (by simp)
  rw [removeLUT, and_polyMOD, and_polyMOD, ← hlow]
  generalize u32 (i * powerLUT (chunker.slidingWinSize - 1)) % 2 ^ 23 = n at hlt ⊢
  by_cases hzero : n = 0
  · simp [hzero]
  · have hsum : polyMOD - n + 1 + n = 2 ^ 23 := by
      rw [polyMOD]
      omega
    have hcast : ((polyMOD - n + 1 : Nat) : ZMod (2 ^ 16)) + n = 0 := by
      rw [← Nat.cast_add, hsum]
      rfl
    rw [if_pos hzero, natCast_mod (by simp), eq_neg_of_add_eq_zero_left hcast]

/-! ## The window -/

/-- The bytes modulo `2^16`. -/
def symbols (bytes : Bytes) : List (ZMod (2 ^ 16)) := bytes.map fun byte => (byte.toNat : ZMod (2 ^ 16))

@[simp] theorem length_symbols (bytes : Bytes) : (symbols bytes).length = bytes.length :=
  List.length_map _

@[simp] theorem symbols_snoc (bytes : Bytes) (byte : UInt8) :
    symbols (bytes ++ [byte]) = symbols bytes ++ [(byte.toNat : ZMod (2 ^ 16))] := by
  simp [symbols]

theorem getD_symbols (bytes : Bytes) (i : Nat) :
    (symbols bytes).getD i 0 = (bytes.getD i 0).toNat := by
  rw [symbols, List.getD_eq_getElem?_getD, List.getElem?_map, List.getD_eq_getElem?_getD]
  cases bytes[i]? <;> simp

/-- The fingerprint is the hash of the window. -/
def Fingerprint (chunker : Chunker) (cutter : Cutter) : Prop :=
  (cutter.winFp : ZMod (2 ^ 16)) =
    windowPoly 257 chunker.slidingWinSize (symbols cutter.chunkBuffer)

theorem roll_lt (chunker : Chunker) (byte : UInt8) (cutter : Cutter) :
    chunker.roll byte cutter < 2 ^ 16 := by
  rw [roll]
  split
  · rw [u16_polyMOD]
    exact Nat.mod_lt _ (by simp)
  · dsimp only
    rw [u16_polyMOD]
    exact Nat.mod_lt _ (by simp)

/-- A byte rolls the hash on. -/
theorem Fingerprint.roll {chunker : Chunker} {cutter : Cutter} (hwin : 1 ≤ chunker.slidingWinSize)
    (h : chunker.Fingerprint cutter) (byte : UInt8) :
    (chunker.roll byte cutter : ZMod (2 ^ 16)) =
      windowPoly 257 chunker.slidingWinSize (symbols (cutter.chunkBuffer ++ [byte])) := by
  rw [symbols_snoc, Chunker.roll]
  by_cases hfull : cutter.chunkBuffer.length < chunker.slidingWinSize
  · rw [if_pos hfull, u16_polyMOD, natCast_mod (Nat.le_refl 16),
      windowPoly_fill _ (by rwa [length_symbols]), ← h, length_symbols, Nat.cast_add, Nat.cast_mul,
      powerLUT_cast]
  · have hle : chunker.slidingWinSize ≤ cutter.chunkBuffer.length := Nat.le_of_not_lt hfull
    have hlt : cutter.chunkBuffer.length - chunker.slidingWinSize < cutter.chunkBuffer.length := by
      omega
    have hold : (cutter.chunkBuffer ++ [byte]).getD
        (cutter.chunkBuffer.length - chunker.slidingWinSize) 0 =
          cutter.chunkBuffer.getD (cutter.chunkBuffer.length - chunker.slidingWinSize) 0 := by
      rw [List.getD_eq_getElem?_getD, List.getElem?_append_left hlt, List.getD_eq_getElem?_getD]
    rw [if_neg hfull]
    dsimp only
    rw [hold, u16_polyMOD, natCast_mod (Nat.le_refl 16),
      windowPoly_slide _ hwin (by rwa [length_symbols]), ← h, length_symbols, getD_symbols,
      and_polyMOD, Nat.cast_add, Nat.cast_mul, Nat.cast_add, natCast_mod (by simp), removeLUT_cast,
      ← sub_eq_add_neg, polyBase]
    rfl

/-- A chunk that begins has an empty window. -/
theorem fingerprint_start (chunker : Chunker) : chunker.Fingerprint ⟨[], 0⟩ := by
  simp [Fingerprint, symbols]

theorem Fingerprint.cutByte {chunker : Chunker} {cutter : Cutter}
    (hwin : 1 ≤ chunker.slidingWinSize) (h : chunker.Fingerprint cutter) (byte : UInt8) :
    chunker.Fingerprint (chunker.cutByte byte cutter).1 := by
  have hstays : chunker.Fingerprint ⟨cutter.chunkBuffer ++ [byte], chunker.roll byte cutter⟩ :=
    h.roll hwin byte
  rw [Chunker.cutByte]
  split
  · exact hstays
  · split
    · exact hstays
    · split
      · exact chunker.fingerprint_start
      · split
        · exact chunker.fingerprint_start
        · exact hstays

/-- From zero on the fingerprint is always that of the window. -/
theorem cuts_fingerprint {chunker : Chunker} (hwin : 1 ≤ chunker.slidingWinSize) (bytes : Bytes)
    {cutter : Cutter} (h : chunker.Fingerprint cutter) :
    chunker.Fingerprint (chunker.cuts bytes cutter).2 := by
  induction bytes generalizing cutter with
  | nil => exact h
  | cons byte bytes ih =>
      rw [cuts]
      exact ih (h.cutByte hwin byte)

/-! ## The polynomial -/

/-- The sum over the bytes of the window that ends at position `t`. -/
def directFp (W : Nat) (bytes : Bytes) (t : Nat) : Nat :=
  (∑ k ∈ Finset.range W, (bytes.getD (t - k) 0).toNat * 257 ^ k) % 2 ^ 16

theorem directFp_cast {W : Nat} {bytes : Bytes} {byte : UInt8} (h : W ≤ bytes.length + 1) :
    (directFp W (bytes ++ [byte]) bytes.length : ZMod (2 ^ 16)) =
      windowPoly 257 W (symbols (bytes ++ [byte])) := by
  have hlen : (bytes ++ [byte]).length = bytes.length + 1 := List.length_append
  rw [windowPoly_full _ (by rwa [length_symbols, hlen]), directFp, natCast_mod (Nat.le_refl 16),
    Nat.cast_sum, length_symbols, hlen, Nat.add_sub_cancel]
  refine Finset.sum_congr rfl fun k _ => ?_
  rw [getD_symbols, Nat.cast_mul, Nat.cast_pow]
  rfl

/-- The arithmetic of the tables and of a byte stays below `2^32`. -/
structure NoWrap (chunker : Chunker) (byte : UInt8) (cutter : Cutter) : Prop where
  /-- `powerLUT[i - 1] * polyBase`. -/
  power : ∀ i, powerLUT i * polyBase < 2 ^ 32
  /-- `i * powerLUT[slidingWinSize - 1]`. -/
  remove : ∀ i < 256, i * powerLUT (chunker.slidingWinSize - 1) < 2 ^ 32
  /-- `polyMOD - removeLUT[i] + 1` does not go below zero. -/
  negate : ∀ i, u32 (i * powerLUT (chunker.slidingWinSize - 1)) &&& polyMOD ≤ polyMOD
  /-- The sum while the window is filled. -/
  fill : ∀ i, cutter.winFp + byte.toNat * powerLUT i < 2 ^ 32
  /-- The sum and the product when the window slides. -/
  slide : ∀ v : UInt8,
    ((cutter.winFp &&& polyMOD) + chunker.removeLUT v.toNat) * polyBase + byte.toNat < 2 ^ 32

theorem noWrap (chunker : Chunker) (byte : UInt8) {cutter : Cutter} (h : cutter.winFp < 2 ^ 16) :
    chunker.NoWrap byte cutter where
  power := powerLUT_mul_lt
  remove i hi := by
    have hmul := Nat.mul_le_mul (Nat.le_of_lt_succ hi) (powerLUT_lt (chunker.slidingWinSize - 1)).le
    omega
  negate _ := Nat.and_le_right
  fill i := by
    have hmul := byte_mul_powerLUT_lt byte i
    omega
  slide v := by
    have hmask : cutter.winFp &&& polyMOD ≤ cutter.winFp := Nat.and_le_left
    have hremove := chunker.removeLUT_lt v.toNat
    have hbyte := byte.toNat_lt
    rw [polyBase]
    omega

theorem cuts_winFp_lt (chunker : Chunker) (bytes : Bytes) {cutter : Cutter}
    (h : cutter.winFp < 2 ^ 16) : (chunker.cuts bytes cutter).2.winFp < 2 ^ 16 := by
  induction bytes generalizing cutter with
  | nil => exact h
  | cons byte bytes ih =>
      rw [cuts]
      refine ih ?_
      rw [cutByte]
      have hroll := chunker.roll_lt byte cutter
      split
      · exact hroll
      · split
        · exact hroll
        · split
          · simp
          · split
            · simp
            · exact hroll

/-- Where the fingerprint of a chunk starts from zero, `winFp` behind the byte at a position
`t` from `slidingWinSize` on is the polynomial of the last `slidingWinSize` bytes.  Nothing
wraps, and chunks that agree on these bytes agree on it. -/
theorem rolling_fingerprint {chunker : Chunker} (hwin : 1 ≤ chunker.slidingWinSize) (bytes : Bytes)
    (byte : UInt8)
    (hpos : chunker.slidingWinSize ≤ (chunker.cuts bytes ⟨[], 0⟩).2.chunkBuffer.length) :
    let cutter := (chunker.cuts bytes ⟨[], 0⟩).2
    let t := cutter.chunkBuffer.length
    chunker.roll byte cutter = directFp chunker.slidingWinSize (cutter.chunkBuffer ++ [byte]) t ∧
      chunker.NoWrap byte cutter ∧
      ∀ (bytes' : Bytes) (byte' : UInt8),
        let cutter' := (chunker.cuts bytes' ⟨[], 0⟩).2
        let t' := cutter'.chunkBuffer.length
        chunker.slidingWinSize ≤ t' →
        (∀ k < chunker.slidingWinSize, (cutter'.chunkBuffer ++ [byte']).getD (t' - k) 0 =
          (cutter.chunkBuffer ++ [byte]).getD (t - k) 0) →
        chunker.roll byte' cutter' = chunker.roll byte cutter := by
  have hdirect (bytes : Bytes) (byte : UInt8)
      (hpos : chunker.slidingWinSize ≤ (chunker.cuts bytes ⟨[], 0⟩).2.chunkBuffer.length) :
      chunker.roll byte (chunker.cuts bytes ⟨[], 0⟩).2 = directFp chunker.slidingWinSize
        ((chunker.cuts bytes ⟨[], 0⟩).2.chunkBuffer ++ [byte])
        (chunker.cuts bytes ⟨[], 0⟩).2.chunkBuffer.length := by
    have hroll := (cuts_fingerprint hwin bytes chunker.fingerprint_start).roll hwin byte
    rw [← directFp_cast (hpos.trans (Nat.le_succ _)), ZMod.natCast_eq_natCast_iff',
      Nat.mod_eq_of_lt (roll_lt ..)] at hroll
    exact hroll.trans (Nat.mod_eq_of_lt (Nat.mod_lt _ (by simp)))
  refine ⟨hdirect bytes byte hpos,
    noWrap chunker byte (cuts_winFp_lt chunker bytes (by simp)), fun bytes' byte' hpos' hsame => ?_⟩
  rw [hdirect bytes byte hpos, hdirect bytes' byte' hpos', directFp, directFp]
  congr 1
  refine Finset.sum_congr rfl fun k hk => ?_
  rw [hsame k (Finset.mem_range.mp hk)]

/-- A window of two bytes. -/
theorem rolling_fingerprint_two :
    (⟨2, 8, 2, 1, 3⟩ : Chunker).roll 3 ((⟨2, 8, 2, 1, 3⟩ : Chunker).cuts [1, 2] ⟨[], 0⟩).2 =
      directFp 2 [1, 2, 3] 2 :=
  (rolling_fingerprint (by decide) [1, 2] 3 (by decide)).1

end Chunker

end Dedup
