import JpegStorage.Lib.Baseline

/-!
# Numbers as strings of binary digits

`tobin` writes a number in binary.  It first builds the decimal number with the
same digits and then prints that with `itoa`.  For a negative number both steps
carry the sign, and `itoa` swaps the digits, which gives the low bits of the
ones' complement.  That is what the magnitude field of a JPEG scan holds:
`tobin_extend` says that `tobin` undoes the sign extension.

Strings are lists of characters without the final zero.
-/

namespace Recode

open Baseline

/-! ## The functions -/

/-- The digit loop of `itoa`, low digit first.  A `long long` has at most 19 digits. -/
def itoaDigits : Nat → Nat → List Nat
  | 0, _ => []
  | fuel + 1, n => n % 10 :: (if 0 < n / 10 then itoaDigits fuel (n / 10) else [])

/-- `n % 10 + '0'`. -/
def digitChar (d : Nat) : Char := Char.ofNat (d + 48)

/-- `itoa`.  A negative number has its digits swapped. -/
def itoa (n : Int) : List Char :=
  let str := ((itoaDigits 19 n.natAbs).map digitChar).reverse
  if n < 0 then str.map fun c => if c = '1' then '0' else '1' else str

/-- The loop of `tobin`.  C divides towards zero, and a `long long` is zero after
64 halvings. -/
def tobinLoop : Nat → Int → Int → Int → Int
  | 0, _, binaryNumber, _ => binaryNumber
  | fuel + 1, n, binaryNumber, i =>
      if n = 0 then binaryNumber
      else tobinLoop fuel (n.tdiv 2) (binaryNumber + n.tmod 2 * i) (i * 10)

/-- `tobin`. -/
def tobin (n : Int) : List Char := itoa (tobinLoop 64 n 0 1)

/-! ## The decimal number -/

/-- The number whose decimal digits are the binary digits of `n`, of which there
are at most as many as the first argument says. -/
def decimalCoded : Nat → Nat → Nat
  | 0, _ => 0
  | w + 1, n => n % 2 + 10 * decimalCoded w (n / 2)

theorem decimalCoded_zero : ∀ w, decimalCoded w 0 = 0
  | 0 => rfl
  | w + 1 => by rw [decimalCoded, Nat.zero_div, decimalCoded_zero w]

theorem decimalCoded_pos : ∀ {w n : Nat}, 0 < n → n < 2 ^ w → 0 < decimalCoded w n
  | 0, n, h0, hlt => by omega
  | w + 1, n, h0, hlt => by
      rw [decimalCoded]
      by_cases hhalf : n / 2 = 0
      · omega
      · have ih := decimalCoded_pos (w := w) (n := n / 2) (by omega) (by rw [pow_succ] at hlt; omega)
        omega

/-- The loop of `tobin` adds up the digits, with the sign of the number. -/
theorem tobinLoop_eq : ∀ {w n : Nat} (fuel : Nat) (sign acc i : Int), n < 2 ^ w → w ≤ fuel →
    sign = 1 ∨ sign = -1 →
    tobinLoop fuel (sign * n) acc i = acc + sign * (i * decimalCoded w n)
  | 0, n, 0, sign, acc, i, hlt, _, _ => by
      simp [tobinLoop, decimalCoded]
  | 0, n, fuel + 1, sign, acc, i, hlt, _, _ => by
      obtain rfl : n = 0 := by omega
      simp [tobinLoop, decimalCoded]
  | w + 1, n, 0, sign, acc, i, _, hfuel, _ => by omega
  | w + 1, n, fuel + 1, sign, acc, i, hlt, hfuel, hsign => by
      rw [tobinLoop]
      by_cases h0 : n = 0
      · subst h0
        simp [decimalCoded_zero]
      · have hne : sign * (n : Int) ≠ 0 := by
          rcases hsign with rfl | rfl <;> omega
        have hdiv : (sign * (n : Int)).tdiv 2 = sign * ((n / 2 : Nat) : Int) := by
          rcases hsign with rfl | rfl
          · rw [one_mul, one_mul]
            rfl
          · rw [neg_one_mul, neg_one_mul, Int.neg_tdiv]
            rfl
        have hmod : (sign * (n : Int)).tmod 2 = sign * ((n % 2 : Nat) : Int) := by
          rcases hsign with rfl | rfl
          · rw [one_mul, one_mul]
            rfl
          · rw [neg_one_mul, neg_one_mul, Int.neg_tmod]
            rfl
        rw [if_neg hne, hdiv, hmod,
          tobinLoop_eq (w := w) fuel sign _ (i * 10) (by rw [pow_succ] at hlt; omega) (by omega) hsign,
          decimalCoded]
        push_cast
        ring

/-! ## Its digits -/

/-- A binary digit as a character. -/
def bitChar (b : Bool) : Char := if b then '1' else '0'

theorem itoaDigits_decimalCoded : ∀ {w fuel n : Nat}, 0 < w → w ≤ fuel → n < 2 ^ w →
    (w = 1 ∨ 2 ^ (w - 1) ≤ n) →
    (itoaDigits fuel (decimalCoded w n)).map digitChar =
      ((Bits.ofNat w n).map bitChar).reverse
  | 0, _, _, h, _, _, _ => by omega
  | w + 1, 0, _, _, h, _, _ => by omega
  | w + 1, fuel + 1, n, _, hfuel, hlt, hlo => by
      have hlow : (decimalCoded (w + 1) n) % 10 = n % 2 := by rw [decimalCoded]; omega
      have hhigh : (decimalCoded (w + 1) n) / 10 = decimalCoded w (n / 2) := by
        rw [decimalCoded]; omega
      have hbit : digitChar (n % 2) = bitChar (n % 2 == 1) := by
        rcases Nat.mod_two_eq_zero_or_one n with h | h <;> rw [h] <;> rfl
      rw [itoaDigits, hlow, hhigh, List.map_cons, hbit, Bits.ofNat, List.map_append,
        List.reverse_append]
      change _ :: _ = _ :: _
      congr 1
      by_cases hw : w = 0
      · subst hw
        simp [decimalCoded]
      · have hpow : 2 ^ w = 2 * 2 ^ (w - 1) := by
          rw [← pow_succ', Nat.sub_add_cancel (by omega)]
        have hhalf : 2 ^ (w - 1) ≤ n / 2 := by
          rcases hlo with h | h
          · omega
          · rw [Nat.add_sub_cancel] at h
            omega
        have hone : 1 ≤ 2 ^ (w - 1) := Nat.one_le_two_pow
        have hlt' : n / 2 < 2 ^ w := by rw [pow_succ] at hlt; omega
        rw [if_pos (decimalCoded_pos (by omega) hlt')]
        exact itoaDigits_decimalCoded (by omega) (by omega) hlt' (Or.inr hhalf)

/-! ## The strings -/

/-- A number of at most `w` bits prints as its `w` binary digits, when the first
is a one or there is just one. -/
theorem tobin_ofNat {w n : Nat} (hw : 0 < w) (h19 : w ≤ 19) (hlt : n < 2 ^ w)
    (hlo : w = 1 ∨ 2 ^ (w - 1) ≤ n) : tobin n = (Bits.ofNat w n).map bitChar := by
  have hloop := tobinLoop_eq 64 1 0 1 hlt (by omega) (Or.inl rfl)
  simp only [one_mul, zero_add] at hloop
  rw [tobin, hloop, itoa, Int.natAbs_natCast, itoaDigits_decimalCoded hw h19 hlt hlo,
    List.reverse_reverse, if_neg (by omega)]

/-- A negative number prints with its digits swapped. -/
theorem tobin_neg {w n : Nat} (h19 : w ≤ 19) (hlt : n < 2 ^ w) (hpos : 0 < n)
    (hlo : 2 ^ (w - 1) ≤ n) : tobin (-n) = ((Bits.ofNat w n).map not).map bitChar := by
  have hw : 0 < w := by
    by_contra h
    obtain rfl : w = 0 := by omega
    omega
  have hloop := tobinLoop_eq 64 (-1) 0 1 hlt (by omega) (Or.inr rfl)
  simp only [neg_mul, one_mul, zero_add] at hloop
  have hdec := decimalCoded_pos hpos hlt
  have hswap : ∀ b : Bool, (if bitChar b = '1' then '0' else '1') = bitChar (!b) := by decide
  rw [tobin, hloop, itoa, Int.natAbs_neg, Int.natAbs_natCast,
    itoaDigits_decimalCoded hw h19 hlt (Or.inr hlo), List.reverse_reverse, if_pos (by omega),
    List.map_map, List.map_map]
  exact List.map_congr_left fun b _ => hswap b

/-- `tobin` undoes the sign extension of a magnitude. -/
theorem tobin_extend {bits : List Bool} (h0 : bits ≠ []) (h19 : bits.length ≤ 19) :
    tobin (extend bits) = bits.map bitChar := by
  have hlen : 0 < bits.length := List.length_pos_iff.mpr h0
  have hlt := Bits.toNat_lt bits
  rw [extend]
  split
  next hneg =>
    have hpow : 2 ^ bits.length = 2 * 2 ^ (bits.length - 1) := by
      rw [← pow_succ', Nat.sub_add_cancel hlen]
    have hnot := Bits.toNat_map_not bits
    have hltn := Bits.toNat_lt (bits.map not)
    rw [List.length_map] at hltn
    have hval : (Bits.toNat bits : Int) - 2 ^ bits.length + 1 =
        -(Bits.toNat (bits.map not) : Int) := by
      rw [hnot]
      have hle : Bits.toNat bits ≤ 2 ^ bits.length - 1 := by omega
      push_cast [Nat.cast_sub hle, Nat.cast_sub (Nat.one_le_two_pow (n := bits.length))]
      ring
    have hstr := Bits.ofNat_toNat (bits.map not)
    rw [List.length_map] at hstr
    have hnn : (bits.map not).map not = bits := by
      rw [List.map_map, show not ∘ not = id from funext Bool.not_not, List.map_id]
    rw [hval, tobin_neg h19 hltn (by omega) (by omega), hstr, hnn]
  next hpos =>
    rw [tobin_ofNat hlen h19 hlt (Or.inr (by omega)), Bits.ofNat_toNat]

end Recode
