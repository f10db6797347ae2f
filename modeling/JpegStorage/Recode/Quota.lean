import JpegStorage.Recode.NewCode
import Mathlib.Data.List.TakeWhile

/-!
# Other quotas

`one_size_max` is a number table to be tuned, and `cal_new_huffman` is written for
any such table.  `Quota` is what the table has to be for its codes to exist.

`tobin` prints a number without leading zeros, and the two loops that put them
back move a string by one place only and read behind its end.  So a code with
leading zeros depends on what the buffer held before.  `Quota.makesCodes_iff`
says which quotas that concerns: those without a code of one bit.  With such a
code every other code begins with a one, and there is nothing to put back.
-/

namespace Recode

open Canonical Baseline

/-! ## Quotas -/

/-- A table `one_size_max` whose codes exist. -/
structure Quota where
  /-- How many codes there are of each size. -/
  sizes : List Nat
  /-- The table has its seventeen entries, of which the first is not used. -/
  length_eq : sizes.length = 17
  /-- The Kraft sum is at most one. -/
  kraft_le : kraft 16 (lengthsOf (sizes.drop 1)) ≤ 2 ^ 16

/-- The canonical codes of the sizes. -/
def Quota.codes (q : Quota) : List (Nat × Nat) := Canonical.codes (lengthsOf (q.sizes.drop 1))

/-- All the codes there are. -/
def Quota.total (q : Quota) : Nat := (q.sizes.drop 1).sum

/-- The first `n` strings are the canonical codes, whatever the buffer held before. -/
def Quota.MakesCodes (q : Quota) (n : Nat) : Prop :=
  ∀ buf, ∃ buf', calNewHuffman q.sizes n buf = some ((q.codes.take n).map codeString, buf')

theorem Quota.length_codes (q : Quota) : q.codes.length = q.total := by
  rw [Quota.codes, Canonical.length_codes, length_lengthsOf, Quota.total]

theorem Quota.size_le (q : Quota) {l : Nat} (h : l ∈ lengthsOf (q.sizes.drop 1)) : l ≤ 16 := by
  have hle := (mem_lengthsOf h).2
  rwa [List.length_drop, q.length_eq] at hle

theorem Quota.fits (q : Quota) : Fits (lengthsOf (q.sizes.drop 1)) :=
  fits_of_kraft (fun _ => q.size_le) (lengthsOf_sorted _) q.kraft_le

theorem Quota.code_size_le (q : Quota) {e : Nat × Nat} (h : e ∈ q.codes) : e.2 ≤ 16 := by
  have hmem : e.2 ∈ q.codes.map Prod.snd := List.mem_map_of_mem h
  rw [Quota.codes, Canonical.codes, map_snd_assign] at hmem
  exact q.size_le hmem

/-! ## A code of one bit -/

/-- Behind a code of one bit all codes begin with a one. -/
theorem high_of_mem_codes {ls : List Nat} (hs : (1 :: ls).Pairwise (· ≤ ·)) {e : Nat × Nat}
    (he : e ∈ codes (1 :: ls)) : e = (0, 1) ∨ 2 ^ (e.2 - 1) ≤ e.1 ∧ 1 ≤ e.2 := by
  rw [List.pairwise_cons] at hs
  rw [codes, assign] at he
  cases List.mem_cons.mp he with
  | inl h => exact Or.inl h
  | inr h =>
      have hle := le_of_mem_assign hs.1 hs.2 e h
      rw [Nat.zero_shiftLeft, Nat.zero_add, Nat.one_mul] at hle
      exact Or.inr hle

theorem Quota.printable (q : Quota) (hone : 1 ≤ q.sizes.getD 1 0) {e : Nat × Nat}
    (he : e ∈ q.codes) : Printable e := by
  obtain ⟨n, hn⟩ : ∃ n, q.sizes.getD 1 0 = n + 1 := ⟨q.sizes.getD 1 0 - 1, by omega⟩
  have hlengths : lengthsOf (q.sizes.drop 1) =
      1 :: (List.replicate n 1 ++ lengthsFrom 2 (q.sizes.drop 2)) := by
    have hlen := q.length_eq
    rw [List.drop_eq_getElem_cons (by omega), lengthsOf, lengthsFrom,
      ← List.getD_eq_getElem _ 0 (by omega), hn, List.replicate_succ, List.cons_append]
  have hsorted := lengthsOf_sorted (q.sizes.drop 1)
  have hlt := q.fits e he
  have h16 := q.code_size_le he
  rw [Quota.codes, hlengths] at he
  rw [hlengths] at hsorted
  rcases high_of_mem_codes hsorted he with rfl | ⟨hhigh, hpos⟩
  · exact ⟨by decide, by decide, Or.inl rfl⟩
  · exact ⟨by omega, hlt, Or.inr ⟨by omega, hhigh⟩⟩

/-! ## What the buffer leaves behind -/

theorem bufString_getElem {buf : CharBuf} {j : Nat} (h : j < (bufString buf).length) :
    (bufString buf)[j] = buf j := by
  have hpre : bufString buf <+: (List.range 32).map buf := List.takeWhile_prefix _
  rw [hpre.getElem h, List.getElem_map, List.getElem_range]

theorem ne_zero_of_lt_bufString {buf : CharBuf} {j : Nat} (h : j < (bufString buf).length) :
    buf j ≠ Char.ofNat 0 := by
  have hmem : (bufString buf)[j] ∈ bufString buf := List.getElem_mem h
  have hne := List.mem_takeWhile_imp hmem
  rw [bufString_getElem h] at hne
  simpa using hne

/-- The first string of a quota without a code of one bit is the padded number zero. -/
theorem calLoop_first {quota : List Nat} {todo : Nat} {buf buf' : CharBuf}
    {arr : List (List Char)} : ∀ {fuel size : Nat}, 2 ≤ size →
    calLoop quota fuel (todo + 1) size 0 0 buf = some (arr, buf') →
    ∃ s, 2 ≤ s ∧ (remaining quota size 0 0).head? = some (0, s) ∧
      arr.head? = some (bufString (padZeros s 1 (strcpy ['0'] buf)))
  | 0, _, _, h => by cases h
  | fuel + 1, size, hsize, h => by
      rw [calLoop] at h
      cases hq : quota[size]? with
      | none =>
          rw [hq] at h
          cases h
      | some max =>
          have hmax : quota.getD size 0 = max := by rw [List.getD_eq_getElem?_getD, hq]; rfl
          rw [hq] at h
          dsimp only at h
          by_cases hpos : 0 < max
          · have hlen : (bufString (strcpy ['0'] buf)).length = 1 := by
              rw [bufString_strcpy buf (by simp) (by simp)]
              rfl
            have hzero : tobin ((0 : Nat) : Int) = ['0'] := by decide
            simp only [if_pos hpos, ne_eq, not_true_eq_false, if_false, hzero, hlen,
              if_pos (show 1 < size by omega)] at h
            rw [remaining_more (hmax ▸ hpos)]
            refine ⟨size, hsize, rfl, ?_⟩
            split at h
            next => cases h
            next =>
              cases h
              rfl
          · obtain rfl : max = 0 := by omega
            simp only [if_neg hpos, ne_eq, not_true_eq_false, if_false, Nat.zero_mul] at h
            rw [remaining_next 0 (Nat.le_of_eq hmax), Nat.zero_mul]
            exact calLoop_first (by omega) h

/-- Some content of the buffer spoils a code of zeros.  From three characters on
a buffer of zeros does. -/
theorem padZeros_spoiled {s : Nat} (hs : 2 ≤ s) :
    ∃ buf, (bufString (padZeros s 1 (strcpy ['0'] (strcpy [] buf)))).length ≠ s := by
  by_cases h2 : s = 2
  · subst h2
    exact ⟨fun j => if j = 2 then 'x' else Char.ofNat 0, by decide⟩
  · refine ⟨fun _ => Char.ofNat 0, fun hlen => ?_⟩
    have hlast := ne_zero_of_lt_bufString (j := s - 1) (lt_of_lt_of_eq (by omega) hlen.symm)
    refine hlast ?_
    simp [padZeros, strcpy, show ¬ s ≤ 2 by omega, show s - 1 ≠ 0 by omega,
      show s - 1 ≠ 1 by omega]

/-- Without a code of one bit some content of the buffer spoils the first string. -/
theorem Quota.not_makesCodes (q : Quota) (n : Nat) (hone : q.sizes.getD 1 0 = 0) :
    ¬ q.MakesCodes (n + 1) := by
  intro h
  have hlen := q.length_eq
  have hq : q.sizes[1]? = some 0 := by
    rw [List.getElem?_eq_getElem (by omega), ← hone, List.getD_eq_getElem]
  have hhead : ∀ buf, ∃ s, 2 ≤ s ∧ q.codes.head? = some (0, s) ∧
      bufString (padZeros s 1 (strcpy ['0'] (strcpy [] buf))) = codeString (0, s) := by
    intro buf
    obtain ⟨buf', hcal⟩ := h buf
    rw [calNewHuffman, show n + 1 + q.sizes.length = (n + q.sizes.length) + 1 by omega, calLoop,
      hq] at hcal
    simp only [Nat.lt_irrefl, if_false, ne_eq, not_true_eq_false, Nat.zero_mul] at hcal
    split at hcal
    next => cases hcal
    next arr buf'' hloop =>
      obtain ⟨s, hs, hrem, harr⟩ := calLoop_first (by omega) hloop
      have hcodes : q.codes.head? = some (0, s) := by
        rw [Quota.codes, codes_eq_remaining, remaining_next 0 (Nat.le_of_eq hone), Nat.zero_mul]
        exact hrem
      refine ⟨s, hs, hcodes, ?_⟩
      obtain ⟨rest, hrest⟩ : ∃ rest, q.codes = (0, s) :: rest :=
        List.head?_eq_some_iff.mp hcodes
      have harr' := (Prod.mk.inj (Option.some.inj hcal)).1
      rw [harr', hrest, List.take_succ_cons, List.map_cons, List.head?_cons] at harr
      exact (Option.some.inj harr).symm
  obtain ⟨s, hs, hs0, -⟩ := hhead fun _ => ' '
  obtain ⟨buf, hspoiled⟩ := padZeros_spoiled hs
  obtain ⟨t, -, ht0, hstr⟩ := hhead buf
  obtain rfl : s = t := by
    rw [hs0] at ht0
    exact congrArg Prod.snd (Option.some.inj ht0)
  exact hspoiled (by rw [hstr, length_codeString])

/-! ## Which quotas are served -/

/-- The strings are the canonical codes exactly for the quotas with a code of one bit. -/
theorem Quota.makesCodes_iff (q : Quota) {n : Nat} (hn : n ≤ q.total) :
    q.MakesCodes n ↔ n = 0 ∨ 1 ≤ q.sizes.getD 1 0 := by
  constructor
  · intro h
    cases n with
    | zero => exact Or.inl rfl
    | succ n =>
        refine Or.inr (Nat.one_le_iff_ne_zero.mpr fun hone => ?_)
        exact q.not_makesCodes n (by omega) h
  · intro h buf
    refine calNewHuffman_eq buf (q.length_codes ▸ hn) fun e he => ?_
    rcases h with rfl | hone
    · cases he
    · exact q.printable hone (List.mem_of_mem_take he)

/-- The table of the source has a code of one bit. -/
def quotaOfSource : Quota := ⟨oneSizeMax, rfl, by decide +kernel⟩

theorem quotaOfSource_makesCodes_iff :
    quotaOfSource.MakesCodes 256 ↔ 256 = 0 ∨ 1 ≤ quotaOfSource.sizes.getD 1 0 :=
  quotaOfSource.makesCodes_iff (by decide +kernel)

/-- Eight codes of three bits. -/
def quotaOfThree : Quota :=
  ⟨[0, 0, 0, 8, 0, 0, 0, 0, 0, 0, 0, 0, 0, 0, 0, 0, 0], rfl, by decide +kernel⟩

/-- Of the codes `000` and `001` at most one comes out, whatever the buffer held:
their third characters are the same character of the buffer. -/
theorem quotaOfThree_wrong : 2 ≤ quotaOfThree.total ∧ ∀ buf buf',
    calNewHuffman quotaOfThree.sizes 2 buf ≠
      some ((quotaOfThree.codes.take 2).map codeString, buf') := by
  refine ⟨by decide, fun buf buf' h => ?_⟩
  have hcodes : (quotaOfThree.codes.take 2).map codeString =
      [['0', '0', '0'], ['0', '0', '1']] := by decide +kernel
  have hzero : tobin 0 = ['0'] := by decide
  have hone : tobin 1 = ['1'] := by decide
  have hlen : ∀ c buf, c ≠ Char.ofNat 0 → (bufString (strcpy [c] buf)).length = 1 := by
    intro c buf hc
    rw [bufString_strcpy buf (by simp) (by simpa using hc)]
    rfl
  rw [hcodes] at h
  simp [calNewHuffman, quotaOfThree, calLoop, hzero, hone, hlen] at h
  have hthird : ∀ {b : CharBuf} {c : Char}, bufString b = ['0', '0', c] → b 2 = c := by
    intro b c hb
    have hlt : 2 < (bufString b).length := by simp [hb]
    have hget := bufString_getElem hlt
    simpa [hb] using hget.symm
  have h0 := hthird h.1.1
  have h1 := hthird h.1.2
  simp [padZeros, strcpy] at h0 h1
  rw [h0] at h1
  exact absurd h1 (by decide)

end Recode
