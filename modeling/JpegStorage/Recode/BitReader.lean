import JpegStorage.Lib.Baseline
import JpegStorage.Lib.Stuffing
import JpegStorage.Recode.HuffmanTable

/-!
# Reading bits

The scan is read through a reservoir of prefetched bits.  The source expands
the refill, the peek and the skip by hand in eight places.  Here each is one
function.

`priv->stream` is the list of the bytes from it to `stream_end`.  `bits` is what
a state still has to give: the low `nbits_in_reservoir` bits of the reservoir
and then the bits of the bytes behind it, the stuffed zeros dropped.  `Reads s k
s'` says that `s'` is `s` with `k` bits given, and each function has one lemma
in these terms.
-/

namespace Recode

open Canonical Stuffing Baseline

/-! ## The reservoir -/

/-- A number stored in an `unsigned int`. -/
def u32 (n : Nat) : Nat := n % 2 ^ 32

/-- Subtraction of `unsigned int`s. -/
def sub32 (a b : Nat) : Nat := u32 (a + 2 ^ 32 - b)

theorem u32_of_lt {n : Nat} (h : n < 2 ^ 32) : u32 n = n := Nat.mod_eq_of_lt h

theorem sub32_of_le {a b : Nat} (h : b ≤ a) (ha : a < 2 ^ 32) : sub32 a b = a - b := by
  rw [sub32, u32, show a + 2 ^ 32 - b = a - b + 2 ^ 32 by omega, Nat.add_mod_right]
  exact Nat.mod_eq_of_lt (by omega)

/-- The fields of `struct jdec_private` that bits are read with. -/
structure BitReader where
  /-- `stream`: the bytes from it to `stream_end`. -/
  stream : List UInt8
  /-- `reservoir`. -/
  reservoir : Nat
  /-- `nbits_in_reservoir`. -/
  nbits : Nat
deriving DecidableEq, Repr

/-- `reservoir <<= 8; reservoir |= c`. -/
def pushByte (reservoir : Nat) (c : UInt8) : Nat := u32 (reservoir <<< 8) ||| c.toNat

/-- The refill loop: bytes are prefetched until `n` bits are there.  `none` is
the `longjmp` with `-EIO` at `stream_end`.  A zero after `FF` is skipped. -/
def refillFrom (n : Nat) : List UInt8 → Nat → Nat → Option BitReader
  | [], reservoir, nbits => if nbits < n then none else some ⟨[], reservoir, nbits⟩
  | 0xff :: 0x00 :: rest, reservoir, nbits =>
      if nbits < n then refillFrom n rest (pushByte reservoir 0xff) (nbits + 8)
      else some ⟨0xff :: 0x00 :: rest, reservoir, nbits⟩
  | c :: rest, reservoir, nbits =>
      if nbits < n then refillFrom n rest (pushByte reservoir c) (nbits + 8)
      else some ⟨c :: rest, reservoir, nbits⟩

/-- The refill loop on a state. -/
def BitReader.refill (s : BitReader) (n : Nat) : Option BitReader :=
  refillFrom n s.stream s.reservoir s.nbits

/-- `reservoir >> (nbits_in_reservoir - n)`. -/
def BitReader.peek (s : BitReader) (n : Nat) : Nat := s.reservoir >>> sub32 s.nbits n

/-- `nbits_in_reservoir -= n; reservoir &= (1U << nbits_in_reservoir) - 1`. -/
def BitReader.skip (s : BitReader) (n : Nat) : BitReader :=
  { s with nbits := sub32 s.nbits n,
           reservoir := s.reservoir &&& sub32 (u32 (1 <<< sub32 s.nbits n)) 1 }

/-! ## Symbols and magnitudes -/

/-- The loop over `extra_nbits`: look for the next `nbits` bits in the slow row
of that size.  When no row has them the result is symbol 0 and no bit is
skipped. -/
def slowSearch (table : HuffmanTable) : List Nat → BitReader → Option (Nat × BitReader)
  | [], s => some (0, s)
  | nbits :: rest, s =>
      match s.refill nbits with
      | none => none
      | some s =>
          match (table.slowtable (nbits - huffmanHashNbits - 1)).find?
              (fun p => p.1 = s.peek nbits) with
          | some p => some (p.2, s.skip nbits)
          | none => slowSearch table rest s

/-- `get_next_huffman_code`, and `WriteNewData_get_next_huffman_code`, which is
the same function with an unused argument. -/
def getNextHuffmanCode (table : HuffmanTable) (s : BitReader) : Option (Nat × BitReader) :=
  match s.refill huffmanHashNbits with
  | none => none
  | some s =>
      match table.lookup (s.peek huffmanHashNbits) with
      | some value => some (value, s.skip (table.codeSize value))
      | none => slowSearch table [10, 11, 12, 13, 14, 15, 16] s

/-- `get_nbits`, expanded in place in the source. -/
def getNbits (n : Nat) (s : BitReader) : Option (Nat × BitReader) :=
  match s.refill n with
  | none => none
  | some s => some (s.peek n, s.skip n)

/-- The `short` a magnitude of `n` bits is turned into: values without the
leading bit get `(0xFFFFFFFFUL << n) + 1` added. -/
def magnitude (n value : Nat) : Int :=
  let dct := int16 value
  if dct % 2 ^ 32 < 2 ^ (n - 1) then int16 (dct + ((0xFFFFFFFF <<< n : Nat) : Int) + 1) else dct

/-! ## What a state has to give -/

/-- The bits still to be given. -/
def BitReader.bits (s : BitReader) : List Bool :=
  Bits.ofNat s.nbits s.reservoir ++ Bits.ofBytes (unstuff s.stream)

/-- The reservoir holds no more than the bits it counts, and there is room to
prefetch one more byte. -/
structure BitReader.Ok (s : BitReader) : Prop where
  /-- Nothing above the counted bits. -/
  lt : s.reservoir < 2 ^ s.nbits
  /-- At most 23 bits are prefetched. -/
  le : s.nbits ≤ 23

/-- `s'` is `s` with `k` bits given and some data bytes prefetched. -/
structure Reads (s : BitReader) (k : Nat) (s' : BitReader) : Prop where
  /-- The reservoir stays in order. -/
  ok : s'.Ok
  /-- The bits were there. -/
  le : k ≤ s.bits.length
  /-- The bits given are gone. -/
  bits : s'.bits = s.bits.drop k
  /-- The stream moved by whole data bytes. -/
  stream : ∃ j, s'.stream = skipData j s.stream ∧ s.nbits + 8 * j = s'.nbits + k

theorem Reads.refl {s : BitReader} (h : s.Ok) : Reads s 0 s :=
  ⟨h, by simp, by simp, 0, by simp, by simp⟩

theorem Reads.trans {s s' s'' : BitReader} {k k' : Nat} (h : Reads s k s') (h' : Reads s' k' s'') :
    Reads s (k + k') s'' := by
  obtain ⟨j, hj, hn⟩ := h.stream
  obtain ⟨j', hj', hn'⟩ := h'.stream
  have hle := h'.le
  rw [h.bits, List.length_drop] at hle
  have hle₀ := h.le
  refine ⟨h'.ok, by omega, by rw [h'.bits, h.bits, List.drop_drop], j + j', ?_, by omega⟩
  rw [hj', hj, skipData_add]

theorem refillFrom_cons (n : Nat) (c : UInt8) (rest : List UInt8) (reservoir nbits : Nat) :
    refillFrom n (c :: rest) reservoir nbits =
      if nbits < n then refillFrom n (afterByte c rest) (pushByte reservoir c) (nbits + 8)
      else some ⟨c :: rest, reservoir, nbits⟩ := by
  by_cases hc : c = 0xff
  · subst hc
    match rest with
    | [] => rfl
    | m :: rest' =>
        by_cases hm : m = 0x00
        · subst hm; rfl
        · rw [afterByte_cons_of_ne _ hm, refillFrom.eq_3]
          intro r _ heq
          injection heq with h1 _
          exact hm h1
  · rw [afterByte_of_ne hc, refillFrom.eq_3]
    intro r heq
    exact absurd heq hc

/-- A prefetched byte goes to the end of the reservoir's bits. -/
theorem pushByte_eq {reservoir nbits : Nat} (c : UInt8) (h : reservoir < 2 ^ nbits)
    (hn : nbits ≤ 23) :
    pushByte reservoir c = reservoir * 2 ^ 8 + c.toNat ∧
      reservoir * 2 ^ 8 + c.toNat < 2 ^ (nbits + 8) := by
  have hc : c.toNat < 2 ^ 8 := c.toNat_lt
  have hpow : 2 ^ nbits ≤ 2 ^ 23 := Nat.pow_le_pow_right (by omega) hn
  have hsmall : reservoir <<< 8 < 2 ^ 32 := by rw [Nat.shiftLeft_eq]; omega
  refine ⟨by rw [pushByte, u32_of_lt hsmall, Bits.shiftLeft_or hc], ?_⟩
  rw [pow_add]
  omega

theorem bits_pushByte {reservoir nbits : Nat} (c : UInt8) (rest : List UInt8)
    (h : reservoir < 2 ^ nbits) (hn : nbits ≤ 23) :
    (BitReader.mk (afterByte c rest) (pushByte reservoir c) (nbits + 8)).bits =
      (BitReader.mk (c :: rest) reservoir nbits).bits := by
  have hsplit : Bits.ofNat (nbits + 8) (reservoir * 2 ^ 8 + c.toNat) =
      Bits.ofNat nbits reservoir ++ Bits.ofByte c :=
    Bits.ofNat_append _ _ (by simp) (by simp)
      (by rw [Bits.toNat_ofNat_of_lt h, Bits.toNat_ofByte])
  rw [BitReader.bits, BitReader.bits, (pushByte_eq c h hn).1, unstuff_cons, Bits.ofBytes_cons]
  rw [hsplit, List.append_assoc]

/-- A prefetched byte changes no bit. -/
theorem pushByte_reads {c : UInt8} {rest : List UInt8} {reservoir nbits : Nat}
    (h : (BitReader.mk (c :: rest) reservoir nbits).Ok) (hn : nbits < 16) :
    Reads ⟨c :: rest, reservoir, nbits⟩ 0 ⟨afterByte c rest, pushByte reservoir c, nbits + 8⟩ := by
  obtain ⟨hp, hplt⟩ := pushByte_eq c h.lt h.le
  refine ⟨⟨by rw [hp]; exact hplt, by simp; omega⟩, Nat.zero_le _, ?_, 1, ?_, rfl⟩
  · rw [bits_pushByte c rest h.lt h.le, List.drop_zero]
  · rw [skipData_succ_cons, skipData_zero]

/-- The refill loop changes no bit and leaves at least `n` in the reservoir. -/
theorem refillFrom_reads {n : Nat} (hn : n ≤ 16) : ∀ (stream : List UInt8) (reservoir nbits : Nat)
    {s' : BitReader}, (BitReader.mk stream reservoir nbits).Ok →
    refillFrom n stream reservoir nbits = some s' →
    Reads ⟨stream, reservoir, nbits⟩ 0 s' ∧ n ≤ s'.nbits := by
  intro stream
  induction hlen : stream.length using Nat.strong_induction_on generalizing stream with
  | _ len ih =>
    intro reservoir nbits s' hok h
    match stream with
    | [] =>
        rw [refillFrom] at h
        split at h
        · cases h
        next hge =>
          obtain rfl := Option.some.inj h
          exact ⟨.refl hok, by simpa using hge⟩
    | c :: rest =>
        rw [refillFrom_cons] at h
        split at h
        next hlt =>
          have hle : (afterByte c rest).length < len := by
            rw [← hlen, List.length_cons]
            exact Nat.lt_succ_of_le (length_afterByte_le c rest)
          have hread := pushByte_reads hok (by omega)
          obtain ⟨hr, hge⟩ := ih _ hle _ rfl _ _ hread.ok h
          exact ⟨hread.trans hr, hge⟩
        next hge =>
          obtain rfl := Option.some.inj h
          exact ⟨.refl hok, by simpa using hge⟩

/-- The refill loop ends when there are enough bits. -/
theorem refillFrom_some {n : Nat} (hn : n ≤ 16) : ∀ (stream : List UInt8) (reservoir nbits : Nat),
    (BitReader.mk stream reservoir nbits).Ok →
    n ≤ (BitReader.mk stream reservoir nbits).bits.length →
    ∃ s', refillFrom n stream reservoir nbits = some s' := by
  intro stream
  induction hlen : stream.length using Nat.strong_induction_on generalizing stream with
  | _ len ih =>
    intro reservoir nbits hok h
    match stream with
    | [] =>
        have hge : ¬ nbits < n := by simpa [BitReader.bits] using h
        exact ⟨_, by rw [refillFrom, if_neg hge]⟩
    | c :: rest =>
        rw [refillFrom_cons]
        by_cases hlt : nbits < n
        · rw [if_pos hlt]
          have hle : (afterByte c rest).length < len := by
            rw [← hlen, List.length_cons]
            exact Nat.lt_succ_of_le (length_afterByte_le c rest)
          have hread := pushByte_reads hok (by omega)
          refine ih _ hle _ rfl _ _ hread.ok ?_
          rw [hread.bits, List.drop_zero]
          exact h
        · exact ⟨_, by rw [if_neg hlt]⟩

theorem BitReader.refill_reads {s s' : BitReader} {n : Nat} (hn : n ≤ 16) (hok : s.Ok)
    (h : s.refill n = some s') : Reads s 0 s' ∧ n ≤ s'.nbits :=
  refillFrom_reads hn s.stream s.reservoir s.nbits hok h

theorem BitReader.refill_some {s : BitReader} {n : Nat} (hn : n ≤ 16) (hok : s.Ok)
    (h : n ≤ s.bits.length) : ∃ s', s.refill n = some s' :=
  refillFrom_some hn s.stream s.reservoir s.nbits hok h

/-- The first `n` bits, when they are in the reservoir. -/
theorem BitReader.take_bits {s : BitReader} {n : Nat} (hn : n ≤ s.nbits) :
    s.bits.take n = Bits.ofNat n (s.reservoir / 2 ^ (s.nbits - n)) := by
  rw [BitReader.bits, List.take_append_of_le_length (by simpa using hn), Bits.ofNat_take hn]

theorem BitReader.peek_eq {s : BitReader} {n : Nat} (hok : s.Ok) (hn : n ≤ s.nbits) :
    s.peek n = Bits.toNat (s.bits.take n) := by
  have hle := hok.le
  have hdiv : s.reservoir / 2 ^ (s.nbits - n) < 2 ^ n := by
    rw [Nat.div_lt_iff_lt_mul (by positivity), ← pow_add, Nat.add_sub_cancel' hn]
    exact hok.lt
  rw [BitReader.peek, sub32_of_le hn (by omega), Nat.shiftRight_eq_div_pow, take_bits hn,
    Bits.toNat_ofNat_of_lt hdiv]

/-- A skip masks the reservoir, when it leaves at most 23 bits. -/
theorem BitReader.skip_eq {s : BitReader} {n : Nat} (hn : n ≤ s.nbits) (hle : s.nbits ≤ n + 23)
    (h32 : s.nbits < 2 ^ 32) :
    s.skip n = ⟨s.stream, s.reservoir % 2 ^ (s.nbits - n), s.nbits - n⟩ := by
  have hsub : sub32 s.nbits n = s.nbits - n := sub32_of_le hn h32
  have hpow : 2 ^ (s.nbits - n) ≤ 2 ^ 23 := Nat.pow_le_pow_right (by omega) (by omega)
  have hmask : sub32 (u32 (1 <<< (s.nbits - n))) 1 = 2 ^ (s.nbits - n) - 1 := by
    rw [Nat.one_shiftLeft, u32_of_lt (by omega), sub32_of_le Nat.one_le_two_pow (by omega)]
  rw [BitReader.skip, hsub, hmask, Nat.and_two_pow_sub_one_eq_mod]

theorem BitReader.skip_reads {s : BitReader} {n : Nat} (hok : s.Ok) (hn : n ≤ s.nbits) :
    Reads s n (s.skip n) := by
  have hle := hok.le
  rw [BitReader.skip_eq hn (by omega) (by omega)]
  refine ⟨⟨Nat.mod_lt _ (by positivity), by simp; omega⟩, ?_, ?_, 0, by simp, by simp; omega⟩
  · rw [BitReader.bits, List.length_append, Bits.length_ofNat]
    omega
  rw [BitReader.bits, BitReader.bits, List.drop_append_of_le_length (by simpa using hn),
    Bits.ofNat_drop hn, Bits.ofNat_mod]

/-! ## Symbols -/

/-- The first `n` bits of an input that begins with a code at least that long. -/
theorem take_window {c bits : List Bool} {n : Nat} (hc : c <+: bits) (hn : n ≤ c.length) :
    bits.take n = c.take n := by
  obtain ⟨t, rfl⟩ := hc
  rw [List.take_append_of_le_length hn]

/-- The slow rows find a long code, whichever row the search has come to. -/
theorem slowSearch_spec {table : HuffmanTable} {tbl : Table Nat} (hh : table.Holds tbl) {v : Nat}
    {c : List Bool} (hc : (v, c) ∈ tbl) (hlong : huffmanHashNbits < c.length) :
    ∀ (k : Nat) {s : BitReader}, s.Ok → c <+: s.bits → huffmanHashNbits < 17 - k →
      17 - k ≤ c.length → k ≤ 7 →
      ∃ s', slowSearch table (List.range' (17 - k) k) s = some (v, s') ∧ Reads s c.length s'
  | 0, s, _, _, _, hle, _ => by
      have := (hh.length hc).2
      omega
  | k + 1, s, hok, hpre, hlo, hle, hk => by
      have hlen16 := (hh.length hc).2
      have hav : 17 - (k + 1) ≤ s.bits.length := hle.trans hpre.length_le
      obtain ⟨s₁, hs₁⟩ := BitReader.refill_some (by omega) hok hav
      obtain ⟨hr₁, hn₁⟩ := BitReader.refill_reads (by omega) hok hs₁
      have hbits₁ : s₁.bits = s.bits := by simpa using hr₁.bits
      have hpre₁ : c <+: s₁.bits := hbits₁ ▸ hpre
      have hpeek : s₁.peek (17 - (k + 1)) = Bits.toNat (c.take (17 - (k + 1))) := by
        rw [BitReader.peek_eq hr₁.ok hn₁, take_window hpre₁ hle]
      rw [List.range'_succ, slowSearch, hs₁]
      simp only [hpeek]
      by_cases heq : 17 - (k + 1) = c.length
      · have htake : c.take (17 - (k + 1)) = c := List.take_of_length_le (Nat.le_of_eq heq.symm)
        have hfind := hh.slow hc hlong
        rw [← heq] at hfind
        simp only [htake, hfind]
        refine ⟨s₁.skip (17 - (k + 1)), rfl, ?_⟩
        simpa [← heq] using hr₁.trans (BitReader.skip_reads hr₁.ok hn₁)
      · have hskip := hh.skip hc hlo (n := 17 - (k + 1)) (by omega)
        have hstep : 17 - (k + 1) + 1 = 17 - k := by omega
        simp only [hskip, hstep]
        obtain ⟨s', hs', hr'⟩ :=
          slowSearch_spec hh hc hlong k hr₁.ok hpre₁ (by omega) (by omega) (by omega)
        exact ⟨s', hs', by simpa using hr₁.trans hr'⟩

/-- An input that begins with a code of the table gives its symbol and loses
exactly the code.  The fast window needs nine bits even for a shorter code. -/
theorem getNextHuffmanCode_spec {table : HuffmanTable} {tbl : Table Nat} (hh : table.Holds tbl)
    {v : Nat} {c : List Bool} (hc : (v, c) ∈ tbl) {s : BitReader} (hok : s.Ok)
    (hpre : c <+: s.bits) (hlen : huffmanHashNbits ≤ s.bits.length) :
    ∃ s', getNextHuffmanCode table s = some (v, s') ∧ Reads s c.length s' := by
  obtain ⟨s₁, hs₁⟩ := BitReader.refill_some (by decide) hok hlen
  obtain ⟨hr₁, hn₁⟩ := BitReader.refill_reads (by decide) hok hs₁
  have hbits₁ : s₁.bits = s.bits := by simpa using hr₁.bits
  have hpre₁ : c <+: s₁.bits := hbits₁ ▸ hpre
  have hpeek := BitReader.peek_eq hr₁.ok hn₁
  have hw : (s₁.bits.take huffmanHashNbits).length = huffmanHashNbits := by
    rw [List.length_take, hbits₁]; omega
  rw [getNextHuffmanCode, hs₁]
  simp only [hpeek]
  by_cases hshort : c.length ≤ huffmanHashNbits
  · have hcw : c <+: s₁.bits.take huffmanHashNbits := by
      rw [List.prefix_take_iff]
      exact ⟨hpre₁, hshort⟩
    obtain ⟨hlook, hsize⟩ := hh.fast hc hshort hw hcw
    simp only [hlook, hsize]
    refine ⟨s₁.skip c.length, rfl, ?_⟩
    simpa using hr₁.trans (BitReader.skip_reads hr₁.ok (hshort.trans hn₁))
  · have hlong : huffmanHashNbits < c.length := Nat.lt_of_not_le hshort
    simp only [take_window hpre₁ (Nat.le_of_lt hlong), hh.miss hc hlong]
    obtain ⟨s', hs', hr'⟩ :=
      slowSearch_spec hh hc hlong 7 hr₁.ok hpre₁ (by decide)
        (by rw [huffmanHashNbits] at hlong; omega) (by omega)
    exact ⟨s', hs', by simpa using hr₁.trans hr'⟩

/-! ## Any input -/

theorem slowSearch_safe {table : HuffmanTable} : ∀ {ns : List Nat} {s s' : BitReader} {v : Nat},
    (∀ n ∈ ns, huffmanHashNbits < n ∧ n ≤ 16) → s.Ok → slowSearch table ns s = some (v, s') →
    ∃ k, Reads s k s' ∧ (v ≠ 0 → 1 ≤ k) ∧ table.Value v
  | [], s, s', v, _, hok, h => by
      simp only [slowSearch, Option.some.injEq, Prod.mk.injEq] at h
      obtain ⟨rfl, rfl⟩ := h
      exact ⟨0, .refl hok, by simp, Or.inl rfl⟩
  | n :: ns, s, s', v, hns, hok, h => by
      obtain ⟨hlo, hhi⟩ := hns n (List.mem_cons_self ..)
      rw [huffmanHashNbits] at hlo
      rw [slowSearch] at h
      split at h
      · cases h
      next s₁ hs₁ =>
        obtain ⟨hr₁, hn₁⟩ := BitReader.refill_reads hhi hok hs₁
        split at h
        next p hp =>
          simp only [Option.some.injEq, Prod.mk.injEq] at h
          obtain ⟨rfl, rfl⟩ := h
          have hrow : n - huffmanHashNbits - 1 < 7 := by rw [huffmanHashNbits]; omega
          refine ⟨n, by simpa using hr₁.trans (BitReader.skip_reads hr₁.ok hn₁), by omega, ?_⟩
          exact Or.inr (Or.inr ⟨_, hrow, p, List.mem_of_find?_eq_some hp, rfl⟩)
        · obtain ⟨k, hr, hk, hv⟩ :=
            slowSearch_safe (fun m hm => hns m (List.mem_cons_of_mem _ hm)) hr₁.ok h
          exact ⟨k, by simpa using hr₁.trans hr, hk, hv⟩

/-- On any input the decoder takes the bits it skips, and takes none only when
it comes back with 0. -/
theorem getNextHuffmanCode_safe {table : HuffmanTable} (ht : table.Safe) {s s' : BitReader}
    {v : Nat} (hok : s.Ok) (h : getNextHuffmanCode table s = some (v, s')) :
    ∃ k, Reads s k s' ∧ (v ≠ 0 → 1 ≤ k) ∧ table.Value v := by
  rw [getNextHuffmanCode] at h
  split at h
  · cases h
  next s₁ hs₁ =>
    obtain ⟨hr₁, hn₁⟩ := BitReader.refill_reads (by decide) hok hs₁
    split at h
    next value hv =>
      simp only [Option.some.injEq, Prod.mk.injEq] at h
      obtain ⟨rfl, rfl⟩ := h
      obtain ⟨hpos, hle⟩ := ht _ _ hv
      exact ⟨_, by simpa using hr₁.trans (BitReader.skip_reads hr₁.ok (hle.trans hn₁)),
        fun _ => hpos, Or.inr (Or.inl ⟨_, hv⟩)⟩
    · obtain ⟨k, hr, hk, hv⟩ := slowSearch_safe (by decide) hr₁.ok h
      exact ⟨k, by simpa using hr₁.trans hr, hk, hv⟩

theorem slowSearch_value {table : HuffmanTable} {ns : List Nat} {s s' : BitReader} {v : Nat}
    (hns : ∀ n ∈ ns, huffmanHashNbits < n ∧ n ≤ 16) (h : slowSearch table ns s = some (v, s')) :
    table.Value v := by
  induction ns generalizing s with
  | nil =>
      simp only [slowSearch, Option.some.injEq, Prod.mk.injEq] at h
      exact Or.inl h.1.symm
  | cons n ns ih =>
      obtain ⟨hlo, hhi⟩ := hns n (List.mem_cons_self ..)
      rw [slowSearch] at h
      split at h
      · cases h
      next s₁ _ =>
        split at h
        next p hp =>
          simp only [Option.some.injEq, Prod.mk.injEq] at h
          have hrow : n - huffmanHashNbits - 1 < 7 := by
            rw [huffmanHashNbits] at hlo ⊢
            omega
          exact Or.inr (Or.inr ⟨_, hrow, p, List.mem_of_find?_eq_some hp, h.1⟩)
        · exact ih (fun m hm => hns m (List.mem_cons_of_mem _ hm)) h

/-- A symbol comes from the table, whatever the reader holds. -/
theorem getNextHuffmanCode_value {table : HuffmanTable} {s s' : BitReader} {v : Nat}
    (h : getNextHuffmanCode table s = some (v, s')) : table.Value v := by
  rw [getNextHuffmanCode] at h
  split at h
  · cases h
  · split at h
    next value hv =>
      simp only [Option.some.injEq, Prod.mk.injEq] at h
      exact h.1 ▸ Or.inr (Or.inl ⟨_, hv⟩)
    · exact slowSearch_value (by decide) h

theorem slowSearch_some {table : HuffmanTable} {ns : List Nat} {s : BitReader}
    (hns : ∀ n ∈ ns, n ≤ 16) (hok : s.Ok) (hlen : 16 ≤ s.bits.length) :
    ∃ v s', slowSearch table ns s = some (v, s') := by
  induction ns generalizing s with
  | nil => exact ⟨0, s, rfl⟩
  | cons n ns ih =>
      have hn := hns n (List.mem_cons_self ..)
      obtain ⟨s₁, hs₁⟩ := BitReader.refill_some hn hok (hn.trans hlen)
      obtain ⟨hr₁, _⟩ := BitReader.refill_reads hn hok hs₁
      have hbits₁ : s₁.bits = s.bits := by simpa using hr₁.bits
      rw [slowSearch, hs₁]
      dsimp only
      split
      · exact ⟨_, _, rfl⟩
      · exact ih (fun m hm => hns m (List.mem_cons_of_mem _ hm)) hr₁.ok (hbits₁ ▸ hlen)

/-- With sixteen bits left the decoder comes back with a symbol. -/
theorem getNextHuffmanCode_some (table : HuffmanTable) {s : BitReader} (hok : s.Ok)
    (hlen : 16 ≤ s.bits.length) : ∃ v s', getNextHuffmanCode table s = some (v, s') := by
  obtain ⟨s₁, hs₁⟩ := BitReader.refill_some (n := huffmanHashNbits) (by decide) hok
    (le_trans (by decide) hlen)
  obtain ⟨hr₁, _⟩ := BitReader.refill_reads (by decide) hok hs₁
  have hbits₁ : s₁.bits = s.bits := by simpa using hr₁.bits
  rw [getNextHuffmanCode, hs₁]
  dsimp only
  split
  · exact ⟨_, _, rfl⟩
  · exact slowSearch_some (by decide) hr₁.ok (hbits₁ ▸ hlen)

theorem slowSearch_sound {table : HuffmanTable} {tbl : Table Nat} (hs : table.Sound tbl) :
    ∀ {ns : List Nat} {s s' : BitReader} {v : Nat}, (∀ n ∈ ns, huffmanHashNbits < n ∧ n ≤ 16) →
      s.Ok → slowSearch table ns s = some (v, s') →
      Reads s 0 s' ∨ ∃ c, (v, c) ∈ tbl ∧ c <+: s.bits ∧ Reads s c.length s'
  | [], s, s', v, _, hok, h => by
      simp only [slowSearch, Option.some.injEq, Prod.mk.injEq] at h
      obtain ⟨-, rfl⟩ := h
      exact Or.inl (.refl hok)
  | n :: ns, s, s', v, hns, hok, h => by
      obtain ⟨hlo, hhi⟩ := hns n (List.mem_cons_self ..)
      rw [slowSearch] at h
      split at h
      · cases h
      next s₁ hs₁ =>
        obtain ⟨hr₁, hn₁⟩ := BitReader.refill_reads hhi hok hs₁
        have hbits₁ : s₁.bits = s.bits := by simpa using hr₁.bits
        split at h
        next p hp =>
          simp only [Option.some.injEq, Prod.mk.injEq] at h
          obtain ⟨rfl, rfl⟩ := h
          obtain ⟨c, hc, rfl, hcode⟩ := hs.slow hlo hhi (List.mem_of_find?_eq_some hp)
          have hpeek := List.find?_some hp
          rw [decide_eq_true_eq, BitReader.peek_eq hr₁.ok hn₁, hbits₁, ← hcode] at hpeek
          have hav : c.length ≤ s.bits.length := by
            rw [← hbits₁, BitReader.bits, List.length_append, Bits.length_ofNat]
            omega
          have htake : c = s.bits.take c.length := Bits.eq_of_toNat (by simp [hav]) hpeek
          refine Or.inr ⟨c, hc, htake ▸ List.take_prefix .., ?_⟩
          simpa using hr₁.trans (BitReader.skip_reads hr₁.ok hn₁)
        · rcases slowSearch_sound hs (fun m hm => hns m (List.mem_cons_of_mem _ hm)) hr₁.ok h with
            hr | ⟨c, hc, hpre, hr⟩
          · exact Or.inl (by simpa using hr₁.trans hr)
          · exact Or.inr ⟨c, hc, hbits₁ ▸ hpre, by simpa using hr₁.trans hr⟩

/-- On any input the decoder takes a code the input begins with, or nothing. -/
theorem getNextHuffmanCode_sound {table : HuffmanTable} {tbl : Table Nat} (hs : table.Sound tbl)
    {s s' : BitReader} {v : Nat} (hok : s.Ok) (h : getNextHuffmanCode table s = some (v, s')) :
    huffmanHashNbits ≤ s.bits.length ∧
      (Reads s 0 s' ∨ ∃ c, (v, c) ∈ tbl ∧ c <+: s.bits ∧ Reads s c.length s') := by
  rw [getNextHuffmanCode] at h
  split at h
  · cases h
  next s₁ hs₁ =>
    obtain ⟨hr₁, hn₁⟩ := BitReader.refill_reads (by decide) hok hs₁
    have hbits₁ : s₁.bits = s.bits := by simpa using hr₁.bits
    have hav : huffmanHashNbits ≤ s.bits.length := by
      rw [← hbits₁, BitReader.bits, List.length_append, Bits.length_ofNat]
      omega
    refine ⟨hav, ?_⟩
    split at h
    next value hv =>
      simp only [Option.some.injEq, Prod.mk.injEq] at h
      obtain ⟨rfl, rfl⟩ := h
      rw [BitReader.peek_eq hr₁.ok hn₁, hbits₁] at hv
      obtain ⟨c, hc, hpre, hsize⟩ := hs.fast (by simp [hav]) hv
      have hlen := hpre.length_le
      rw [List.length_take, Nat.min_eq_left hav] at hlen
      rw [hsize]
      refine Or.inr ⟨c, hc, hpre.trans (List.take_prefix ..), ?_⟩
      simpa using hr₁.trans (BitReader.skip_reads hr₁.ok (hlen.trans hn₁))
    · rcases slowSearch_sound hs (by decide) hr₁.ok h with hr | ⟨c, hc, hpre, hr⟩
      · exact Or.inl (by simpa using hr₁.trans hr)
      · exact Or.inr ⟨c, hc, hbits₁ ▸ hpre, by simpa using hr₁.trans hr⟩

theorem getNbits_safe {n : Nat} (hn : n ≤ 16) {s s' : BitReader} {value : Nat} (hok : s.Ok)
    (h : getNbits n s = some (value, s')) : Reads s n s' := by
  rw [getNbits] at h
  split at h
  · cases h
  next s₁ hs₁ =>
    obtain ⟨hr₁, hn₁⟩ := BitReader.refill_reads hn hok hs₁
    simp only [Option.some.injEq, Prod.mk.injEq] at h
    rw [← h.2]
    simpa using hr₁.trans (BitReader.skip_reads hr₁.ok hn₁)

/-! ## Magnitudes -/

theorem getNbits_spec {n : Nat} (hn : n ≤ 16) {s : BitReader} (hok : s.Ok)
    (hlen : n ≤ s.bits.length) :
    ∃ s', getNbits n s = some (Bits.toNat (s.bits.take n), s') ∧ Reads s n s' := by
  obtain ⟨s₁, hs₁⟩ := BitReader.refill_some hn hok hlen
  obtain ⟨hr₁, hn₁⟩ := BitReader.refill_reads hn hok hs₁
  have hbits₁ : s₁.bits = s.bits := by simpa using hr₁.bits
  refine ⟨s₁.skip n, ?_, ?_⟩
  · rw [getNbits, hs₁]
    simp only [BitReader.peek_eq hr₁.ok hn₁, hbits₁]
  · simpa using hr₁.trans (BitReader.skip_reads hr₁.ok hn₁)

/-- The source's sign extension is the usual one for the sizes that fit a `short`. -/
theorem magnitude_eq {bits : List Bool} (h0 : bits ≠ []) (h15 : bits.length ≤ 15) :
    magnitude bits.length (Bits.toNat bits) = extend bits := by
  have hlt := Bits.toNat_lt bits
  have hpow : 2 ^ bits.length ≤ 2 ^ 15 := Nat.pow_le_pow_right (by omega) h15
  have h16 : int16 (Bits.toNat bits) = Bits.toNat bits := by
    rw [int16, Int.bmod_eq_of_le] <;> omega
  have hsplit : bits.length = bits.length - 1 + 1 :=
    (Nat.succ_pred_eq_of_pos (List.length_pos_iff.mpr h0)).symm
  have hmod : (Bits.toNat bits : Int) % 2 ^ 32 = Bits.toNat bits :=
    Int.emod_eq_of_lt (by omega) (by omega)
  rw [magnitude, extend, h16, hmod]
  by_cases hneg : Bits.toNat bits < 2 ^ (bits.length - 1)
  · have hneg' : (Bits.toNat bits : Int) < 2 ^ (bits.length - 1) := by exact_mod_cast hneg
    rw [if_pos hneg, if_pos hneg', int16]
    have hshift : (Bits.toNat bits : Int) + ((0xFFFFFFFF <<< bits.length : Nat) : Int) + 1 =
        Bits.toNat bits - 2 ^ bits.length + 1 + 65536 * (65536 * 2 ^ bits.length) := by
      rw [Nat.shiftLeft_eq]
      push_cast
      ring
    have hpow' : (2 : Int) ^ bits.length ≤ 2 ^ 15 := by exact_mod_cast hpow
    rw [hshift, show (65536 : Int) = ((65536 : Nat) : Int) from rfl, Int.add_mul_bmod_self_left,
      Int.bmod_eq_of_le] <;> omega
  · have hneg' : ¬ (Bits.toNat bits : Int) < 2 ^ (bits.length - 1) := by exact_mod_cast hneg
    rw [if_neg hneg, if_neg hneg']

end Recode
