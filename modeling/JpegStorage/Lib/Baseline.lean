import JpegStorage.Lib.Canonical
import Mathlib.Logic.Function.Basic

/-!
# Baseline entropy coding

What the entropy-coded bits of a baseline JPEG scan mean, apart from any
program.  A *token* is a Huffman symbol with the extra bits it announces.  A
block is one DC token and the AC tokens up to its end, and a sequence of blocks
is coded without separators.

Decoding is split in two.  `readUnits` turns bits into tokens, with one pair of
code tables per component.  `unitCoeffs` turns tokens into coefficients, DC
prediction included, and never looks at a code.  So two bit strings that carry
the same tokens under different tables carry the same coefficients.
`readUnits_encode` is the half of that argument about bits: tokens read with
one family of tables, written with another prefix-free family, are read back
unchanged.
-/

namespace Baseline

open Canonical

/-! ## Values -/

/-- A number stored in sixteen bits, two's complement. -/
def int16 (z : Int) : Int := z.bmod 65536

/-- The value of a magnitude field: a leading zero marks a negative number. -/
def extend (bits : List Bool) : Int :=
  if Bits.toNat bits < 2 ^ (bits.length - 1) then (Bits.toNat bits : Int) - 2 ^ bits.length + 1
  else Bits.toNat bits

/-! ## Tokens -/

/-- A symbol and its extra bits. -/
structure Token where
  /-- The Huffman symbol. -/
  symbol : Nat
  /-- The bits that follow it. -/
  extra : List Bool
deriving DecidableEq, Repr

/-- The number of extra bits of a DC symbol. -/
def dcSize (symbol : Nat) : Nat := symbol

/-- The number of extra bits of an AC symbol. -/
def acSize (symbol : Nat) : Nat := symbol % 16

/-- The zero run of an AC symbol. -/
def acRun (symbol : Nat) : Nat := symbol / 16

/-- Decode one token. -/
def readToken (size : Nat → Nat) (tbl : Table Nat) (bits : List Bool) :
    Option (Token × List Bool) :=
  match readSymbol tbl bits with
  | none => none
  | some (v, rest) =>
      if rest.length < size v then none
      else some (⟨v, rest.take (size v)⟩, rest.drop (size v))

/-- The bits of a token under a code. -/
def Token.encode (code : Nat → List Bool) (t : Token) : List Bool := code t.symbol ++ t.extra

theorem readToken_sound {size : Nat → Nat} {tbl : Table Nat} {bits rest : List Bool} {t : Token}
    (h : readToken size tbl bits = some (t, rest)) :
    ∃ c, (t.symbol, c) ∈ tbl ∧ bits = c ++ t.extra ++ rest ∧ t.extra.length = size t.symbol := by
  rw [readToken] at h
  cases hs : readSymbol tbl bits with
  | none => rw [hs] at h; cases h
  | some p =>
      obtain ⟨v, r⟩ := p
      rw [hs] at h
      by_cases hlt : r.length < size v
      · simp [hlt] at h
      · simp only [hlt, if_false, Option.some.injEq, Prod.mk.injEq] at h
        obtain ⟨rfl, rfl⟩ := h
        obtain ⟨c, hc, rfl⟩ := readSymbol_sound hs
        exact ⟨c, hc, by simp, by simp; omega⟩

theorem readToken_encode {size : Nat → Nat} {tbl : Table Nat} (hpf : PrefixFree tbl) {t : Token}
    (code : Nat → List Bool) (hc : (t.symbol, code t.symbol) ∈ tbl)
    (hlen : t.extra.length = size t.symbol) (rest : List Bool) :
    readToken size tbl (t.encode code ++ rest) = some (t, rest) := by
  rw [readToken, Token.encode, List.append_assoc, readSymbol_append hpf hc]
  simp [← hlen]

/-! ## Blocks -/

/-- The index after an AC token read at index `k`: 64 ends the block.  Reserved
symbols and runs past the block have none. -/
def acNext (k symbol : Nat) : Option Nat :=
  if acSize symbol = 0 then
    if acRun symbol = 0 then some 64
    else if acRun symbol = 15 then some (k + 16)
    else none
  else if 64 ≤ k + acRun symbol then none
  else some (k + acRun symbol + 1)

theorem acNext_zero {k k' v : Nat} (hsize : acSize v = 0) (h : acNext k v = some k') :
    (acRun v = 0 ∧ k' = 64) ∨ (acRun v = 15 ∧ k' = k + 16) := by
  rw [acNext, if_pos hsize] at h
  split at h
  next h0 => exact Or.inl ⟨h0, (Option.some.inj h).symm⟩
  · split at h
    next h15 => exact Or.inr ⟨h15, (Option.some.inj h).symm⟩
    · cases h

theorem acNext_coefficient {k k' v : Nat} (hsize : acSize v ≠ 0) (h : acNext k v = some k') :
    k + acRun v < 64 ∧ k' = k + acRun v + 1 := by
  rw [acNext, if_neg hsize] at h
  split at h
  · cases h
  next hlt => exact ⟨Nat.lt_of_not_le hlt, (Option.some.inj h).symm⟩

/-- Decode the AC tokens from index `k` on.  Every token moves the index, so 64
rounds are enough from index 1. -/
def readAC (tbl : Table Nat) : Nat → Nat → List Bool → Option (List Token × List Bool)
  | 0, _, _ => none
  | fuel + 1, k, bits =>
      if 64 ≤ k then some ([], bits)
      else
        match readToken acSize tbl bits with
        | none => none
        | some (t, bits) =>
            match acNext k t.symbol with
            | none => none
            | some k' =>
                match readAC tbl fuel k' bits with
                | none => none
                | some (ts, bits) => some (t :: ts, bits)

/-- A coded block. -/
structure BlockCode where
  /-- The DC token. -/
  dc : Token
  /-- The AC tokens. -/
  ac : List Token
deriving DecidableEq, Repr

/-- Decode one block. -/
def readBlock (dc ac : Table Nat) (bits : List Bool) : Option (BlockCode × List Bool) :=
  match readToken dcSize dc bits with
  | none => none
  | some (t, bits) =>
      match readAC ac 64 1 bits with
      | none => none
      | some (ts, bits) => some (⟨t, ts⟩, bits)

/-- The bits of a block under a DC and an AC code. -/
def BlockCode.encode (dc ac : Nat → List Bool) (b : BlockCode) : List Bool :=
  b.dc.encode dc ++ b.ac.flatMap (Token.encode ac)

/-- The DC difference of a block. -/
def BlockCode.diff (b : BlockCode) : Int := if b.dc.symbol = 0 then 0 else extend b.dc.extra

/-- Put the coefficients of AC tokens read from index `k` on. -/
def acCoeffs : Nat → List Int → List Token → List Int
  | _, block, [] => block
  | k, block, t :: ts =>
      acCoeffs ((acNext k t.symbol).getD 64)
        (if acSize t.symbol = 0 then block else block.set (k + acRun t.symbol) (extend t.extra)) ts

/-- The 64 coefficients of a block in coding order, for a DC prediction. -/
def BlockCode.coeffs (pred : Int) (b : BlockCode) : List Int :=
  acCoeffs 1 ((List.replicate 64 0).set 0 (int16 (pred + b.diff))) b.ac

/-! ## Sequences of blocks -/

/-- Decode one block for each component named, in that order. -/
def readUnits (dc ac : Nat → Table Nat) : List Nat → List Bool →
    Option (List BlockCode × List Bool)
  | [], bits => some ([], bits)
  | c :: cs, bits =>
      match readBlock (dc c) (ac c) bits with
      | none => none
      | some (b, bits) =>
          match readUnits dc ac cs bits with
          | none => none
          | some (bs, bits) => some (b :: bs, bits)

/-- The bits of the blocks of the components named. -/
def encodeUnits (dc ac : Nat → Nat → List Bool) : List Nat → List BlockCode → List Bool
  | c :: cs, b :: bs => b.encode (dc c) (ac c) ++ encodeUnits dc ac cs bs
  | _, _ => []

/-- The predictions after a block of a component. -/
def nextPred (pred : Nat → Int) (c : Nat) (b : BlockCode) : Nat → Int :=
  Function.update pred c (int16 (pred c + b.diff))

/-- The coefficients of the blocks of the components named, each component
predicting its DC coefficient from the block before. -/
def unitCoeffs : (Nat → Int) → List Nat → List BlockCode → List (List Int)
  | pred, c :: cs, b :: bs => b.coeffs (pred c) :: unitCoeffs (nextPred pred c b) cs bs
  | _, _, _ => []

/-- The predictions after the blocks of the components named. -/
def unitPreds : (Nat → Int) → List Nat → List BlockCode → Nat → Int
  | pred, c :: cs, b :: bs => unitPreds (nextPred pred c b) cs bs
  | pred, _, _ => pred

/-- Plain decoding: blocks of coefficients and the bits left over. -/
def decodeUnits (dc ac : Nat → Table Nat) (cs : List Nat) (bits : List Bool) :
    Option (List (List Int) × List Bool) :=
  (readUnits dc ac cs bits).map fun r => (unitCoeffs (fun _ => 0) cs r.1, r.2)

/-! ## What reading does -/

theorem readAC_succ_iff {tbl : Table Nat} {fuel k : Nat} {bits rest : List Bool}
    {ts : List Token} : readAC tbl (fuel + 1) k bits = some (ts, rest) ↔
      (64 ≤ k ∧ ts = [] ∧ rest = bits) ∨
      (k < 64 ∧ ∃ t bits₁ k' ts₁, readToken acSize tbl bits = some (t, bits₁) ∧
        acNext k t.symbol = some k' ∧ readAC tbl fuel k' bits₁ = some (ts₁, rest) ∧
          ts = t :: ts₁) := by
  rw [readAC]
  constructor
  · intro h
    split at h
    next hk =>
      cases h
      exact Or.inl ⟨hk, rfl, rfl⟩
    next hk =>
      split at h
      · cases h
      next t bits₁ ht =>
        split at h
        · cases h
        next k' hk' =>
          split at h
          · cases h
          next ts₁ rest₁ hts =>
            cases h
            exact Or.inr ⟨Nat.lt_of_not_le hk, t, bits₁, k', ts₁, ht, hk', hts, rfl⟩
  · rintro (⟨hk, rfl, rfl⟩ | ⟨hk, t, bits₁, k', ts₁, ht, hk', hts, rfl⟩)
    · rw [if_pos hk]
    · simp only [if_neg (Nat.not_le_of_lt hk), ht, hk', hts]

theorem readBlock_iff {dc ac : Table Nat} {bits rest : List Bool} {b : BlockCode} :
    readBlock dc ac bits = some (b, rest) ↔
      ∃ bits₁, readToken dcSize dc bits = some (b.dc, bits₁) ∧
        readAC ac 64 1 bits₁ = some (b.ac, rest) := by
  rw [readBlock]
  constructor
  · intro h
    split at h
    · cases h
    next t bits₁ ht =>
      split at h
      · cases h
      next ts rest₁ hts =>
        cases h
        exact ⟨bits₁, ht, hts⟩
  · rintro ⟨bits₁, ht, hts⟩
    simp only [ht, hts]

theorem readUnits_nil_iff {dc ac : Nat → Table Nat} {bits rest : List Bool}
    {us : List BlockCode} : readUnits dc ac [] bits = some (us, rest) ↔ us = [] ∧ rest = bits := by
  rw [readUnits, Option.some.injEq, Prod.mk.injEq]
  exact and_congr eq_comm eq_comm

theorem readUnits_cons_iff {dc ac : Nat → Table Nat} {c : Nat} {cs : List Nat}
    {bits rest : List Bool} {us : List BlockCode} :
    readUnits dc ac (c :: cs) bits = some (us, rest) ↔
      ∃ b bits₁ us₁, readBlock (dc c) (ac c) bits = some (b, bits₁) ∧
        readUnits dc ac cs bits₁ = some (us₁, rest) ∧ us = b :: us₁ := by
  rw [readUnits]
  constructor
  · intro h
    split at h
    · cases h
    next b bits₁ hb =>
      split at h
      · cases h
      next us₁ rest₁ hus =>
        cases h
        exact ⟨b, bits₁, us₁, hb, hus, rfl⟩
  · rintro ⟨b, bits₁, us₁, hb, hus, rfl⟩
    simp only [hb, hus]

/-! ## What reading says about the tokens -/

/-- A token that a table can have produced. -/
def Token.Ok (size : Nat → Nat) (tbl : Table Nat) (t : Token) : Prop :=
  t.extra.length = size t.symbol ∧ ∃ c, (t.symbol, c) ∈ tbl

/-- The tokens of a block come from its tables. -/
def BlockCode.Ok (dc ac : Table Nat) (b : BlockCode) : Prop :=
  b.dc.Ok dcSize dc ∧ ∀ t ∈ b.ac, t.Ok acSize ac

theorem Token.ok_of_readToken {size : Nat → Nat} {tbl : Table Nat} {bits rest : List Bool}
    {t : Token} (h : readToken size tbl bits = some (t, rest)) : t.Ok size tbl := by
  obtain ⟨c, hc, _, hlen⟩ := readToken_sound h
  exact ⟨hlen, c, hc⟩

theorem readAC_ok {tbl : Table Nat} : ∀ {fuel k : Nat} {bits rest : List Bool} {ts : List Token},
    readAC tbl fuel k bits = some (ts, rest) → ∀ t ∈ ts, t.Ok acSize tbl
  | 0, _, _, _, _, h => by simp [readAC] at h
  | fuel + 1, k, bits, rest, ts, h => by
      rcases readAC_succ_iff.mp h with
        ⟨_, rfl, _⟩ | ⟨_, t₁, bits₁, k', ts₁, ht₁, _, hts, rfl⟩
      · exact List.forall_mem_nil _
      · exact List.forall_mem_cons.mpr ⟨Token.ok_of_readToken ht₁, readAC_ok hts⟩

theorem readBlock_ok {dc ac : Table Nat} {bits rest : List Bool} {b : BlockCode}
    (h : readBlock dc ac bits = some (b, rest)) : b.Ok dc ac := by
  obtain ⟨bits₁, ht, hts⟩ := readBlock_iff.mp h
  exact ⟨Token.ok_of_readToken ht, readAC_ok hts⟩

/-- The tokens of a sequence of blocks come from the tables of their components. -/
def UnitsOk (dc ac : Nat → Table Nat) : List Nat → List BlockCode → Prop
  | c :: cs, b :: bs => b.Ok (dc c) (ac c) ∧ UnitsOk dc ac cs bs
  | _, _ => True

/-! ## What reading says about the bits -/

theorem readToken_length_le {size : Nat → Nat} {tbl : Table Nat} {bits rest : List Bool}
    {t : Token} (h : readToken size tbl bits = some (t, rest)) : rest.length ≤ bits.length := by
  obtain ⟨c, _, hbits, _⟩ := readToken_sound h
  rw [hbits, List.length_append]
  exact Nat.le_add_left ..

theorem readAC_length_le {tbl : Table Nat} : ∀ {fuel k : Nat} {bits rest : List Bool}
    {ts : List Token}, readAC tbl fuel k bits = some (ts, rest) → rest.length ≤ bits.length
  | 0, _, _, _, _, h => by simp [readAC] at h
  | fuel + 1, k, bits, rest, ts, h => by
      rcases readAC_succ_iff.mp h with
        ⟨_, _, rfl⟩ | ⟨_, t, bits₁, k', ts₁, ht, _, hts, _⟩
      · exact Nat.le_refl _
      · exact (readAC_length_le hts).trans (readToken_length_le ht)

theorem readBlock_length_le {dc ac : Table Nat} {bits rest : List Bool} {b : BlockCode}
    (h : readBlock dc ac bits = some (b, rest)) : rest.length ≤ bits.length := by
  obtain ⟨bits₁, ht, hts⟩ := readBlock_iff.mp h
  exact (readAC_length_le hts).trans (readToken_length_le ht)

theorem readUnits_length_le {dc ac : Nat → Table Nat} : ∀ {cs : List Nat} {bits rest : List Bool}
    {us : List BlockCode}, readUnits dc ac cs bits = some (us, rest) → rest.length ≤ bits.length
  | [], _, _, _, h => by rw [(readUnits_nil_iff.mp h).2]
  | c :: cs, _, _, _, h => by
      obtain ⟨b, bits₁, us₁, hb, hus, _⟩ := readUnits_cons_iff.mp h
      exact (readUnits_length_le hus).trans (readBlock_length_le hb)

theorem readUnits_ok {dc ac : Nat → Table Nat} : ∀ {cs : List Nat} {bits rest : List Bool}
    {us : List BlockCode}, readUnits dc ac cs bits = some (us, rest) → UnitsOk dc ac cs us
  | [], _, _, _, _ => trivial
  | c :: cs, _, _, _, h => by
      obtain ⟨b, bits₁, us₁, hb, hus, rfl⟩ := readUnits_cons_iff.mp h
      exact ⟨readBlock_ok hb, readUnits_ok hus⟩

/-- Reading the blocks of two lists of components is reading those of one after
the other. -/
theorem readUnits_append {dc ac : Nat → Table Nat} : ∀ {cs cs' : List Nat} {bits rest : List Bool}
    {us : List BlockCode}, readUnits dc ac (cs ++ cs') bits = some (us, rest) →
    ∃ mid us₁ us₂, readUnits dc ac cs bits = some (us₁, mid) ∧
      readUnits dc ac cs' mid = some (us₂, rest) ∧ us = us₁ ++ us₂ ∧ us₁.length = cs.length
  | [], _, bits, _, us, h => ⟨bits, [], us, rfl, h, rfl, rfl⟩
  | c :: cs, cs', _, _, _, h => by
      rw [List.cons_append] at h
      obtain ⟨b, bits₁, us', hb, hus, rfl⟩ := readUnits_cons_iff.mp h
      obtain ⟨mid, us₁, us₂, h₁, h₂, rfl, hlen⟩ := readUnits_append hus
      refine ⟨mid, b :: us₁, us₂, ?_, h₂, rfl, by simp [hlen]⟩
      exact readUnits_cons_iff.mpr ⟨b, bits₁, us₁, hb, h₁, rfl⟩

theorem unitCoeffs_append : ∀ (pred : Nat → Int) (cs cs' : List Nat) {us us' : List BlockCode},
    us.length = cs.length →
    unitCoeffs pred (cs ++ cs') (us ++ us') =
      unitCoeffs pred cs us ++ unitCoeffs (unitPreds pred cs us) cs' us'
  | _, [], _, [], _, _ => by simp [unitCoeffs, unitPreds]
  | _, [], _, _ :: _, _, h => by simp at h
  | _, _ :: _, _, [], _, h => by simp at h
  | pred, c :: cs, cs', u :: us, us', h => by
      have hlen : us.length = cs.length := by simpa using h
      rw [List.cons_append, List.cons_append, unitCoeffs, unitCoeffs, unitPreds,
        unitCoeffs_append _ cs cs' hlen, List.cons_append]

theorem unitPreds_append : ∀ (pred : Nat → Int) (cs cs' : List Nat) {us us' : List BlockCode},
    us.length = cs.length →
    unitPreds pred (cs ++ cs') (us ++ us') = unitPreds (unitPreds pred cs us) cs' us'
  | _, [], _, [], _, _ => rfl
  | _, [], _, _ :: _, _, h => by simp at h
  | _, _ :: _, _, [], _, h => by simp at h
  | pred, c :: cs, cs', u :: us, us', h => by
      have hlen : us.length = cs.length := by simpa using h
      rw [List.cons_append, List.cons_append, unitPreds, unitPreds, unitPreds_append _ cs cs' hlen]

/-- Predictions stay sixteen-bit numbers. -/
theorem int16_nextPred {pred : Nat → Int} (h : ∀ c, int16 (pred c) = pred c) (c : Nat)
    (b : BlockCode) : ∀ c', int16 (nextPred pred c b c') = nextPred pred c b c' := by
  intro c'
  rw [nextPred]
  by_cases hc : c' = c
  · subst hc
    rw [Function.update_self, int16, int16, Int.bmod_bmod]
  · rw [Function.update_of_ne hc, h]

/-! ## More input -/

theorem readToken_more {size : Nat → Nat} {tbl : Table Nat} (hpf : PrefixFree tbl)
    {bits rest : List Bool} {t : Token} (h : readToken size tbl bits = some (t, rest))
    (more : List Bool) : readToken size tbl (bits ++ more) = some (t, rest ++ more) := by
  obtain ⟨c, hc, rfl, hlen⟩ := readToken_sound h
  rw [List.append_assoc]
  exact readToken_encode hpf (fun _ => c) hc hlen (rest ++ more)

theorem readAC_more {tbl : Table Nat} (hpf : PrefixFree tbl) (more : List Bool) :
    ∀ {fuel k : Nat} {bits rest : List Bool} {ts : List Token},
      readAC tbl fuel k bits = some (ts, rest) →
      readAC tbl fuel k (bits ++ more) = some (ts, rest ++ more)
  | 0, _, _, _, _, h => by simp [readAC] at h
  | fuel + 1, k, bits, rest, ts, h => by
      rcases readAC_succ_iff.mp h with
        ⟨hk, rfl, rfl⟩ | ⟨hk, t, bits₁, k', ts₁, ht, hk', hts, rfl⟩
      · exact readAC_succ_iff.mpr (Or.inl ⟨hk, rfl, rfl⟩)
      · exact readAC_succ_iff.mpr (Or.inr ⟨hk, t, bits₁ ++ more, k', ts₁,
          readToken_more hpf ht more, hk', readAC_more hpf more hts, rfl⟩)

theorem readBlock_more {dc ac : Table Nat} (hdc : PrefixFree dc) (hac : PrefixFree ac)
    {bits rest : List Bool} {b : BlockCode} (h : readBlock dc ac bits = some (b, rest))
    (more : List Bool) : readBlock dc ac (bits ++ more) = some (b, rest ++ more) := by
  obtain ⟨bits₁, ht, hts⟩ := readBlock_iff.mp h
  exact readBlock_iff.mpr ⟨bits₁ ++ more, readToken_more hdc ht more, readAC_more hac more hts⟩

/-- Bits behind the coded ones do not matter. -/
theorem readUnits_more {dc ac : Nat → Table Nat} (more : List Bool) : ∀ {cs : List Nat}
    {bits rest : List Bool} {us : List BlockCode}, (∀ c ∈ cs, PrefixFree (dc c)) →
    (∀ c ∈ cs, PrefixFree (ac c)) → readUnits dc ac cs bits = some (us, rest) →
    readUnits dc ac cs (bits ++ more) = some (us, rest ++ more)
  | [], _, _, _, _, _, h => by
      obtain ⟨rfl, rfl⟩ := readUnits_nil_iff.mp h
      rfl
  | c :: cs, _, _, _, hdc, hac, h => by
      obtain ⟨b, bits₁, us₁, hb, hus, rfl⟩ := readUnits_cons_iff.mp h
      have hb' := readBlock_more (hdc c (List.mem_cons_self ..)) (hac c (List.mem_cons_self ..))
        hb more
      have hus' := readUnits_more more (fun c hc => hdc c (List.mem_cons_of_mem _ hc))
        (fun c hc => hac c (List.mem_cons_of_mem _ hc)) hus
      exact readUnits_cons_iff.mpr ⟨b, bits₁ ++ more, us₁, hb', hus', rfl⟩

/-! ## Writing with other tables and reading back -/

theorem readAC_encode {tbl tbl' : Table Nat} (hpf : PrefixFree tbl') {code : Nat → List Bool} :
    ∀ {fuel k : Nat} {bits rest : List Bool} {ts : List Token},
      readAC tbl fuel k bits = some (ts, rest) →
      (∀ t ∈ ts, (t.symbol, code t.symbol) ∈ tbl') →
      ∀ rest', readAC tbl' fuel k (ts.flatMap (Token.encode code) ++ rest') = some (ts, rest')
  | 0, _, _, _, _, h, _, _ => by simp [readAC] at h
  | fuel + 1, k, bits, rest, ts, h, hcode, rest' => by
      rcases readAC_succ_iff.mp h with
        ⟨hk, rfl, rfl⟩ | ⟨hk, t₁, bits₁, k', ts₁, ht₁, hk', hts, rfl⟩
      · exact readAC_succ_iff.mpr (Or.inl ⟨hk, rfl, rfl⟩)
      · obtain ⟨hhead, htail⟩ := List.forall_mem_cons.mp hcode
        have hlen := (Token.ok_of_readToken ht₁).1
        rw [List.flatMap_cons, List.append_assoc]
        exact readAC_succ_iff.mpr (Or.inr ⟨hk, t₁, _, k', ts₁,
          readToken_encode hpf code hhead hlen _, hk', readAC_encode hpf hts htail rest', rfl⟩)

theorem readBlock_encode {dc ac dc' ac' : Table Nat} (hdc : PrefixFree dc') (hac : PrefixFree ac')
    {dcCode acCode : Nat → List Bool} {bits rest : List Bool} {b : BlockCode}
    (h : readBlock dc ac bits = some (b, rest))
    (hdcCode : (b.dc.symbol, dcCode b.dc.symbol) ∈ dc')
    (hacCode : ∀ t ∈ b.ac, (t.symbol, acCode t.symbol) ∈ ac') (rest' : List Bool) :
    readBlock dc' ac' (b.encode dcCode acCode ++ rest') = some (b, rest') := by
  obtain ⟨bits₁, ht, hts⟩ := readBlock_iff.mp h
  have hlen := (Token.ok_of_readToken ht).1
  rw [BlockCode.encode, List.append_assoc]
  exact readBlock_iff.mpr ⟨_, readToken_encode hdc dcCode hdcCode hlen _,
    readAC_encode hac hts hacCode rest'⟩

/-- The new codes cover the tokens of a sequence of blocks. -/
def Covers (dc' ac' : Nat → Table Nat) (dcCode acCode : Nat → Nat → List Bool) :
    List Nat → List BlockCode → Prop
  | c :: cs, b :: bs =>
      (b.dc.symbol, dcCode c b.dc.symbol) ∈ dc' c ∧
      (∀ t ∈ b.ac, (t.symbol, acCode c t.symbol) ∈ ac' c) ∧
      Covers dc' ac' dcCode acCode cs bs
  | _, _ => True

/-- Tokens read with one family of tables and written with another prefix-free
one are read back unchanged. -/
theorem readUnits_encode {dc ac dc' ac' : Nat → Table Nat} (hdc : ∀ c, PrefixFree (dc' c))
    (hac : ∀ c, PrefixFree (ac' c)) {dcCode acCode : Nat → Nat → List Bool} :
    ∀ {cs : List Nat} {bits rest : List Bool} {bs : List BlockCode},
      readUnits dc ac cs bits = some (bs, rest) → Covers dc' ac' dcCode acCode cs bs →
      ∀ rest', readUnits dc' ac' cs (encodeUnits dcCode acCode cs bs ++ rest') = some (bs, rest')
  | [], _, _, _, h, _, rest' => by
      obtain ⟨rfl, rfl⟩ := readUnits_nil_iff.mp h
      exact readUnits_nil_iff.mpr ⟨rfl, rfl⟩
  | c :: cs, bits, rest, bs, h, hcov, rest' => by
      obtain ⟨b, bits₁, bs₁, hb, hbs, rfl⟩ := readUnits_cons_iff.mp h
      obtain ⟨hdcCode, hacCode, hcov⟩ := hcov
      rw [encodeUnits, List.append_assoc]
      exact readUnits_cons_iff.mpr ⟨b, _, bs₁,
        readBlock_encode (hdc c) (hac c) hb hdcCode hacCode _,
        readUnits_encode hdc hac hbs hcov rest', rfl⟩

/-- The same statement about coefficients. -/
theorem decodeUnits_encode {dc ac dc' ac' : Nat → Table Nat} (hdc : ∀ c, PrefixFree (dc' c))
    (hac : ∀ c, PrefixFree (ac' c)) {dcCode acCode : Nat → Nat → List Bool} {cs : List Nat}
    {bits rest : List Bool} {bs : List BlockCode} (h : readUnits dc ac cs bits = some (bs, rest))
    (hcov : Covers dc' ac' dcCode acCode cs bs) :
    decodeUnits dc' ac' cs (encodeUnits dcCode acCode cs bs) =
      some (unitCoeffs (fun _ => 0) cs bs, []) := by
  have hread := readUnits_encode hdc hac h hcov []
  rw [List.append_nil] at hread
  rw [decodeUnits, hread]
  rfl

end Baseline
