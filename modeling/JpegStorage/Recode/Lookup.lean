import JpegStorage.Recode.Lossless
import JpegStorage.Recode.TableWriter

/-!
# Looking codes up

The decoder looks a code up in two levels, and plain decoding takes one bit after
the other.  For the tables JPEG allows the two agree but for three things
(`lookup_agrees_iff`): a slow row takes 127 pairs and nothing checks that more do
not come, a code of zero in a slow row is the mark of its end, and the window of
the fast table takes nine bits where a shorter code needs less.

The tables the tool writes itself are among those JPEG allows, and from 149 symbols
on the last slow row overflows.
-/

namespace Recode

open Canonical Baseline

/-! ## Tables -/

/-- A Huffman table JPEG allows: no code consists of ones only, so the Kraft sum is below
one. -/
structure JpegTable (bits vals : List Nat) : Prop extends ByteTable bits vals where
  /-- The Kraft sum. -/
  kraft : kraft 16 (lengthsOf bits) < 2 ^ 16

theorem JpegTable.prefixTable {bits vals : List Nat} (h : JpegTable bits vals) :
    PrefixTable bits vals where
  toByteTable := h.toByteTable
  fits := fits_of_kraft (fun _ hl => h.sizes ▸ (mem_lengthsOf hl).2) (lengthsOf_sorted bits)
    (Nat.le_of_lt h.kraft)

/-- The two levels are filled inside of their arrays, and looking up the next code
gives what decoding bit by bit gives. -/
def LookupAgrees (bits vals : List Nat) (old : HuffmanTable) (s : BitReader) : Prop :=
  ∃ t, buildHuffmanTable bits vals old = some t ∧
    ∃ v s', getNextHuffmanCode t s = some (v, s') ∧
      readBitwise (table bits vals) [] s.bits = some (v, s'.bits)

/-! ## Agreement -/

/-- Looking a code up agrees with decoding it bit by bit exactly when no slow row
overflows, the code is no long one that is zero, and nine bits are left. -/
theorem lookup_agrees_iff {bits vals : List Nat} (h : JpegTable bits vals) (old : HuffmanTable)
    {s : BitReader} (hok : s.Ok) {v : Nat} {c : List Bool} (hc : (v, c) ∈ table bits vals)
    (hpre : c <+: s.bits) :
    LookupAgrees bits vals old s ↔
      RowsHold bits ∧ (huffmanHashNbits < c.length → Bits.toNat c ≠ 0) ∧
        huffmanHashNbits ≤ s.bits.length := by
  have hplain : readBitwise (table bits vals) [] s.bits = some (v, s.bits.drop c.length) := by
    obtain ⟨rest, hrest⟩ := hpre
    rw [← hrest, List.drop_left]
    exact readBitwise_append h.prefixTable.prefixFree rest hc
  constructor
  · rintro ⟨t, hbuild, v', s', hnext, hsame⟩
    obtain ⟨tbl, _, hsound, hmem⟩ := h.prefixTable.exists_stored hbuild
    obtain ⟨hav, hfound⟩ := getNextHuffmanCode_sound hsound hok hnext
    refine ⟨(h.prefixTable.built_iff old).mp ⟨t, hbuild⟩, ?_, hav⟩
    rw [hplain, Option.some.injEq, Prod.mk.injEq] at hsame
    rcases hfound with hr | ⟨c', hc', hpre', _⟩
    · -- the bits of the code are still there
      have hkept : s.bits.drop c.length = s.bits := by simpa [hr.bits] using hsame.2
      have hlen := congrArg List.length hkept
      have hpos := (length_of_mem_table hc).1
      have hle := hpre.length_le
      rw [List.length_drop] at hlen
      omega
    · obtain ⟨hin, hne⟩ := hmem.mp hc'
      obtain ⟨-, rfl⟩ := code_unique h.prefixTable.prefixFree hin hc hpre' hpre
      exact hne
  · rintro ⟨hrows, hne, hav⟩
    obtain ⟨t, hbuild⟩ := (h.prefixTable.built_iff old).mpr hrows
    obtain ⟨tbl, hholds, _, hmem⟩ := h.prefixTable.exists_stored hbuild
    obtain ⟨s', hnext, hr⟩ := getNextHuffmanCode_spec hholds (hmem.mpr ⟨hc, hne⟩) hok hpre hav
    exact ⟨t, hbuild, v, s', hnext, by rw [hplain, hr.bits]⟩

/-- Two codes of one and two bits, and sixteen bits to read. -/
theorem lookup_agrees_iff_short :
    LookupAgrees smallDcBits [0, 2] .zero ⟨[0x90, 0x7f], 0, 0⟩ ↔
      RowsHold smallDcBits ∧ (huffmanHashNbits < [true, false].length →
        Bits.toNat [true, false] ≠ 0) ∧
        huffmanHashNbits ≤ (BitReader.mk [0x90, 0x7f] 0 0).bits.length :=
  lookup_agrees_iff (v := 2) ⟨⟨rfl, rfl, by decide, by decide⟩, by decide⟩ .zero
    ⟨Nat.one_pos, Nat.zero_le _⟩ (by decide) (by decide)

/-! ## The tables the tool writes -/

theorem OneHufftype.Built.jpegTable {t : OneHufftype} {cell : Nat → Int} (h : t.Built cell) :
    JpegTable t.sizeCounts t.symbols where
  sizes := by simp [sizeCounts]
  count := h.length_symbols.trans h.sum_sizeCounts.symm
  byte _ hv := h.symbols_lt hv
  nodup := h.nodup_symbols
  kraft := by
    have hall : Canonical.kraft 16 ((lengthsOf (oneSizeMax.drop 1)).take 256) < 2 ^ 16 := by
      decide +kernel
    rw [h.lengthsOf_sizeCounts]
    exact (kraft_le_of_sublist (List.take_sublist_take_left h.count_le)).trans_lt hall

/-- With 149 symbols the last slow row of the decoder overflows, so no code is looked up
as it is decoded bit by bit. -/
theorem written_table_overflows : ∃ u buf',
    buildTrees (buildHuffValUseful (fewCounts 149)) (fun _ => '0') = .ok (u, buf') ∧
      JpegTable u.ac0.sizeCounts u.ac0.symbols ∧
      ∃ (s : BitReader) (v : Nat) (c : List Bool), s.Ok ∧ huffmanHashNbits ≤ s.bits.length ∧
        (v, c) ∈ table u.ac0.sizeCounts u.ac0.symbols ∧ c <+: s.bits ∧
        ¬ LookupAgrees u.ac0.sizeCounts u.ac0.symbols .zero s := by
  obtain ⟨u, buf', hrun, hbuilt⟩ :=
    buildTrees_built (fun type i => countCell (fewCounts 149 type i)) fun _ => '0'
  have hcount : u.ac0.count = 149 := hbuilt.ac0.count_eq.trans (by decide +kernel)
  have hfirst : ((quotaCodes.take 149).map codeBits).head? = some [false] := by decide +kernel
  obtain ⟨cs, hcs⟩ := List.head?_eq_some_iff.mp hfirst
  obtain ⟨v, vs, hvs⟩ := List.exists_cons_of_length_pos
    (l := u.ac0.symbols) (by rw [hbuilt.ac0.length_symbols, hcount]; decide)
  refine ⟨u, buf', hrun, hbuilt.ac0.jpegTable, ⟨[0x00, 0x00], 0, 0⟩, v, [false],
    ⟨Nat.one_pos, Nat.zero_le _⟩, by decide, ?_, by decide, ?_⟩
  · rw [table, hbuilt.ac0.codes_sizeCounts, hcount, hcs, hvs]
    exact List.mem_cons_self ..
  · rintro ⟨t, hbuild, -⟩
    have hle := (hbuilt.ac0.buildHuffmanTable_iff .zero).mp ⟨t, hbuild⟩
    omega

end Recode
