import JpegStorage.Recode.Header
import JpegStorage.Recode.Passes

/-!
# Writing the new tables

`Write_Huffman_Table` writes the four new tables as DHT data behind a marker that
is there already.  Images of type 0 get one segment with the four tables, images
of type 1 a segment for each table.  Numbers go out as strings of binary digits
of which a byte shows the last eight.

`encoder_codes_canonical` says that a decoder derives the codes of the encoder from
the counts and the values written.  `single_segment_agrees` is the exact condition
under which the parser reads the single segment back: the length has to fit its low
byte, and the slow rows of the decoder have to hold the long codes.  The four segments
are never read back.  The last one lacks the high byte of its length.
-/

namespace Recode

open Canonical Segments

/-! ## The writer -/

/-- `WriteNewData_Stream.operator<<=(8); WriteNewData_Stream_Bits = 0`. -/
def Writer.clear (w : Writer) : Writer := { w with stream := shiftLeft8 w.stream 8, bits := 0 }

/-- `Write_One_Huffman_Table`. -/
def writeOneHuffmanTable (str : List Char) (w : Writer) : Writer :=
  let w := { w with stream := w.stream ||| fullString8 str }
  (w.put w.stream).clear

/-- The class and the number of a table, the counts of its code sizes and its
values. -/
def writeTable (index : Nat) (t : OneHufftype) (w : Writer) : Writer :=
  let w := w.put index
  let w := t.sizeCounts.foldl (fun w (n : Nat) => writeOneHuffmanTable (tobin n) w.clear) w
  t.symbols.foldl (fun w (val : Nat) => (writeOneHuffmanTable (tobin val) w.clear).clear) w

/-- `Write_Huffman_Table`. -/
def writeHuffmanTable (type : Nat) (u : HuffValUseful) (w : Writer) : Writer :=
  let w := w.put 0x00
  let tableLength :=
    if type = 0 then 70 + u.dc0.count + u.dc1.count + u.ac0.count + u.ac1.count
    else 19 + u.dc0.count
  let w := writeOneHuffmanTable (tobin tableLength) w
  let w := writeTable 0x00 u.dc0 w
  let w :=
    if type = 1 then
      writeOneHuffmanTable (tobin (19 + u.ac0.count : Nat)) (((w.put 0xff).put 0xc4).put 0x00)
    else w
  let w := writeTable 0x10 u.ac0 w
  let w :=
    if type = 1 then
      writeOneHuffmanTable (tobin (19 + u.dc1.count : Nat)) (((w.put 0xff).put 0xc4).put 0x00)
    else w
  let w := writeTable 0x01 u.dc1 w
  -- no zero byte in front of this length
  let w :=
    if type = 1 then writeOneHuffmanTable (tobin (19 + u.ac1.count : Nat)) ((w.put 0xff).put 0xc4)
    else w
  writeTable 0x11 u.ac1 w

/-! ## The bytes written -/

/-- A byte shows the last eight bits of a number. -/
theorem fullString8_tobin {n : Nat} (h : n < 2 ^ 19) : fullString8 (tobin n) = n % 256 := by
  have hspell : ∃ w, tobin n = (Bits.ofNat w n).map bitChar ∧ n < 2 ^ w := by
    cases n with
    | zero => exact ⟨1, tobin_ofNat Nat.one_pos (by omega) (by omega) (Or.inl rfl), by omega⟩
    | succ n =>
        have hlog : (n + 1).log2 < 19 := (Nat.log2_lt n.succ_ne_zero).mpr h
        have hlt : n + 1 < 2 ^ ((n + 1).log2 + 1) := Nat.lt_log2_self
        have hle : 2 ^ ((n + 1).log2 + 1 - 1) ≤ n + 1 := Nat.log2_self_le n.succ_ne_zero
        exact ⟨_, tobin_ofNat (Nat.succ_pos _) hlog hlt (Or.inr hle), hlt⟩
  obtain ⟨w, hstr, hlt⟩ := hspell
  rw [hstr, fullString8, stringBits_eq _ _ (by rw [Nat.zero_add]), stringToBits_bitChar,
    Nat.sub_zero, Nat.sub_self, List.drop_zero, List.take_of_length_le (by simp),
    Bits.toNat_ofNat_of_lt hlt]

/-- A writer with an empty set, with these bytes more in the file. -/
def Writer.emit (w : Writer) (bytes : List UInt8) : Writer :=
  { w with stream := 0, bits := 0, out := w.out ++ bytes }

@[simp] theorem Writer.emit_put (w : Writer) (bytes : List UInt8) (n : Nat) :
    (w.emit bytes).put n = w.emit (bytes ++ [UInt8.ofNat n]) := by
  simp only [Writer.emit, Writer.put, List.append_assoc]

@[simp] theorem Writer.emit_clear (w : Writer) (bytes : List UInt8) :
    (w.emit bytes).clear = w.emit bytes := rfl

theorem writeOneHuffmanTable_emit {n : Nat} (h : n < 2 ^ 19) (w : Writer) (bytes : List UInt8) :
    writeOneHuffmanTable (tobin n) (w.emit bytes) = w.emit (bytes ++ [UInt8.ofNat n]) := by
  have hbyte : UInt8.ofNat (n % 256) = UInt8.ofNat n := UInt8.toNat_inj.mp (by simp)
  simp only [writeOneHuffmanTable, Writer.emit, Writer.put, Writer.clear, fullString8_tobin h,
    Nat.zero_or, hbyte, shiftLeft8_eight, List.append_assoc]

/-- Numbers written one by one. -/
theorem foldl_emit {f : Writer → Nat → Writer}
    (hf : ∀ (w : Writer) bytes n, n < 2 ^ 19 → f (w.emit bytes) n = w.emit (bytes ++ [UInt8.ofNat n]))
    (w : Writer) {ns : List Nat} (hns : ∀ n ∈ ns, n < 2 ^ 19) (bytes : List UInt8) :
    ns.foldl f (w.emit bytes) = w.emit (bytes ++ ns.map UInt8.ofNat) := by
  induction ns generalizing bytes with
  | nil => rw [List.foldl_nil, List.map_nil, List.append_nil]
  | cons n ns ih =>
      rw [List.foldl_cons, hf _ _ _ (hns n (List.mem_cons_self ..)),
        ih fun m hm => hns m (List.mem_cons_of_mem _ hm), List.append_assoc]
      rfl

/-- A table as it stands in a segment. -/
def tableBytes (index : UInt8) (t : OneHufftype) : List UInt8 :=
  index :: (t.sizeCounts.map UInt8.ofNat ++ t.symbols.map UInt8.ofNat)

namespace OneHufftype.Built

variable {t : OneHufftype} {cell : Nat → Int}

theorem length_symbols (h : t.Built cell) : t.symbols.length = t.count := by
  rw [symbols, List.length_take, h.length_val, Nat.min_eq_left h.count_le]

theorem count_eq (h : t.Built cell) : t.count = (usedSymbols cell (List.range 256)).length := by
  rw [← h.val.length_eq, List.length_take, h.length_val, Nat.min_eq_left h.count_le]

theorem sum_sizeCounts (h : t.Built cell) : t.sizeCounts.sum = t.count := by
  have hquota : (lengthsOf (oneSizeMax.drop 1)).length = 277 := by decide +kernel
  rw [← length_lengthsOf, h.lengthsOf_sizeCounts, List.length_take, hquota]
  exact Nat.min_eq_left (h.count_le.trans (by omega))

theorem symbols_lt (h : t.Built cell) {v : Nat} (hv : v ∈ t.symbols) : v < 256 :=
  (h.mem_symbols.mp hv).1

/-- No more than 235 codes have one size. -/
theorem sizeCounts_lt (h : t.Built cell) {n : Nat} (hn : n ∈ t.sizeCounts) : n < 256 := by
  rw [sizeCounts, List.mem_map] at hn
  obtain ⟨i, _, rfl⟩ := hn
  have hsize : ∀ i < 16, ((quotaCodes.take 256).countP fun e => e.2 = i + 1) < 256 := by
    decide +kernel
  have hi : i < 16 := List.mem_range.mp ‹_›
  have hsub : (quotaCodes.take t.count).Sublist (quotaCodes.take 256) :=
    (List.take_sublist_take_left h.count_le)
  rw [h.code, List.countP_map]
  have hcount := hsub.countP_le (p := fun e => decide (e.2 = i + 1))
  refine Nat.lt_of_le_of_lt ?_ (hsize i hi)
  refine Nat.le_trans (Nat.le_of_eq (List.countP_congr fun e _ => ?_)) hcount
  simp

theorem length_tableBytes (h : t.Built cell) (index : UInt8) :
    (tableBytes index t).length = 17 + t.count := by
  rw [tableBytes, List.length_cons, List.length_append, List.length_map, List.length_map,
    h.length_symbols, sizeCounts, List.length_map, List.length_range]
  omega

theorem writeTable_emit (h : t.Built cell) (index : Nat) (w : Writer) (bytes : List UInt8) :
    writeTable index t (w.emit bytes) = w.emit (bytes ++ tableBytes (UInt8.ofNat index) t) := by
  have hone : ∀ (w : Writer) bytes (n : Nat), n < 2 ^ 19 →
      writeOneHuffmanTable (tobin n) (w.emit bytes).clear = w.emit (bytes ++ [UInt8.ofNat n]) := by
    intro w bytes n hn
    rw [Writer.emit_clear, writeOneHuffmanTable_emit hn]
  have htwo : ∀ (w : Writer) bytes (n : Nat), n < 2 ^ 19 →
      (writeOneHuffmanTable (tobin n) (w.emit bytes).clear).clear =
        w.emit (bytes ++ [UInt8.ofNat n]) := by
    intro w bytes n hn
    rw [hone w bytes n hn, Writer.emit_clear]
  have hcounts : ∀ n ∈ t.sizeCounts, n < 2 ^ 19 := fun n hn => (h.sizeCounts_lt hn).trans (by omega)
  have hsymbols : ∀ n ∈ t.symbols, n < 2 ^ 19 := fun n hn => (h.symbols_lt hn).trans (by omega)
  rw [writeTable, Writer.emit_put, foldl_emit hone w hcounts, foldl_emit htwo w hsymbols, tableBytes]
  simp only [List.append_assoc, List.cons_append, List.nil_append]

end OneHufftype.Built

/-- The four tables behind one length. -/
def singleSegment (u : HuffValUseful) : List UInt8 :=
  tableBytes 0x00 u.dc0 ++ tableBytes 0x10 u.ac0 ++ tableBytes 0x01 u.dc1 ++ tableBytes 0x11 u.ac1

/-- The number of values in the four tables. -/
def HuffValUseful.total (u : HuffValUseful) : Nat :=
  u.dc0.count + u.dc1.count + u.ac0.count + u.ac1.count

/-- The four tables are built from these counts. -/
structure HuffValUseful.Built (u : HuffValUseful) (cell : Nat → Nat → Int) : Prop where
  /-- `DC0`. -/
  dc0 : u.dc0.Built (cell 0)
  /-- `DC1`. -/
  dc1 : u.dc1.Built (cell 1)
  /-- `AC0`. -/
  ac0 : u.ac0.Built (cell 2)
  /-- `AC1`. -/
  ac1 : u.ac1.Built (cell 3)

theorem buildTrees_built (cell : Nat → Nat → Int) (buf : CharBuf) :
    ∃ u buf', buildTrees (collectTables cell) buf = .ok (u, buf') ∧ u.Built cell := by
  obtain ⟨u, buf', hrun, hbuilt⟩ := buildTrees_spec cell buf
  exact ⟨u, buf', hrun, hbuilt 0 (by omega), hbuilt 1 (by omega), hbuilt 2 (by omega),
    hbuilt 3 (by omega)⟩

namespace HuffValUseful.Built

variable {u : HuffValUseful} {cell : Nat → Nat → Int}

theorem total_le (h : u.Built cell) : u.total ≤ 1024 := by
  have hdc0 := h.dc0.count_le
  have hdc1 := h.dc1.count_le
  have hac0 := h.ac0.count_le
  have hac1 := h.ac1.count_le
  rw [total]
  omega

theorem length_singleSegment (h : u.Built cell) : (singleSegment u).length = 68 + u.total := by
  simp only [singleSegment, List.length_append, h.dc0.length_tableBytes, h.dc1.length_tableBytes,
    h.ac0.length_tableBytes, h.ac1.length_tableBytes, total]
  omega

/-- What is written for an image of type 0. -/
theorem writeHuffmanTable_single (h : u.Built cell) (w : Writer) (bytes : List UInt8) :
    writeHuffmanTable 0 u (w.emit bytes) =
      w.emit (bytes ++ 0x00 :: UInt8.ofNat (70 + u.total) :: singleSegment u) := by
  have hle := h.total_le
  have hlen : 70 + u.dc0.count + u.dc1.count + u.ac0.count + u.ac1.count = 70 + u.total := by
    rw [total]
    omega
  simp only [writeHuffmanTable, if_true, hlen, Nat.reduceEqDiff, if_false, Writer.emit_put]
  rw [writeOneHuffmanTable_emit (by omega), h.dc0.writeTable_emit, h.ac0.writeTable_emit,
    h.dc1.writeTable_emit, h.ac1.writeTable_emit, singleSegment]
  simp only [List.append_assoc, List.cons_append, List.nil_append]
  rfl

/-- What is written for an image of type 1. -/
theorem writeHuffmanTable_four (h : u.Built cell) (w : Writer) (bytes : List UInt8) :
    writeHuffmanTable 1 u (w.emit bytes) =
      w.emit (bytes ++ 0x00 :: UInt8.ofNat (19 + u.dc0.count) :: (tableBytes 0x00 u.dc0 ++
        0xff :: 0xc4 :: 0x00 :: UInt8.ofNat (19 + u.ac0.count) :: (tableBytes 0x10 u.ac0 ++
        0xff :: 0xc4 :: 0x00 :: UInt8.ofNat (19 + u.dc1.count) :: (tableBytes 0x01 u.dc1 ++
        0xff :: 0xc4 :: UInt8.ofNat (19 + u.ac1.count) :: tableBytes 0x11 u.ac1)))) := by
  have hdc0 := h.dc0.count_le
  have hdc1 := h.dc1.count_le
  have hac0 := h.ac0.count_le
  have hac1 := h.ac1.count_le
  simp only [writeHuffmanTable, Nat.reduceEqDiff, if_false, if_true, Writer.emit_put]
  rw [writeOneHuffmanTable_emit (by omega), h.dc0.writeTable_emit, Writer.emit_put,
    Writer.emit_put, Writer.emit_put, writeOneHuffmanTable_emit (by omega),
    h.ac0.writeTable_emit, Writer.emit_put, Writer.emit_put, Writer.emit_put,
    writeOneHuffmanTable_emit (by omega), h.dc1.writeTable_emit, Writer.emit_put,
    Writer.emit_put, writeOneHuffmanTable_emit (by omega), h.ac1.writeTable_emit]
  simp only [List.append_assoc, List.cons_append, List.nil_append]
  rfl

end HuffValUseful.Built

/-! ## The tables read back -/

/-- The code table of a table of the encoder: each value with its string. -/
def OneHufftype.codeTable (t : OneHufftype) : Table Nat :=
  ((t.val.zip t.code).take t.count).map fun p => (p.1, stringToBits (p.2.getD []))

/-- A table of the decoder has the values, the code lengths and the codes of a
table of the encoder, and answers for them. -/
structure Rebuilt (table : HuffmanTable) (t : OneHufftype) : Prop where
  /-- The entries `build_huffman_table` went through. -/
  entries : ∃ bits vals old, buildHuffmanTable bits vals old = some table ∧
    (huffEntries bits vals).map (fun e => (e.val, some (e.bits.map bitChar))) =
      (t.val.zip t.code).take t.count
  /-- Decoding finds every code. -/
  holds : table.Holds t.codeTable

/-- The parsed tables are those of the encoder. -/
structure Rebuilds (priv : JdecPrivate) (u : HuffValUseful) : Prop where
  /-- `HTDC[0]`. -/
  dc0 : Rebuilt (priv.htdc 0) u.dc0
  /-- `HTDC[1]`. -/
  dc1 : Rebuilt (priv.htdc 1) u.dc1
  /-- `HTAC[0]`. -/
  ac0 : Rebuilt (priv.htac 0) u.ac0
  /-- `HTAC[1]`. -/
  ac1 : Rebuilt (priv.htac 1) u.ac1

namespace OneHufftype.Built

variable {t : OneHufftype} {cell : Nat → Int}

theorem huffEntries_eq (h : t.Built cell) : huffEntries t.sizeCounts t.symbols =
    List.zipWith (fun v (e : Nat × Nat) => ⟨v, e.1, e.2⟩) t.symbols (quotaCodes.take t.count) := by
  rw [Recode.huffEntries_eq, h.codes_sizeCounts]

/-- An entry has one of the codes of the quota. -/
theorem mem_quota (h : t.Built cell) {e : OneHuff} (he : e ∈ huffEntries t.sizeCounts t.symbols) :
    (e.code, e.codeSize) ∈ quotaCodes := by
  rw [h.huffEntries_eq, List.mem_iff_getElem] at he
  obtain ⟨i, hi, rfl⟩ := he
  rw [List.getElem_zipWith]
  exact List.mem_of_mem_take (List.getElem_mem _)

theorem good (h : t.Built cell) : GoodEntries (huffEntries t.sizeCounts t.symbols) := by
  have hquota : ∀ e ∈ quotaCodes, 1 ≤ e.2 ∧ e.2 ≤ 16 ∧ e.1 < 2 ^ e.2 ∧ (9 < e.2 → e.1 ≠ 0) := by
    decide +kernel
  refine ⟨?_, ?_, ?_, ?_, ?_⟩
  · intro e he
    obtain ⟨h1, h16, _⟩ := hquota _ (h.mem_quota he)
    exact ⟨h1, h16⟩
  · intro e he
    exact (hquota _ (h.mem_quota he)).2.2.1
  · rw [entryTable_huffEntries]
    exact h.prefixFree
  · rw [map_val_huffEntries (h.length_symbols.trans h.sum_sizeCounts.symm)]
    exact h.nodup_symbols
  · intro e he hlong
    exact (hquota _ (h.mem_quota he)).2.2.2 hlong

/-- The first 21 codes are short, and the others have sixteen bits. -/
theorem longCodes_eq (h : t.Built cell) {size : Nat} (hlong : 9 < size) :
    longCodes t.sizeCounts size = if size = 16 then t.count - 21 else 0 := by
  have hfirst : ∀ e ∈ quotaCodes.take 21, e.2 ≤ 9 := by decide +kernel
  have hothers : ∀ e ∈ quotaCodes.drop 21, e.2 = 16 ∧ e.1 ≠ 0 := by decide +kernel
  have hlen : (quotaCodes.take 21).length = 21 := by decide +kernel
  have hshort : ((quotaCodes.take 21).take t.count).countP
      (fun e => decide (e.2 = size ∧ e.1 ≠ 0)) = 0 := by
    rw [List.countP_eq_zero]
    intro e he
    have hle := hfirst e (List.mem_of_mem_take he)
    simp only [decide_eq_true_eq]
    omega
  rw [longCodes, h.codes_sizeCounts, ← List.take_append_drop 21 quotaCodes, List.take_append, hlen,
    List.countP_append, hshort, Nat.zero_add]
  split
  next h16 =>
    rw [List.countP_eq_length.mpr, List.length_take, List.length_drop, quotaCodes_length]
    · exact Nat.min_eq_left (by have := h.count_le; omega)
    · intro e he
      simp [hothers e (List.mem_of_mem_take he), h16]
  next h16 =>
    rw [List.countP_eq_zero]
    intro e he
    simp [(hothers e (List.mem_of_mem_take he)).1, Ne.symm h16]

/-- The last slow row takes 127 codes. -/
theorem buildHuffmanTable_iff (h : t.Built cell) (old : HuffmanTable) :
    (∃ table, buildHuffmanTable t.sizeCounts t.symbols old = some table) ↔ t.count ≤ 148 := by
  have hfits : Fits (lengthsOf t.sizeCounts) := by
    rw [h.lengthsOf_sizeCounts]
    exact quotaCodes_fits.take t.count
  rw [Recode.buildHuffmanTable_iff (by simp [sizeCounts])
    (h.length_symbols.trans h.sum_sizeCounts.symm) (h.sum_sizeCounts.trans_le h.count_le) hfits old]
  constructor
  · intro hrows
    have hlast := hrows 16 (by decide)
    rw [h.longCodes_eq (by decide), if_pos rfl] at hlast
    omega
  · intro hle size hlong
    rw [h.longCodes_eq hlong]
    split <;> omega

theorem pairs_eq (h : t.Built cell) : (t.val.zip t.code).take t.count =
    t.symbols.zip ((quotaCodes.take t.count).map fun e => some (codeString e)) := by
  rw [List.zip_eq_zipWith, List.take_zipWith, ← List.zip_eq_zipWith, h.code]
  rfl

theorem codeTable_eq (h : t.Built cell) : t.codeTable = t.decodeTable := by
  rw [codeTable, h.decodeTable_eq, h.pairs_eq, List.zip_map_right, List.zip_map_right, List.map_map]
  refine List.map_congr_left fun p _ => ?_
  simp only [Function.comp, Prod.map, Option.getD_some, codeString, stringToBits_bitChar, id]

/-- The entries of a decoder are the values and codes of the encoder. -/
theorem entries_eq (h : t.Built cell) :
    (huffEntries t.sizeCounts t.symbols).map (fun e => (e.val, some (e.bits.map bitChar))) =
      (t.val.zip t.code).take t.count := by
  rw [h.pairs_eq, h.huffEntries_eq, List.zip_map_right, List.zip_eq_zipWith, List.map_zipWith,
    List.map_zipWith]
  rfl

/-- A table that is filled is the table of the encoder. -/
theorem rebuilt (h : t.Built cell) {old table : HuffmanTable}
    (hbuild : buildHuffmanTable t.sizeCounts t.symbols old = some table) : Rebuilt table t := by
  refine ⟨⟨t.sizeCounts, t.symbols, old, hbuild, h.entries_eq⟩, ?_⟩
  have hholds := fillTable_holds h.good (fillTable_of_build hbuild)
  rw [entryTable_huffEntries] at hholds
  rw [h.codeTable_eq]
  exact hholds

end OneHufftype.Built

/-! ## The codes -/

/-- The bytes `Write_Huffman_Table` writes of a table. -/
def OneHufftype.written (t : OneHufftype) : List UInt8 := (writeTable 0x00 t (.start [])).out

/-- The used symbols are listed once, with the codes `build_huffman_table` derives for
them from the counts and the values written. -/
structure OneHufftype.Derived (t : OneHufftype) (cell : Nat → Int) : Prop where
  /-- No symbol is listed twice. -/
  nodup : t.symbols.Nodup
  /-- The symbols listed are those with a count. -/
  mem : ∀ v, v ∈ t.symbols ↔ v < 256 ∧ cell v ≠ 0
  /-- The values and codes in their order. -/
  derived : (huffEntries (((t.written.drop 1).take 16).map UInt8.toNat)
      ((t.written.drop 17).map UInt8.toNat)).map (fun e => (e.val, some (e.bits.map bitChar))) =
    (t.val.zip t.code).take t.count
  /-- No code begins with another. -/
  prefixFree : PrefixFree t.codeTable
  /-- Codes have one to sixteen digits, and one of them is a zero. -/
  digits : ∀ c ∈ t.code.take t.count, ∃ str, c = some str ∧
    1 ≤ str.length ∧ str.length ≤ 16 ∧ '0' ∈ str

theorem map_toNat_ofNat {ns : List Nat} (h : ∀ n ∈ ns, n < 256) :
    (ns.map UInt8.ofNat).map UInt8.toNat = ns := by
  rw [List.map_map]
  refine (List.map_congr_left fun n hn => ?_).trans (List.map_id ns)
  exact (UInt8.toNat_ofNat').trans (Nat.mod_eq_of_lt (h n hn))

namespace OneHufftype.Built

variable {t : OneHufftype} {cell : Nat → Int}

theorem written_eq (h : t.Built cell) : t.written = tableBytes 0x00 t := by
  have hwrite := h.writeTable_emit 0x00 (.start []) []
  rw [List.nil_append] at hwrite
  change (writeTable 0x00 t ((Writer.start []).emit [])).out = _
  rw [hwrite]
  rfl

theorem written_counts (h : t.Built cell) :
    ((t.written.drop 1).take 16).map UInt8.toNat = t.sizeCounts := by
  have hlen : (t.sizeCounts.map UInt8.ofNat).length = 16 := by simp [sizeCounts]
  rw [h.written_eq, tableBytes, List.drop_succ_cons, List.drop_zero, List.take_left' hlen,
    map_toNat_ofNat fun n hn => h.sizeCounts_lt hn]

theorem written_values (h : t.Built cell) : (t.written.drop 17).map UInt8.toNat = t.symbols := by
  have hlen : (t.sizeCounts.map UInt8.ofNat).length = 16 := by simp [sizeCounts]
  rw [h.written_eq, tableBytes, List.drop_succ_cons, List.drop_left' hlen,
    map_toNat_ofNat fun v hv => h.symbols_lt hv]

/-- Every code of the quota that is used has a zero. -/
theorem code_digits (h : t.Built cell) {c : Option (List Char)} (hc : c ∈ t.code.take t.count) :
    ∃ str, c = some str ∧ 1 ≤ str.length ∧ str.length ≤ 16 ∧ '0' ∈ str := by
  have hall : ∀ e ∈ quotaCodes.take 256, 1 ≤ e.2 ∧ e.2 ≤ 16 ∧ '0' ∈ codeString e := by
    decide +kernel
  rw [h.code, List.mem_map] at hc
  obtain ⟨e, he, rfl⟩ := hc
  obtain ⟨h1, h16, hzero⟩ := hall e ((List.take_sublist_take_left h.count_le).subset he)
  refine ⟨codeString e, rfl, ?_, ?_, hzero⟩
  · rwa [length_codeString]
  · rwa [length_codeString]

theorem derived (h : t.Built cell) : t.Derived cell where
  nodup := h.nodup_symbols
  mem _ := h.mem_symbols
  derived := by
    rw [h.written_counts, h.written_values]
    exact h.entries_eq
  prefixFree := by
    rw [h.codeTable_eq]
    exact h.prefixFree
  digits _ hc := h.code_digits hc

end OneHufftype.Built

/-- Whatever the counts are, the codes of the four tables are those a decoder derives. -/
theorem encoder_codes_canonical (v : HuffVal) (buf : CharBuf) :
    ∃ u buf', buildTrees (buildHuffValUseful v) buf = .ok (u, buf') ∧
      ∀ type < 4, (u.table type).Derived fun i => countCell (v type i) := by
  obtain ⟨u, buf', hrun, hbuilt⟩ := buildTrees_spec (fun type i => countCell (v type i)) buf
  exact ⟨u, buf', hrun, fun type htype => (hbuilt type htype).derived⟩

/-! ## Parsing what was written -/

/-- A round of the parser takes a table. -/
theorem parseTable_tableBytes {t : OneHufftype} {cell : Nat → Int} (h : t.Built cell)
    (priv : JdecPrivate) (index : UInt8) (rest : List UInt8) :
    parseTable priv (tableBytes index t ++ rest) =
      match priv.storeTable index t.sizeCounts t.symbols with
      | none => none
      | some priv => some (priv, t.count, rest) := by
  have hcounts : (t.sizeCounts.map UInt8.ofNat).length = 16 := by
    rw [List.length_map, OneHufftype.sizeCounts, List.length_map, List.length_range]
  have hsymbols : (t.symbols.map UInt8.ofNat).length = t.count := by
    rw [List.length_map, h.length_symbols]
  have hbits := map_toNat_ofNat fun n hn => h.sizeCounts_lt hn
  have hvals := map_toNat_ofNat fun v hv => h.symbols_lt hv
  rw [tableBytes, List.cons_append, List.append_assoc]
  generalize t.sizeCounts.map UInt8.ofNat = counts at hcounts hbits
  generalize t.symbols.map UInt8.ofNat = vals at hsymbols hvals
  have hdrop : (counts ++ (vals ++ rest)).drop (16 + t.count) = rest := by
    rw [← List.drop_drop, List.drop_left' hcounts, List.drop_left' hsymbols]
  have hroom : ¬ (counts ++ (vals ++ rest)).length < 16 + t.count := by
    rw [List.length_append, List.length_append]
    omega
  cases hstore : priv.storeTable index t.sizeCounts t.symbols with
  | none =>
      rw [parseTable, List.take_left' hcounts, hbits, h.sum_sizeCounts, if_neg hroom,
        List.drop_left' hcounts, List.take_left' hsymbols, hvals, hstore]
  | some priv' =>
      rw [parseTable, List.take_left' hcounts, hbits, h.sum_sizeCounts, if_neg hroom,
        List.drop_left' hcounts, List.take_left' hsymbols, hvals, hstore, hdrop]

/-- Storing tables one after another. -/
def storeTables : List (UInt8 × OneHufftype) → JdecPrivate → Option JdecPrivate
  | [], priv => some priv
  | (index, t) :: ts, priv =>
      match priv.storeTable index t.sizeCounts t.symbols with
      | none => none
      | some priv => storeTables ts priv

/-- The loop of the parser takes tables written one after another. -/
theorem parseTables_tableBytes {ts : List (UInt8 × OneHufftype)}
    (hts : ∀ p ∈ ts, ∃ cell, p.2.Built cell) {fuel : Nat} {length : Int} (priv : JdecPrivate)
    (rest : List UInt8) (hlength : length = ((ts.map fun p => 17 + p.2.count).sum : Nat))
    (hfuel : length ≤ fuel) :
    parseTables fuel length priv (ts.flatMap (fun p => tableBytes p.1 p.2) ++ rest) =
      match storeTables ts priv with
      | none => .error .undefined
      | some priv => .ok (priv, rest) := by
  induction ts generalizing fuel length priv with
  | nil =>
      rw [List.map_nil, List.sum_nil] at hlength
      have hdone : length ≤ 0 := by omega
      cases fuel <;> rw [parseTables, if_pos hdone] <;> rfl
  | cons p ts ih =>
      obtain ⟨cell, hp⟩ := hts p (List.mem_cons_self ..)
      rw [List.map_cons, List.sum_cons] at hlength
      obtain ⟨fuel, rfl⟩ : ∃ n, fuel = n + 1 := Nat.exists_eq_succ_of_ne_zero (by omega)
      rw [parseTables, if_neg (by omega), List.flatMap_cons, List.append_assoc,
        parseTable_tableBytes hp, storeTables]
      cases hstore : priv.storeTable p.1 p.2.sizeCounts p.2.symbols with
      | none => rfl
      | some priv₁ =>
          dsimp only
          exact ih (fun q hq => hts q (List.mem_cons_of_mem _ hq)) priv₁ (by omega) (by omega)

theorem storeTable_iff {t : OneHufftype} {cell : Nat → Int} (h : t.Built cell)
    (priv : JdecPrivate) {index : UInt8} (hid : (index &&& 0xf).toNat < 4) :
    (∃ priv', priv.storeTable index t.sizeCounts t.symbols = some priv') ↔ t.count ≤ 148 := by
  rw [JdecPrivate.storeTable]
  simp only [huffmanTables, Nat.not_le.mpr hid, if_false]
  split
  · rw [← h.buildHuffmanTable_iff (priv.htac (index &&& 0xf).toNat)]
    cases buildHuffmanTable t.sizeCounts t.symbols (priv.htac (index &&& 0xf).toNat) <;> simp
  · rw [← h.buildHuffmanTable_iff (priv.htdc (index &&& 0xf).toNat)]
    cases buildHuffmanTable t.sizeCounts t.symbols (priv.htdc (index &&& 0xf).toNat) <;> simp

/-- A stored table is the table of the encoder. -/
theorem storeTable_some {t : OneHufftype} {cell : Nat → Int} (h : t.Built cell)
    {priv priv' : JdecPrivate} {index : UInt8}
    (hstore : priv.storeTable index t.sizeCounts t.symbols = some priv') :
    ∃ table, Rebuilt table t ∧ priv' =
      if index &&& 0xf0 ≠ 0 then
        { priv with htac := Function.update priv.htac (index &&& 0xf).toNat table }
      else { priv with htdc := Function.update priv.htdc (index &&& 0xf).toNat table } := by
  simp only [JdecPrivate.storeTable] at hstore
  split at hstore
  · cases hstore
  · split at hstore
    next hclass =>
      split at hstore
      · cases hstore
      next table hbuild =>
        exact ⟨table, h.rebuilt hbuild, by rw [if_pos hclass]; exact (Option.some.inj hstore).symm⟩
    next hclass =>
      split at hstore
      · cases hstore
      next table hbuild =>
        exact ⟨table, h.rebuilt hbuild, by rw [if_neg hclass]; exact (Option.some.inj hstore).symm⟩

/-- The tables of a single segment in their order. -/
def HuffValUseful.segmentTables (u : HuffValUseful) : List (UInt8 × OneHufftype) :=
  [(0x00, u.dc0), (0x10, u.ac0), (0x01, u.dc1), (0x11, u.ac1)]

/-- No table has more codes than the slow rows of a decoder hold. -/
def HuffValUseful.RowsFit (u : HuffValUseful) : Prop := ∀ type < 4, (u.table type).count ≤ 148

namespace HuffValUseful.Built

variable {u : HuffValUseful} {cell : Nat → Nat → Int}

theorem segmentTables_built (h : u.Built cell) : ∀ p ∈ u.segmentTables, ∃ cell, p.2.Built cell := by
  intro p hp
  simp only [segmentTables, List.mem_cons, List.not_mem_nil, or_false] at hp
  rcases hp with rfl | rfl | rfl | rfl
  · exact ⟨_, h.dc0⟩
  · exact ⟨_, h.ac0⟩
  · exact ⟨_, h.dc1⟩
  · exact ⟨_, h.ac1⟩

/-- All four tables can be stored exactly when their rows fit. -/
theorem storeTables_iff (h : u.Built cell) (priv : JdecPrivate) :
    (∃ priv', storeTables u.segmentTables priv = some priv') ↔ u.RowsFit := by
  have hid : ∀ index ∈ ([0x00, 0x10, 0x01, 0x11] : List UInt8), (index &&& 0xf).toNat < 4 := by
    simp
  constructor
  · rintro ⟨priv', hstore⟩
    simp only [segmentTables, storeTables] at hstore
    split at hstore
    · cases hstore
    next priv₁ h1 =>
      split at hstore
      · cases hstore
      next priv₂ h2 =>
        split at hstore
        · cases hstore
        next priv₃ h3 =>
          split at hstore
          · cases hstore
          next priv₄ h4 =>
            intro type htype
            match type, htype with
            | 0, _ => exact (storeTable_iff h.dc0 _ (hid _ (by decide))).mp ⟨_, h1⟩
            | 1, _ => exact (storeTable_iff h.dc1 _ (hid _ (by decide))).mp ⟨_, h3⟩
            | 2, _ => exact (storeTable_iff h.ac0 _ (hid _ (by decide))).mp ⟨_, h2⟩
            | 3, _ => exact (storeTable_iff h.ac1 _ (hid _ (by decide))).mp ⟨_, h4⟩
  · intro hrows
    obtain ⟨priv₁, h1⟩ := (storeTable_iff h.dc0 priv (hid 0x00 (by decide))).mpr (hrows 0 (by omega))
    obtain ⟨priv₂, h2⟩ := (storeTable_iff h.ac0 priv₁ (hid 0x10 (by decide))).mpr (hrows 2 (by omega))
    obtain ⟨priv₃, h3⟩ := (storeTable_iff h.dc1 priv₂ (hid 0x01 (by decide))).mpr (hrows 1 (by omega))
    obtain ⟨priv₄, h4⟩ := (storeTable_iff h.ac1 priv₃ (hid 0x11 (by decide))).mpr (hrows 3 (by omega))
    exact ⟨priv₄, by simp only [segmentTables, storeTables, h1, h2, h3, h4]⟩

/-- Stored one after another, they are the tables of the encoder. -/
theorem storeTables_rebuilds (h : u.Built cell) {priv priv' : JdecPrivate}
    (hstore : storeTables u.segmentTables priv = some priv') : Rebuilds priv' u := by
  simp only [segmentTables, storeTables] at hstore
  split at hstore
  · cases hstore
  next priv₁ h1 =>
    split at hstore
    · cases hstore
    next priv₂ h2 =>
      split at hstore
      · cases hstore
      next priv₃ h3 =>
        split at hstore
        · cases hstore
        next priv₄ h4 =>
          cases hstore
          obtain ⟨dc0, hdc0, rfl⟩ := storeTable_some h.dc0 h1
          obtain ⟨ac0, hac0, rfl⟩ := storeTable_some h.ac0 h2
          obtain ⟨dc1, hdc1, rfl⟩ := storeTable_some h.dc1 h3
          obtain ⟨ac1, hac1, rfl⟩ := storeTable_some h.ac1 h4
          exact ⟨hdc0, hdc1, hac0, hac1⟩

end HuffValUseful.Built

/-! ## The single segment -/

/-- The number of symbols a table of counts shows. -/
def distinct (cell : Nat → Int) : Nat := (usedSymbols cell (List.range 256)).length

/-- The number of symbols a table of the histogram shows. -/
def HuffVal.distinct (v : HuffVal) (type : Nat) : Nat :=
  Recode.distinct fun i => countCell (v type i)

/-- The single segment is read back: its length is right, and parsing it takes
exactly its bytes and rebuilds the four tables. -/
def SingleSegmentAgrees (u : HuffValUseful) : Prop :=
  let bytes := (writeHuffmanTable 0 u (.start [])).out
  be16ToCpu bytes = some bytes.length ∧
    ∀ priv rest, ∃ priv', parseDHT priv (bytes ++ rest) = .ok (priv', rest) ∧ Rebuilds priv' u

namespace HuffValUseful.Built

variable {u : HuffValUseful} {cell : Nat → Nat → Int}

theorem single_out (h : u.Built cell) : (writeHuffmanTable 0 u (.start [])).out =
    0x00 :: UInt8.ofNat (70 + u.total) :: singleSegment u := by
  have hwrite := h.writeHuffmanTable_single (.start []) []
  rw [List.nil_append] at hwrite
  change (writeHuffmanTable 0 u ((Writer.start []).emit [])).out = _
  rw [hwrite]
  rfl

theorem singleSegment_eq (u : HuffValUseful) :
    singleSegment u = u.segmentTables.flatMap fun p => tableBytes p.1 p.2 := by
  simp only [singleSegment, segmentTables, List.flatMap_cons, List.flatMap_nil, List.append_nil,
    List.append_assoc]

/-- Parsing the single segment stores its tables if its length fits a byte. -/
theorem parseDHT_single (h : u.Built cell) (hfit : u.total ≤ 185) (priv : JdecPrivate)
    (rest : List UInt8) :
    parseDHT priv (0x00 :: UInt8.ofNat (70 + u.total) :: singleSegment u ++ rest) =
      match storeTables u.segmentTables priv with
      | none => .error .undefined
      | some priv => .ok (priv, rest) := by
  have hlen : be16 0x00 (UInt8.ofNat (70 + u.total)) = 70 + u.total := by
    rw [be16, UInt8.toNat_ofNat', Nat.mod_eq_of_lt (by omega)]
    exact Nat.zero_add _
  have hsum : ((u.segmentTables.map fun p => 17 + p.2.count).sum : Nat) = 68 + u.total := by
    simp only [segmentTables, List.map_cons, List.map_nil, List.sum_cons, List.sum_nil, total]
    omega
  rw [parseDHT, List.cons_append, List.cons_append, be16ToCpu_cons, hlen, singleSegment_eq]
  exact parseTables_tableBytes h.segmentTables_built priv rest (by rw [hsum]; omega) (by omega)

theorem singleSegmentAgrees_iff (h : u.Built cell) :
    SingleSegmentAgrees u ↔ u.total ≤ 185 ∧ u.RowsFit := by
  have hlt : (UInt8.ofNat (70 + u.total)).toNat = (70 + u.total) % 256 := UInt8.toNat_ofNat'
  have hle := h.total_le
  have hlength : be16ToCpu (0x00 :: UInt8.ofNat (70 + u.total) :: singleSegment u) =
      some (0x00 :: UInt8.ofNat (70 + u.total) :: singleSegment u).length ↔ u.total ≤ 185 := by
    rw [be16ToCpu_cons, be16, hlt, List.length_cons, List.length_cons, h.length_singleSegment,
      Option.some_inj, show (0x00 : UInt8).toNat = 0 from rfl]
    omega
  simp only [SingleSegmentAgrees, h.single_out, hlength]
  refine and_congr_right fun hfit => ?_
  constructor
  · intro hparse
    obtain ⟨priv', hrun, _⟩ := hparse tinyjpegInit []
    rw [h.parseDHT_single hfit] at hrun
    refine (h.storeTables_iff tinyjpegInit).mp ?_
    cases hstore : storeTables u.segmentTables tinyjpegInit with
    | none =>
        rw [hstore] at hrun
        cases hrun
    | some priv₁ => exact ⟨priv₁, rfl⟩
  · intro hrows priv rest
    obtain ⟨priv', hstore⟩ := (h.storeTables_iff priv).mpr hrows
    refine ⟨priv', ?_, h.storeTables_rebuilds hstore⟩
    rw [h.parseDHT_single hfit, hstore]

theorem counts_eq (h : u.Built cell) :
    u.dc0.count = distinct (cell 0) ∧ u.dc1.count = distinct (cell 1) ∧
      u.ac0.count = distinct (cell 2) ∧ u.ac1.count = distinct (cell 3) :=
  ⟨h.dc0.count_eq, h.dc1.count_eq, h.ac0.count_eq, h.ac1.count_eq⟩

theorem total_eq (h : u.Built cell) :
    u.total = distinct (cell 0) + distinct (cell 1) + distinct (cell 2) + distinct (cell 3) := by
  obtain ⟨hdc0, hdc1, hac0, hac1⟩ := h.counts_eq
  rw [total, hdc0, hdc1, hac0, hac1]

theorem rowsFit_iff (h : u.Built cell) : u.RowsFit ↔ ∀ type < 4, distinct (cell type) ≤ 148 := by
  obtain ⟨hdc0, hdc1, hac0, hac1⟩ := h.counts_eq
  constructor
  · intro hrows type htype
    match type, htype with
    | 0, _ => exact hdc0 ▸ hrows 0 (by omega)
    | 1, _ => exact hdc1 ▸ hrows 1 (by omega)
    | 2, _ => exact hac0 ▸ hrows 2 (by omega)
    | 3, _ => exact hac1 ▸ hrows 3 (by omega)
  · intro hrows type htype
    match type, htype with
    | 0, _ => exact hdc0.trans_le (hrows 0 (by omega))
    | 1, _ => exact hdc1.trans_le (hrows 1 (by omega))
    | 2, _ => exact hac0.trans_le (hrows 2 (by omega))
    | 3, _ => exact hac1.trans_le (hrows 3 (by omega))

end HuffValUseful.Built

/-- The parser reads the single segment back exactly when the four tables have at
most 185 values together and none has more than 148. -/
theorem single_segment_agrees (v : HuffVal) (buf : CharBuf) :
    ∃ u buf', buildTrees (buildHuffValUseful v) buf = .ok (u, buf') ∧
      (SingleSegmentAgrees u ↔
        v.distinct 0 + v.distinct 1 + v.distinct 2 + v.distinct 3 ≤ 185 ∧
          ∀ type < 4, v.distinct type ≤ 148) := by
  obtain ⟨u, buf', hrun, hbuilt⟩ := buildTrees_built (fun type i => countCell (v type i)) buf
  refine ⟨u, buf', hrun, ?_⟩
  rw [hbuilt.singleSegmentAgrees_iff, hbuilt.total_eq, hbuilt.rowsFit_iff]
  rfl

/-- More than 185 values do not fit the length. -/
theorem single_segment_overflow {v : HuffVal}
    (h : 185 < v.distinct 0 + v.distinct 1 + v.distinct 2 + v.distinct 3) (buf : CharBuf) :
    ∃ u buf', buildTrees (buildHuffValUseful v) buf = .ok (u, buf') ∧ ¬ SingleSegmentAgrees u := by
  obtain ⟨u, buf', hrun, hbuilt⟩ := buildTrees_built (fun type i => countCell (v type i)) buf
  refine ⟨u, buf', hrun, ?_⟩
  rw [hbuilt.singleSegmentAgrees_iff, hbuilt.total_eq]
  exact fun hfits => Nat.not_le.mpr h hfits.1

/-- Twelve DC symbols in each table, 100 AC symbols of the first component and 62 of the
others. -/
def richCounts : HuffVal := fun type code =>
  if code < [12, 12, 100, 62].getD type 0 then 1 else 0

/-- With these 186 values the length is written as zero. -/
theorem single_segment_too_long : ∃ u buf',
    buildTrees (buildHuffValUseful richCounts) (fun _ => '0') = .ok (u, buf') ∧
      ¬ SingleSegmentAgrees u :=
  single_segment_overflow (by decide +kernel) _

/-! ## The four segments -/

/-- The four segments are read back: they are well formed, and parsing them and
the scan header behind them rebuilds the four tables and ends behind that header. -/
def FourSegmentsAgree (u : HuffValUseful) : Prop :=
  let bytes := 0xff :: StdMarkers.dht :: (writeHuffmanTable 1 u (.start [])).out
  (∃ segs : List Segment, segs.length = 4 ∧ (∀ s ∈ segs, s.marker = StdMarkers.dht) ∧
    bytes = segs.flatMap Segment.bytes) ∧
  ∀ priv rest, ∃ priv', parseJFIF bytes.length priv (bytes ++ sosHeader 1 ++ rest) = .ok priv' ∧
    Rebuilds priv' u ∧ priv'.stream = rest

/-- A table behind its length is the body of a segment. -/
theorem OneHufftype.Built.segment {t : OneHufftype} {cell : Nat → Int} (h : t.Built cell)
    (hle : t.count ≤ 162) (index : UInt8) :
    ∃ s : Segment, s.body = 0x00 :: UInt8.ofNat (19 + t.count) :: tableBytes index t := by
  have hlen := h.length_tableBytes index
  refine ⟨⟨StdMarkers.dht, tableBytes index t, by decide, by omega⟩, ?_⟩
  have hhigh : UInt8.ofNat ((19 + t.count) / 256) = 0x00 := by
    rw [Nat.div_eq_of_lt (by omega)]
    rfl
  simp only [Segment.body, be16Bytes, hlen, show 17 + t.count + 2 = 19 + t.count by omega, hhigh]
  rfl

/-- The length of the last segment has no high byte. -/
theorem HuffValUseful.Built.four_segments_malformed {u : HuffValUseful} {cell : Nat → Nat → Int}
    (h : u.Built cell) (hdc0 : u.dc0.count ≤ 162) (hac0 : u.ac0.count ≤ 162)
    (hdc1 : u.dc1.count ≤ 162) (hac1 : u.ac1.count ≤ 162) : ¬ FourSegmentsAgree u := by
  rintro ⟨⟨segs, hfour, _, hbytes⟩, _⟩
  have hout := h.writeHuffmanTable_four (.start []) []
  rw [List.nil_append] at hout
  have hstart : writeHuffmanTable 1 u (.start []) =
      writeHuffmanTable 1 u ((Writer.start []).emit []) :=
    rfl
  rw [hstart, hout] at hbytes
  match segs, hfour with
  | [a, b, c, d], _ =>
      obtain ⟨s0, hs0⟩ := h.dc0.segment hdc0 0x00
      obtain ⟨s1, hs1⟩ := h.ac0.segment hac0 0x10
      obtain ⟨s2, hs2⟩ := h.dc1.segment hdc1 0x01
      simp only [Writer.emit, Writer.start, List.nil_append, List.flatMap_cons, List.flatMap_nil,
        List.append_nil, Segment.bytes, ← List.cons_append, ← hs0, ← hs1, ← hs2] at hbytes
      simp only [List.cons_append, List.cons.injEq, true_and] at hbytes
      obtain ⟨_, hrest⟩ := Segment.body_append_inj hbytes.2
      simp only [List.cons.injEq, true_and] at hrest
      obtain ⟨_, hrest⟩ := Segment.body_append_inj hrest.2
      simp only [List.cons.injEq, true_and] at hrest
      obtain ⟨_, hrest⟩ := Segment.body_append_inj hrest.2
      simp only [List.cons.injEq, true_and] at hrest
      obtain ⟨hi, lo, hbody, hlen⟩ := d.body_cons
      have hlast := h.ac1.length_tableBytes 0x11
      rw [hbody, tableBytes] at hrest
      simp only [List.cons.injEq] at hrest
      obtain ⟨_, rfl, rfl, hpayload⟩ := hrest
      rw [tableBytes, List.length_cons, hpayload] at hlast
      rw [be16, UInt8.toNat_ofNat', Nat.mod_eq_of_lt (by omega)] at hlen
      have hlow : (0x11 : UInt8).toNat = 17 := rfl
      omega

theorem four_segments_refuted {v : HuffVal}
    (hcount : ∀ type < 4, distinct (fun i => longCell (v type i)) ≤ 162) (buf : CharBuf) :
    ∃ u buf', buildTrees (buildHuffValUsefulLong v) buf = .ok (u, buf') ∧
      ¬ FourSegmentsAgree u := by
  obtain ⟨u, buf', hrun, hbuilt⟩ := buildTrees_built (fun type i => longCell (v type i)) buf
  obtain ⟨hdc0, hdc1, hac0, hac1⟩ := hbuilt.counts_eq
  exact ⟨u, buf', hrun, hbuilt.four_segments_malformed (hdc0.trans_le (hcount 0 (by omega)))
    (hac0.trans_le (hcount 2 (by omega))) (hdc1.trans_le (hcount 1 (by omega)))
    (hac1.trans_le (hcount 3 (by omega)))⟩

/-- The four segments are never read back, whatever the counts are. -/
theorem four_segments_disagree (v : HuffVal) (buf : CharBuf)
    (hcount : ∀ type < 4, 1 ≤ distinct (fun i => longCell (v type i)) ∧
      distinct (fun i => longCell (v type i)) ≤ 162) :
    ∃ u buf', buildTrees (buildHuffValUsefulLong v) buf = .ok (u, buf') ∧
      ¬ FourSegmentsAgree u :=
  four_segments_refuted (fun type htype => (hcount type htype).2) buf

/-- The first symbols of each table, each once. -/
def fewCounts (n : Nat) : HuffVal := fun _ code => if code < n then 1 else 0

theorem four_segments_disagree_three : ∃ u buf',
    buildTrees (buildHuffValUsefulLong (fewCounts 3)) (fun _ => '0') = .ok (u, buf') ∧
      ¬ FourSegmentsAgree u :=
  four_segments_disagree (fewCounts 3) _ (by decide +kernel)

/-- Two symbols in each table. -/
theorem four_segments_malformed_two : ∃ u buf',
    buildTrees (buildHuffValUsefulLong (fewCounts 2)) (fun _ => '0') = .ok (u, buf') ∧
      ¬ FourSegmentsAgree u :=
  four_segments_refuted (by decide +kernel) _

end Recode
