import JpegStorage.Recode.Passes

/-!
# Recoding is lossless

The first pass counts at least the symbols the second one asks for: it decodes
the same blocks and possibly more behind them.  So every symbol has a new code,
and the second pass writes each block with the new codes and its own magnitude
bits.  Plain decoding with the new tables then gives the same blocks.
-/

namespace Recode

open Canonical Stuffing Baseline Run

/-! ## Conforming images -/

/-- A table of counts and symbols that `build_huffman_table` can represent: a
prefix code of distinct bytes all of whose long codes have a place in the slow rows. -/
structure TableFits (bits vals : List Nat) (table : HuffmanTable) : Prop where
  /-- There are sixteen code sizes. -/
  sizes : bits.length = 16
  /-- Every code has a symbol. -/
  count : vals.length = bits.sum
  /-- Symbols are bytes. -/
  byte : ∀ v ∈ vals, v < 256
  /-- Symbols are distinct. -/
  nodup : vals.Nodup
  /-- Every code fits its size. -/
  codes : Fits (lengthsOf bits)
  /-- The table is filled. -/
  built : ∃ t, buildHuffmanTable bits vals t = some table
  /-- The slow rows keep every long code. -/
  stored : ∀ e ∈ huffEntries bits vals, huffmanHashNbits < e.codeSize →
    (e.code, e.val) ∈ table.slowtable (e.codeSize - huffmanHashNbits - 1)

namespace TableFits

variable {bits vals : List Nat} {table : HuffmanTable}

theorem filled (h : TableFits bits vals table) :
    ∃ t : HuffmanTable, fillTable t.clear (huffEntries bits vals) = some table := by
  obtain ⟨t, ht⟩ := h.built
  exact ⟨t, fillTable_of_build ht⟩

theorem prefixTable (h : TableFits bits vals table) : PrefixTable bits vals :=
  ⟨⟨h.sizes, h.count, h.byte, h.nodup⟩, h.codes⟩

theorem good (h : TableFits bits vals table) : GoodEntries (huffEntries bits vals) := by
  refine h.prefixTable.good (List.Sublist.refl _) fun e he hlong h0 => ?_
  obtain ⟨t, ht⟩ := h.filled
  have hst := h.stored e he hlong
  have hle := h.sizes ▸ (huffEntries_size he).2
  rw [huffmanHashNbits] at hlong hst
  rw [fillTable_slowtable _ ht] at hst
  simp only [HuffmanTable.clear, show e.codeSize - 9 - 1 < 7 by omega, if_true, List.nil_append,
    slowRow, List.mem_map, List.mem_filter, decide_eq_true_eq, Prod.mk.injEq] at hst
  obtain ⟨e', ⟨_, _, hne⟩, hcode, _⟩ := hst
  rw [hcode, h0] at hne
  exact hne rfl

theorem holds (h : TableFits bits vals table) : table.Holds (Canonical.table bits vals) := by
  obtain ⟨t, ht⟩ := h.filled
  rw [← entryTable_huffEntries]
  exact fillTable_holds h.good ht

theorem safe (h : TableFits bits vals table) : table.Safe := by
  obtain ⟨t, ht⟩ := h.built
  exact (h.prefixTable.toByteTable.safe ht).1

theorem value (h : TableFits bits vals table) {v : Nat} (hv : table.Value v) :
    v = 0 ∨ v ∈ vals := by
  obtain ⟨t, ht⟩ := h.built
  exact (h.prefixTable.toByteTable.safe ht).2 v hv

end TableFits

/-- The counts and the symbols of the Huffman tables of each component. -/
structure ScanCodes where
  /-- The counts of the DC tables. -/
  dcBits : Nat → List Nat
  /-- The symbols of the DC tables. -/
  dcVals : Nat → List Nat
  /-- The counts of the AC tables. -/
  acBits : Nat → List Nat
  /-- The symbols of the AC tables. -/
  acVals : Nat → List Nat

/-- The DC code of a component. -/
def ScanCodes.dc (codes : ScanCodes) (c : Nat) : Table Nat := table (codes.dcBits c) (codes.dcVals c)

/-- The AC code of a component. -/
def ScanCodes.ac (codes : ScanCodes) (c : Nat) : Table Nat := table (codes.acBits c) (codes.acVals c)

/-- The components of the blocks of a 1x1 image. -/
def imageComponents (priv : JdecPrivate) : List Nat :=
  mcuComponents Sampling.s1x1.components (mcuRows priv.height 8 * mcuCols priv.width 8)

/-- The tables a conforming 1x1 image decodes with. -/
structure ConformingTables (priv : JdecPrivate) (codes : ScanCodes) : Prop where
  /-- The first component is not subsampled. -/
  sampling : priv.sampling = .s1x1
  /-- The DC tables. -/
  dcFits : ∀ c < 3, ∃ t, priv.dcTable c = some t ∧ TableFits (codes.dcBits c) (codes.dcVals c) t
  /-- The AC tables. -/
  acFits : ∀ c < 3, ∃ t, priv.acTable c = some t ∧ TableFits (codes.acBits c) (codes.acVals c) t
  /-- DC symbols are magnitude sizes of a `short`. -/
  dcSize : ∀ c < 3, ∀ v ∈ codes.dcVals c, v ≤ 15

/-- A conforming 1x1 image without restart intervals: the scan is the stuffed
form of data bytes that code `units` and end with less than a byte of ones, and
an end of image follows. -/
structure Conforms (priv : JdecPrivate) (codes : ScanCodes) (data tail : List UInt8)
    (units : List BlockCode) (pad : List Bool) : Prop where
  /-- The tables. -/
  tables : ConformingTables priv codes
  /-- No restart intervals. -/
  restart : priv.restartInterval = 0
  /-- The scan. -/
  stream : priv.stream = stuff data ++ 0xff :: 0xd9 :: tail
  /-- The blocks. -/
  scan : readUnits codes.dc codes.ac (imageComponents priv) (Bits.ofBytes data) = some (units, pad)
  /-- The padding. -/
  padding : pad.length < 8 ∧ ∀ b ∈ pad, b = true

namespace ConformingTables

variable {priv : JdecPrivate} {codes : ScanCodes}

theorem component_lt {c : Nat} (hc : c ∈ Sampling.s1x1.components) : c < 3 := by
  simp only [Sampling.components, List.mem_cons, List.not_mem_nil, or_false] at hc
  omega

theorem codes_ok (h : ConformingTables priv codes) {c : Nat} (hc : c < 3) :
    priv.Codes c (codes.dc c) (codes.ac c) := by
  obtain ⟨dcTable, hdc, hdcFits⟩ := h.dcFits c hc
  obtain ⟨acTable, hac, hacFits⟩ := h.acFits c hc
  exact ⟨⟨dcTable, hdc, hdcFits.holds⟩, ⟨acTable, hac, hacFits.holds⟩,
    fun v code hv => h.dcSize c hc v (List.of_mem_zip hv).1⟩

theorem safe (h : ConformingTables priv codes) {c : Nat} (hc : c < 3) : priv.Safe c := by
  obtain ⟨dcTable, hdc, hdcFits⟩ := h.dcFits c hc
  obtain ⟨acTable, hac, hacFits⟩ := h.acFits c hc
  refine ⟨⟨dcTable, hdc, hdcFits.safe, fun v hv => ?_⟩, ⟨acTable, hac, hacFits.safe⟩⟩
  rcases hdcFits.value hv with rfl | hm
  · omega
  · exact h.dcSize c hc v hm

theorem dc_prefixFree (h : ConformingTables priv codes) {c : Nat} (hc : c < 3) :
    PrefixFree (codes.dc c) := by
  obtain ⟨_, _, hfits⟩ := h.dcFits c hc
  exact table_prefixFree hfits.codes _

theorem ac_prefixFree (h : ConformingTables priv codes) {c : Nat} (hc : c < 3) :
    PrefixFree (codes.ac c) := by
  obtain ⟨_, _, hfits⟩ := h.acFits c hc
  exact table_prefixFree hfits.codes _

end ConformingTables

namespace Conforms

variable {priv : JdecPrivate} {codes : ScanCodes} {data tail : List UInt8} {units : List BlockCode}
  {pad : List Bool}

theorem mem_imageComponents {c : Nat} (hc : c ∈ imageComponents priv) : c < 3 :=
  ConformingTables.component_lt (mem_mcuComponents hc)

/-- The decoder sees the coded blocks, the padding and the two bytes of the end of image. -/
theorem readUnits_start (h : Conforms priv codes data tail units pad) {σ : Type} (o : σ) :
    ∃ rest, readUnits codes.dc codes.ac (imageComponents priv)
        (resync priv (Scan.start priv o)).reader.bits = some (units, rest) ∧ 16 ≤ rest.length := by
  have hbits : (resync priv (Scan.start priv o)).reader.bits =
      Bits.ofBytes data ++ Bits.ofBytes (unstuff (0xff :: 0xd9 :: tail)) := by
    change Bits.ofNat 0 0 ++ Bits.ofBytes (unstuff priv.stream) = _
    rw [h.stream, unstuff_stuff_append, Bits.ofNat_zero, List.nil_append, Bits.ofBytes_append]
  rw [hbits]
  refine ⟨_, readUnits_more _ (fun c hc => h.tables.dc_prefixFree (mem_imageComponents hc))
    (fun c hc => h.tables.ac_prefixFree (mem_imageComponents hc)) h.scan, ?_⟩
  rw [unstuff_cons, afterByte_cons_of_ne _ (by decide), unstuff_cons, List.length_append,
    Bits.length_ofBytes, List.length_cons, List.length_cons]
  omega

theorem start_ok {σ : Type} (o : σ) : (resync priv (Scan.start priv o)).reader.Ok :=
  ⟨Nat.one_pos, Nat.zero_le _⟩

theorem restartsToGo_start (h : Conforms priv codes data tail units pad) {σ : Type} (o : σ) :
    (resync priv (Scan.start priv o)).restartsToGo = -1 := by
  simp [resync, h.restart]

end Conforms

/-! ## The first pass -/

/-- Counts only grow. -/
def HuffVal.Le (v w : HuffVal) : Prop := ∀ type code, v type code ≤ w type code

theorem HuffVal.Le.trans {v w x : HuffVal} (h : v.Le w) (h' : w.Le x) : v.Le x :=
  fun type code => (h type code).trans (h' type code)

theorem countHooks_symbol (type code : Nat) (v : HuffVal) :
    ∃ v', (countHooks.symbol type code).run v = .ok () v' ∧ v.Le v' ∧ 1 ≤ v' type code := by
  refine ⟨_, rfl, fun t c => ?_, by simp⟩
  dsimp only
  split <;> omega

theorem countHooks_keep (v : HuffVal) : countHooks.Keep v.Le where
  symbol type code w hw := by
    obtain ⟨w', hrun, hle, _⟩ := countHooks_symbol type code w
    exact ⟨w', hrun, hw.trans hle⟩
  magnitude _ w hw := ⟨w, rfl, hw⟩

/-- The counts with the symbols among some events. -/
def HuffVal.plus (v : HuffVal) (es : List Event) : HuffVal :=
  fun type code => v type code + es.count (.symbol type code)

theorem HuffVal.plus_append (v : HuffVal) (es es' : List Event) :
    v.plus (es ++ es') = (v.plus es).plus es' := by
  funext type code
  rw [plus, plus, plus, List.count_append, Nat.add_assoc]

theorem HuffVal.le_plus (v : HuffVal) (es : List Event) : v.Le (v.plus es) :=
  fun _ _ => Nat.le_add_right ..

theorem countHooks_event (e : Event) (v : HuffVal) :
    (countHooks.event e).run v = .ok () (v.plus [e]) := by
  cases e with
  | symbol t c =>
      refine congrArg (EStateM.Result.ok ()) (funext fun type => funext fun code => ?_)
      simp only [HuffVal.plus, List.count_singleton, beq_iff_eq, Event.symbol.injEq]
      by_cases h : type = t ∧ code = c
      · rw [if_pos h, if_pos ⟨h.1.symm, h.2.symm⟩]
      · rw [if_neg h, if_neg fun h' => h ⟨h'.1.symm, h'.2.symm⟩, Nat.add_zero]
  | magnitude x => rfl

theorem countHooks_run (es : List Event) (v : HuffVal) :
    (countHooks.events es).run v = .ok () (v.plus es) := by
  induction es generalizing v with
  | nil => rfl
  | cons e es ih =>
      rw [Hooks.events, bind_ok (countHooks_event e v), ih, ← HuffVal.plus_append]
      rfl

theorem countHooks_events (es : List Event) (v : HuffVal) :
    ∃ v', (countHooks.events es).run v = .ok () v' ∧ v.Le v' ∧
      ∀ type code, Event.symbol type code ∈ es → 1 ≤ v' type code :=
  ⟨_, countHooks_run es v, v.le_plus es, fun _ _ hmem =>
    le_trans (List.count_pos_iff.mpr hmem) (Nat.le_add_left ..)⟩

theorem mcuCols_mono (width : Nat) : mcuCols width 8 ≤ mcuCols (width + 1) 8 := by
  rw [mcuCols, mcuCols]
  omega

/-- The first pass over a conforming image counts every symbol of its blocks. -/
theorem passOneImage_conforms {priv : JdecPrivate} {codes : ScanCodes} {data tail : List UInt8}
    {units : List BlockCode} {pad : List Bool} (h : Conforms priv codes data tail units pad)
    (v : HuffVal) : ∃ v', passOneImage priv v = .ok v' ∧ v.Le v' ∧
      ∀ type code, Event.symbol type code ∈ unitEvents (imageComponents priv) units →
        1 ≤ v' type code := by
  obtain ⟨v₁, hev, hle₁, hones⟩ := countHooks_events (unitEvents (imageComponents priv) units) v
  obtain ⟨rest, hread, hlen⟩ := h.readUnits_start v
  obtain ⟨extra, hextra⟩ := Nat.exists_eq_add_of_le
    (Nat.mul_le_mul_left (mcuRows priv.height 8) (mcuCols_mono priv.width))
  have hto := h.restartsToGo_start v
  have hwalk := mcuLoop_coded_more (countHooks_keep v₁)
    (fun c hc => h.tables.codes_ok (ConformingTables.component_lt hc))
    (fun c hc => h.tables.safe (ConformingTables.component_lt hc)) (Conforms.start_ok v)
    (fun _ => rfl) (by rw [hto]; decide) hread (by omega) hev (fun _ _ => Nat.le_refl _) extra
  rw [passOneImage, tinyjpegDecode, h.tables.sampling, hextra]
  have hstart : (modify (resync priv) : EStateM Stop (Scan HuffVal) PUnit).run
      (Scan.start priv v) = .ok ⟨⟩ (resync priv (Scan.start priv v)) := rfl
  rcases hwalk with ⟨bs, s', hrun, hle⟩ | ⟨e, s', hrun, rfl, hle⟩
  all_goals
    refine ⟨s'.out, ?_, hle₁.trans hle, fun t c hmem => (hones t c hmem).trans (hle t c)⟩
    simp only [bind_ok hstart, hrun]

/-- The first pass over conforming images counts every symbol of all of them. -/
theorem passOne_conforms : ∀ {images : List JdecPrivate} (v : HuffVal),
    (∀ im ∈ images, ∃ codes data tail units pad, Conforms im codes data tail units pad) →
    ∃ v', passOne images v = .ok v' ∧ v.Le v' ∧
      ∀ im ∈ images, ∀ codes data tail units pad, Conforms im codes data tail units pad →
        ∀ type code, Event.symbol type code ∈ unitEvents (imageComponents im) units →
          1 ≤ v' type code
  | [], v, _ => ⟨v, rfl, fun _ _ => Nat.le_refl _, by simp⟩
  | im :: images, v, h => by
      obtain ⟨codes, data, tail, units, pad, him⟩ := h im (List.mem_cons_self ..)
      obtain ⟨v₁, hrun₁, hle₁, hones⟩ := passOneImage_conforms him v
      obtain ⟨v₂, hrun₂, hle₂, hall⟩ :=
        passOne_conforms v₁ fun im hmem => h im (List.mem_cons_of_mem _ hmem)
      refine ⟨v₂, by rw [passOne, hrun₁]; exact hrun₂, hle₁.trans hle₂, ?_⟩
      intro im' hmem codes' data' tail' units' pad' him' type code hsym
      cases List.mem_cons.mp hmem with
      | inl heq =>
          subst heq
          obtain ⟨v₁', hrun₁', _, hones'⟩ := passOneImage_conforms him' v
          obtain rfl : v₁' = v₁ := by
            rw [hrun₁] at hrun₁'
            exact (Except.ok.inj hrun₁').symm
          exact (hones' type code hsym).trans (hle₂ type code)
      | inr hmem => exact hall im' hmem codes' data' tail' units' pad' him' type code hsym

/-! ## The second pass -/

/-- The string written for an event. -/
def eventString (u : HuffValUseful) : Event → Except Stop (List Char)
  | .symbol type code => findNewCode u code type
  | .magnitude value => .ok (tobin value)

/-- Its bits. -/
def eventBits (u : HuffValUseful) (e : Event) : List Bool :=
  match eventString u e with
  | .ok str => stringToBits str
  | .error _ => []

/-- The bits of the new code of a symbol. -/
def newCode (u : HuffValUseful) (type code : Nat) : List Bool := eventBits u (.symbol type code)

theorem writeHooks_event (u : HuffValUseful) (e : Event) {str : List Char} {w : Writer}
    (h : eventString u e = .ok str) :
    ((writeHooks u).event e).run w = (writeString str).run w := by
  cases e with
  | symbol type code =>
      rw [eventString] at h
      simp only [Hooks.event, writeHooks, EStateM.run, h]
  | magnitude value =>
      obtain rfl := Except.ok.inj h
      rfl

/-- Writing the strings of events. -/
theorem writeHooks_events {u : HuffValUseful} : ∀ {es : List Event} {w : Writer}
    {base : List UInt8} {given : List Bool}, w.Holds base given →
    (∀ e ∈ es, ∃ str, eventString u e = .ok str ∧ str.length ≤ 16) →
    ∃ w' strs, ((writeHooks u).events es).run w = .ok () w' ∧ w'.handed = w.handed ++ strs ∧
      strs.flatMap stringToBits = es.flatMap (eventBits u) ∧
      w'.Holds base (given ++ es.flatMap (eventBits u))
  | [], w, _, _, h, _ => ⟨w, [], rfl, by simp, rfl, by simpa using h⟩
  | e :: es, w, base, given, h, hstr => by
      obtain ⟨str, hs, h16⟩ := hstr e (List.mem_cons_self ..)
      obtain ⟨w₁, hw₁, hhanded₁, h₁⟩ := writeStreamToFile_holds h h16
      obtain ⟨w₂, strs, hrun₂, hhanded₂, hbits₂, h₂⟩ :=
        writeHooks_events h₁ fun e he => hstr e (List.mem_cons_of_mem _ he)
      have hrun₁ : ((writeHooks u).event e).run w = .ok () w₁ := by
        rw [writeHooks_event u e hs, EStateM.run, writeString, hw₁]
      have hbits : eventBits u e = stringToBits str := by rw [eventBits, hs]
      refine ⟨w₂, str :: strs, by rw [Hooks.events, bind_ok hrun₁, hrun₂], ?_, ?_, ?_⟩
      · rw [hhanded₂, hhanded₁, List.append_assoc]
        rfl
      · rw [List.flatMap_cons, List.flatMap_cons, hbits, hbits₂]
      · rw [List.flatMap_cons, hbits, ← List.append_assoc]
        exact h₂

/-- The bits of a magnitude are the ones it was read from. -/
theorem eventBits_magnitude (u : HuffValUseful) {extra : List Bool} (h0 : extra ≠ [])
    (h19 : extra.length ≤ 19) : eventBits u (.magnitude (extend extra)) = extra := by
  rw [eventBits, eventString, tobin_extend h0 h19]
  exact stringToBits_bitChar extra

/-- The bits of the events of a token are its bits under the new code. -/
theorem tokenEvents_bits (u : HuffValUseful) {size : Nat → Nat} (type : Nat) {t : Token}
    (hlen : t.extra.length = size t.symbol) (h15 : size t.symbol ≤ 15) :
    (tokenEvents size type t).flatMap (eventBits u) = t.encode (newCode u type) := by
  rw [tokenEvents, List.flatMap_cons, Token.encode]
  by_cases h0 : size t.symbol = 0
  · rw [h0, List.length_eq_zero_iff] at hlen
    rw [if_pos h0, hlen]
    rfl
  · have hne : t.extra ≠ [] := by
      intro hnil
      rw [hnil] at hlen
      exact h0 hlen.symm
    rw [if_neg h0, List.flatMap_cons, eventBits_magnitude u hne (by omega), List.flatMap_nil,
      List.append_nil]
    rfl

/-- The bits of the events of a block are its bits under the new codes. -/
theorem blockEvents_bits (u : HuffValUseful) (c : Nat) {b : BlockCode} {dc ac : Table Nat}
    (hok : b.Ok dc ac) (h15 : ∀ v code, (v, code) ∈ dc → v ≤ 15) :
    (blockEvents c b).flatMap (eventBits u) =
      b.encode (newCode u (dcType c)) (newCode u (acType c)) := by
  obtain ⟨⟨hlen, code, hcode⟩, hac⟩ := hok
  rw [blockEvents, List.flatMap_append, BlockCode.encode,
    tokenEvents_bits u _ hlen (h15 _ _ hcode), List.flatMap_assoc]
  congr 1
  refine List.flatMap_congr fun t ht => ?_
  have h16 : t.symbol % 16 < 16 := Nat.mod_lt _ (by decide)
  exact tokenEvents_bits u _ (hac t ht).1 (by rw [acSize]; omega)

/-- The bits of the events of a scan are its bits under the new codes. -/
theorem unitEvents_bits (u : HuffValUseful) {dc ac : Nat → Table Nat} : ∀ {cs : List Nat}
    {us : List BlockCode}, (∀ c ∈ cs, ∀ v code, (v, code) ∈ dc c → v ≤ 15) → UnitsOk dc ac cs us →
    (unitEvents cs us).flatMap (eventBits u) =
      encodeUnits (fun c => newCode u (dcType c)) (fun c => newCode u (acType c)) cs us
  | [], us, _, _ => by cases us <;> rfl
  | _ :: _, [], _, _ => rfl
  | c :: cs, b :: us, h15, ⟨hb, hus⟩ => by
      rw [unitEvents, List.flatMap_append, encodeUnits,
        blockEvents_bits u c hb (h15 c (List.mem_cons_self ..)),
        unitEvents_bits u (fun c hc => h15 c (List.mem_cons_of_mem _ hc)) hus]

/-- New tables that have a code for each symbol of some events. -/
def HasCodes (u : HuffValUseful) (es : List Event) : Prop :=
  ∀ type code, Event.symbol type code ∈ es →
    ∃ c, findNewCode u code type = .ok (c.map bitChar) ∧
      (code, c) ∈ (u.table type).decodeTable ∧ c.length ≤ 16

theorem HasCodes.newCode_mem {u : HuffValUseful} {es : List Event} (h : HasCodes u es)
    {type code : Nat} (hmem : Event.symbol type code ∈ es) :
    (code, newCode u type code) ∈ (u.table type).decodeTable := by
  obtain ⟨c, hfind, hc, _⟩ := h type code hmem
  rw [newCode, eventBits, eventString, hfind]
  simpa using hc

/-- The new tables decode what is written with them. -/
theorem covers_of_hasCodes {u : HuffValUseful} : ∀ {cs : List Nat} {us : List BlockCode},
    HasCodes u (unitEvents cs us) →
    Covers (fun c => (u.table (dcType c)).decodeTable) (fun c => (u.table (acType c)).decodeTable)
      (fun c => newCode u (dcType c)) (fun c => newCode u (acType c)) cs us
  | [], us, _ => by cases us <;> trivial
  | _ :: _, [], _ => trivial
  | c :: cs, b :: us, h => by
      refine ⟨h.newCode_mem ?_, fun t ht => h.newCode_mem ?_, covers_of_hasCodes ?_⟩
      · simp [unitEvents, blockEvents, tokenEvents]
      · simp only [unitEvents, blockEvents, List.mem_append, List.mem_flatMap]
        exact Or.inl (Or.inr ⟨t, ht, by simp [tokenEvents]⟩)
      · exact fun type code hmem => h type code (by simp [unitEvents, hmem])

theorem tokenEvents_string {u : HuffValUseful} {size : Nat → Nat} {type : Nat} {t : Token}
    (hlen : t.extra.length = size t.symbol) (h15 : size t.symbol ≤ 15)
    (hcode : ∃ str, eventString u (.symbol type t.symbol) = .ok str ∧ str.length ≤ 16) :
    ∀ e ∈ tokenEvents size type t, ∃ str, eventString u e = .ok str ∧ str.length ≤ 16 := by
  intro e he
  rw [tokenEvents] at he
  cases List.mem_cons.mp he with
  | inl heq => exact heq ▸ hcode
  | inr hmem =>
      split at hmem
      · cases hmem
      next h0 =>
        rw [List.mem_singleton] at hmem
        have hne : t.extra ≠ [] := by
          intro hnil
          rw [hnil] at hlen
          exact h0 hlen.symm
        subst hmem
        refine ⟨_, rfl, ?_⟩
        rw [tobin_extend hne (by omega), List.length_map]
        omega

/-- Every event of a scan has a string. -/
theorem unitEvents_strings {u : HuffValUseful} {dc ac : Nat → Table Nat} : ∀ {cs : List Nat}
    {us : List BlockCode}, (∀ c ∈ cs, ∀ v code, (v, code) ∈ dc c → v ≤ 15) → UnitsOk dc ac cs us →
    HasCodes u (unitEvents cs us) →
    ∀ e ∈ unitEvents cs us, ∃ str, eventString u e = .ok str ∧ str.length ≤ 16
  | [], us, _, _, _, e, he => by cases us <;> simp [unitEvents] at he
  | _ :: _, [], _, _, _, e, he => by simp [unitEvents] at he
  | c :: cs, b :: us, h15, ⟨hb, hus⟩, hcodes, e, he => by
      have hsym : ∀ type code, Event.symbol type code ∈ unitEvents (c :: cs) (b :: us) →
          ∃ str, eventString u (.symbol type code) = .ok str ∧ str.length ≤ 16 := by
        intro type code hmem
        obtain ⟨bits, hfind, _, hlen⟩ := hcodes type code hmem
        exact ⟨_, hfind, by rw [List.length_map]; exact hlen⟩
      rw [unitEvents, List.mem_append] at he
      rcases he with he | he
      · rw [blockEvents, List.mem_append, List.mem_flatMap] at he
        obtain ⟨⟨hlen, code, hcode⟩, hac⟩ := hb
        rcases he with he | ⟨t, ht, he⟩
        · refine tokenEvents_string hlen (h15 c (List.mem_cons_self ..) _ _ hcode) (hsym _ _ ?_) e he
          simp [unitEvents, blockEvents, tokenEvents]
        · have h16 : t.symbol % 16 < 16 := Nat.mod_lt _ (by decide)
          refine tokenEvents_string (hac t ht).1 (by rw [acSize]; omega) (hsym _ _ ?_) e he
          simp only [unitEvents, blockEvents, List.mem_append, List.mem_flatMap]
          exact Or.inl (Or.inr ⟨t, ht, by simp [tokenEvents]⟩)
      · refine unitEvents_strings (fun c hc => h15 c (List.mem_cons_of_mem _ hc)) hus ?_ e he
        exact fun type code hmem => hcodes type code (by simp [unitEvents, hmem])

/-- The symbols of a scan are bytes, and their tables are among the four. -/
theorem unitEvents_symbol {priv : JdecPrivate} {codes : ScanCodes} (h : ConformingTables priv codes) :
    ∀ {cs : List Nat} {us : List BlockCode}, (∀ c ∈ cs, c < 3) → UnitsOk codes.dc codes.ac cs us →
    ∀ type code, Event.symbol type code ∈ unitEvents cs us → type < 4 ∧ code < 256
  | [], us, _, _, _, _, he => by cases us <;> simp [unitEvents] at he
  | _ :: _, [], _, _, _, _, he => by simp [unitEvents] at he
  | c :: cs, b :: us, hcs, ⟨hb, hus⟩, type, code, he => by
      have hc := hcs c (List.mem_cons_self ..)
      rw [unitEvents, List.mem_append] at he
      rcases he with he | he
      · obtain ⟨⟨_, dcCode, hdcCode⟩, hac⟩ := hb
        obtain ⟨_, _, hdcFits⟩ := h.dcFits c hc
        obtain ⟨_, _, hacFits⟩ := h.acFits c hc
        have htoken : ∀ {size : Nat → Nat} {ty : Nat} {t : Token},
            Event.symbol type code ∈ tokenEvents size ty t → type = ty ∧ code = t.symbol := by
          intro size ty t hmem
          rw [tokenEvents, List.mem_cons] at hmem
          rcases hmem with heq | hmem
          · injection heq with h1 h2
            exact ⟨h1, h2⟩
          · split at hmem <;> simp at hmem
        rw [blockEvents, List.mem_append, List.mem_flatMap] at he
        rcases he with he | ⟨t, ht, he⟩
        · obtain ⟨rfl, rfl⟩ := htoken he
          exact ⟨by rw [dcType]; split <;> omega, hdcFits.byte _ (List.of_mem_zip hdcCode).1⟩
        · obtain ⟨rfl, rfl⟩ := htoken he
          obtain ⟨_, acCode, hacCode⟩ := hac t ht
          exact ⟨by rw [acType]; split <;> omega, hacFits.byte _ (List.of_mem_zip hacCode).1⟩
      · exact unitEvents_symbol h (fun c hc => hcs c (List.mem_cons_of_mem _ hc)) hus type code he

/-- Counted symbols have codes. -/
theorem hasCodes_of_counts {u : HuffValUseful} {v : HuffVal} {es : List Event}
    (hbuilt : ∀ type < 4, (u.table type).Built fun i => countCell (v type i))
    (hes : ∀ type code, Event.symbol type code ∈ es → type < 4 ∧ code < 256)
    (hcount : ∀ type code, Event.symbol type code ∈ es → 1 ≤ v type code)
    (hlt : ∀ type < 4, ∀ code < 256, v type code < 2 ^ 31) : HasCodes u es := by
  intro type code hmem
  obtain ⟨htype, hcode⟩ := hes type code hmem
  have hcell := countCell_ne_zero (hcount type code hmem) (hlt type htype code hcode)
  obtain ⟨c, hfind, hc⟩ := findNewCode_built (hbuilt type htype) hcode hcell
  exact ⟨c, hfind, hc, (length_of_mem_table hc).2.trans (by simp [OneHufftype.sizeCounts])⟩

/-- The second pass over a 1x1 image writes the header and walks over the MCUs. -/
theorem writeNewBody_run {priv : JdecPrivate} {codes : ScanCodes}
    (h : ConformingTables priv codes) (u : HuffValUseful) (type : Nat) (out : List UInt8) :
    (writeNewBody u type priv).run (Scan.start priv (Writer.start out)) =
      (mcuLoop (writeHooks u) priv Sampling.s1x1.components
        (mcuRows priv.height 8 * mcuCols priv.width 8)).run
        (resync priv (Scan.start priv (Writer.start (out ++ sosHeader type)))) := by
  have hheader : (onOut (writeBytes (sosHeader type))).run (Scan.start priv (Writer.start out)) =
      .ok () (Scan.start priv (Writer.start (out ++ sosHeader type))) := rfl
  have hstart : (modify (resync priv) : EStateM Stop (Scan Writer) PUnit).run
      (Scan.start priv (Writer.start (out ++ sosHeader type))) =
      .ok ⟨⟩ (resync priv (Scan.start priv (Writer.start (out ++ sosHeader type)))) := rfl
  rw [writeNewBody, h.sampling, bind_ok hheader, bind_ok hstart]
  rfl

/-- The second pass over a conforming image all of whose symbols have new codes. -/
theorem writeNewBody_conforms {priv : JdecPrivate} {codes : ScanCodes} {data tail : List UInt8}
    {units : List BlockCode} {pad : List Bool} (h : Conforms priv codes data tail units pad)
    {u : HuffValUseful} (hcodes : HasCodes u (unitEvents (imageComponents priv) units)) (type : Nat)
    (out : List UInt8) :
    ∃ s, (writeNewBody u type priv).run (Scan.start priv (Writer.start out)) =
        .ok (unitCoeffs (fun _ => 0) (imageComponents priv) units) s ∧
      s.out.handed.flatMap stringToBits =
        encodeUnits (fun c => newCode u (dcType c)) (fun c => newCode u (acType c))
          (imageComponents priv) units ∧
      s.out.Holds (out ++ sosHeader type) (s.out.handed.flatMap stringToBits) := by
  have hok := readUnits_ok h.scan
  have h15 : ∀ c ∈ imageComponents priv, ∀ v code, (v, code) ∈ codes.dc c → v ≤ 15 :=
    fun c hc v code hmem =>
      h.tables.dcSize c (Conforms.mem_imageComponents hc) v (List.of_mem_zip hmem).1
  obtain ⟨w, strs, hev, hhanded, hbits, hholds⟩ :=
    writeHooks_events (Writer.start_holds (out ++ sosHeader type)) (unitEvents_strings h15 hok hcodes)
  obtain ⟨rest, hread, hlen⟩ := h.readUnits_start (Writer.start (out ++ sosHeader type))
  have hto := h.restartsToGo_start (Writer.start (out ++ sosHeader type))
  obtain ⟨r, m, hrun, _, _⟩ := mcuLoop_coded
    (fun c hc => h.tables.codes_ok (ConformingTables.component_lt hc))
    (Conforms.start_ok (Writer.start (out ++ sosHeader type))) (fun _ => rfl)
    (Or.inl (by rw [hto]; decide)) hread (by omega) hev
  have hbits' : w.handed.flatMap stringToBits =
      (unitEvents (imageComponents priv) units).flatMap (eventBits u) := by
    rw [hhanded, ← hbits]
    rfl
  rw [List.nil_append] at hholds
  exact ⟨_, (writeNewBody_run h.tables u type out).trans hrun,
    hbits'.trans (unitEvents_bits u h15 hok), hbits' ▸ hholds⟩

/-- Transcoding a set of conforming 1x1 images is lossless.  The second pass
returns, so it finds every symbol it asks for.  For each image the bits it
hands on decode with the new tables to the blocks it read, and nothing is left
over.  These are also the blocks the scan decodes to with its own tables, and
the file holds exactly the bits handed on. -/
theorem transcoding_lossless {images : List JdecPrivate}
    (himages : ∀ im ∈ images, ∃ codes data tail units pad, Conforms im codes data tail units pad)
    (hcount : ∀ v, passOne images (fun _ _ => 0) = .ok v →
      ∀ type < 4, ∀ code < 256, v type code < 2 ^ 31)
    (buf : CharBuf) :
    ∃ v u buf', passOne images (fun _ _ => 0) = .ok v ∧
      buildTrees (buildHuffValUseful v) buf = .ok (u, buf') ∧
      ∀ im ∈ images, ∀ out, ∃ blocks s,
        (writeNewBody u 0 im).run (Scan.start im (Writer.start out)) = .ok blocks s ∧
        decodeUnits (fun c => (u.table (dcType c)).decodeTable)
            (fun c => (u.table (acType c)).decodeTable) (imageComponents im)
            (s.out.handed.flatMap stringToBits) = some (blocks, []) ∧
        s.out.Holds (out ++ sosHeader 0) (s.out.handed.flatMap stringToBits) ∧
        ∀ codes data tail units pad, Conforms im codes data tail units pad →
          decodeUnits codes.dc codes.ac (imageComponents im) (Bits.ofBytes data) =
            some (blocks, pad) := by
  obtain ⟨v, hpass, _, hones⟩ := passOne_conforms (fun _ _ => 0) himages
  obtain ⟨u, buf', htrees, hbuilt⟩ := buildTrees_spec (fun type i => countCell (v type i)) buf
  have hlt := hcount v hpass
  refine ⟨v, u, buf', hpass, htrees, fun im him out => ?_⟩
  have hcodes : ∀ codes data tail units pad, Conforms im codes data tail units pad →
      HasCodes u (unitEvents (imageComponents im) units) := by
    intro codes data tail units pad h
    exact hasCodes_of_counts hbuilt
      (unitEvents_symbol h.tables (fun c hc => Conforms.mem_imageComponents hc) (readUnits_ok h.scan))
      (hones im him codes data tail units pad h) hlt
  obtain ⟨codes, data, tail, units, pad, h⟩ := himages im him
  have hcodes₁ := hcodes codes data tail units pad h
  obtain ⟨s, hrun, hbits, hholds⟩ := writeNewBody_conforms h hcodes₁ 0 out
  refine ⟨_, s, hrun, ?_, hholds, fun codes' data' tail' units' pad' h' => ?_⟩
  · rw [hbits]
    exact decodeUnits_encode (fun c => (hbuilt _ (by rw [dcType]; split <;> omega)).prefixFree)
      (fun c => (hbuilt _ (by rw [acType]; split <;> omega)).prefixFree) h.scan
      (covers_of_hasCodes hcodes₁)
  · have hcodes' := hcodes codes' data' tail' units' pad' h'
    obtain ⟨s', hrun', _, _⟩ := writeNewBody_conforms h' hcodes' 0 out
    have hblocks := hrun.symm.trans hrun'
    rw [EStateM.Result.ok.injEq] at hblocks
    rw [hblocks.1, decodeUnits, h'.scan]
    exact Option.map_some ..

/-! ## A small image -/

/-- A table filled from nothing. -/
def filledTable (bits vals : List Nat) : HuffmanTable :=
  (buildHuffmanTable bits vals .zero).getD .zero

theorem filledTable_built {bits vals : List Nat}
    (hsome : (buildHuffmanTable bits vals .zero).isSome) :
    buildHuffmanTable bits vals .zero = some (filledTable bits vals) := by
  obtain ⟨t, ht⟩ := Option.isSome_iff_exists.mp hsome
  rw [filledTable, ht]
  rfl

theorem filledTable_fits {bits vals : List Nat} (hsizes : bits.length = 16)
    (hcount : vals.length = bits.sum) (hbyte : ∀ v ∈ vals, v < 256) (hnodup : vals.Nodup)
    (hcodes : Fits (lengthsOf bits)) (hsome : (buildHuffmanTable bits vals .zero).isSome)
    (hshort : ∀ e ∈ huffEntries bits vals, e.codeSize ≤ huffmanHashNbits) :
    TableFits bits vals (filledTable bits vals) where
  sizes := hsizes
  count := hcount
  byte := hbyte
  nodup := hnodup
  codes := hcodes
  built := ⟨.zero, filledTable_built hsome⟩
  stored := fun e he hlong => absurd (hshort e he) (Nat.not_le.mpr hlong)

/-- The counts of two codes of one and two bits. -/
def smallDcBits : List Nat := [1, 1, 0, 0, 0, 0, 0, 0, 0, 0, 0, 0, 0, 0, 0, 0]

/-- The counts of a single code. -/
def smallAcBits : List Nat := [1, 0, 0, 0, 0, 0, 0, 0, 0, 0, 0, 0, 0, 0, 0, 0]

/-- One MCU: a DC difference of minus two for the first component and nothing else. -/
def smallImage : JdecPrivate where
  buffer := [0x90, 0x7f, 0xff, 0xd9]
  stream := [0x90, 0x7f, 0xff, 0xd9]
  width := 8
  height := 8
  componentInfos := fun _ => ⟨1, 1, some 0, some 0⟩
  htdc := fun _ => filledTable smallDcBits [0, 2]
  htac := fun _ => filledTable smallAcBits [0]
  restartInterval := 0

/-- Its codes. -/
def smallCodes : ScanCodes :=
  ⟨fun _ => smallDcBits, fun _ => [0, 2], fun _ => smallAcBits, fun _ => [0]⟩

theorem smallDc_fits : TableFits smallDcBits [0, 2] (filledTable smallDcBits [0, 2]) :=
  filledTable_fits rfl rfl (by decide) (by decide) (by decide) (by decide +kernel) (by decide)

theorem smallAc_fits : TableFits smallAcBits [0] (filledTable smallAcBits [0]) :=
  filledTable_fits rfl rfl (by decide) (by decide) (by decide) (by decide +kernel) (by decide)

theorem smallImage_tables : ConformingTables smallImage smallCodes where
  sampling := rfl
  dcFits _ _ := ⟨_, rfl, smallDc_fits⟩
  acFits _ _ := ⟨_, rfl, smallAc_fits⟩
  dcSize _ _ := show ∀ v ∈ [0, 2], v ≤ 15 by decide

theorem smallImage_conforms : Conforms smallImage smallCodes [0x90, 0x7f] []
    [⟨⟨2, [false, true]⟩, [⟨0, []⟩]⟩, ⟨⟨0, []⟩, [⟨0, []⟩]⟩, ⟨⟨0, []⟩, [⟨0, []⟩]⟩]
    [true, true, true, true, true, true, true] where
  tables := smallImage_tables
  restart := rfl
  stream := by decide
  scan := by decide +kernel
  padding := by decide

/-- No count of a first pass reaches 2^31. -/
def countsBelow : Except Stop HuffVal → Bool
  | .ok v => (List.range 4).all fun type => (List.range 256).all fun code => v type code < 2 ^ 31
  | .error _ => true

/-- The first pass makes one MCU too many of the image and still counts little. -/
theorem smallImage_counts (v : HuffVal) (hv : passOne [smallImage] (fun _ _ => 0) = .ok v) :
    ∀ type < 4, ∀ code < 256, v type code < 2 ^ 31 := by
  have hrun : countsBelow (passOne [smallImage] fun _ _ => 0) = true := by decide +kernel
  rw [hv] at hrun
  intro type htype code hcode
  have hall := List.all_eq_true.mp hrun type (List.mem_range.mpr htype)
  exact decide_eq_true_iff.mp (List.all_eq_true.mp hall code (List.mem_range.mpr hcode))

theorem transcoding_lossless_small :
    ∃ v u buf', passOne [smallImage] (fun _ _ => 0) = .ok v ∧
      buildTrees (buildHuffValUseful v) (fun _ => '0') = .ok (u, buf') ∧
      ∀ im ∈ [smallImage], ∀ out, ∃ blocks s,
        (writeNewBody u 0 im).run (Scan.start im (Writer.start out)) = .ok blocks s ∧
        decodeUnits (fun c => (u.table (dcType c)).decodeTable)
            (fun c => (u.table (acType c)).decodeTable) (imageComponents im)
            (s.out.handed.flatMap stringToBits) = some (blocks, []) ∧
        s.out.Holds (out ++ sosHeader 0) (s.out.handed.flatMap stringToBits) ∧
        ∀ codes data tail units pad, Conforms im codes data tail units pad →
          decodeUnits codes.dc codes.ac (imageComponents im) (Bits.ofBytes data) =
            some (blocks, pad) :=
  transcoding_lossless
    (fun _ him => ⟨smallCodes, _, _, _, _, List.mem_singleton.mp him ▸ smallImage_conforms⟩)
    smallImage_counts (fun _ => '0')

end Recode
