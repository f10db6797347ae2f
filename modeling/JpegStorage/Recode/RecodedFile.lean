import JpegStorage.Recode.Directory

/-!
# The recoded file

The output file and the bytes that go to the closed handle behind it are again an image
that the program reads.  Its header is parsed to the frame of the old one and to the new
tables, and its scan holds the same tokens (`recoded_files_conform`).

The new tables have to fit into a segment and into the slow rows.  Their DC symbols are
magnitude sizes because the first pass counts nothing but symbols of the old tables,
even where it decodes behind the end of the scan.
-/

namespace Recode

open Canonical Stuffing Baseline Run Segments

/-! ## The tables read back -/

/-- The counts and symbols of the new tables. -/
def HuffValUseful.scanCodes (u : HuffValUseful) : ScanCodes where
  dcBits c := (u.table (dcType c)).sizeCounts
  dcVals c := (u.table (dcType c)).symbols
  acBits c := (u.table (acType c)).sizeCounts
  acVals c := (u.table (acType c)).symbols

/-- A new table fits the decoder that fills it. -/
theorem OneHufftype.Built.tableFits {t : OneHufftype} {cell : Nat → Int} (h : t.Built cell)
    {old table : HuffmanTable} (hbuild : buildHuffmanTable t.sizeCounts t.symbols old = some table) :
    TableFits t.sizeCounts t.symbols table where
  sizes := by simp [sizeCounts]
  count := h.length_symbols.trans h.sum_sizeCounts.symm
  byte _ hv := h.symbols_lt hv
  nodup := h.nodup_symbols
  codes := by
    rw [h.lengthsOf_sizeCounts]
    exact quotaCodes_fits.take t.count
  built := ⟨old, hbuild⟩
  stored := by
    intro e he hlong
    have hlt : e.code < 65536 :=
      (h.good.fits e he).trans_le (Nat.pow_le_pow_right (by decide) (h.good.size e he).2)
    have hmod : e.code % 65536 = e.code := Nat.mod_eq_of_lt hlt
    have hne := h.good.nonzero e he hlong
    rw [huffmanHashNbits] at hlong ⊢
    rw [fillTable_slowtable _ (fillTable_of_build hbuild), slowRow]
    refine List.mem_append_right _ (List.mem_map.mpr ⟨e, ?_, by rw [hmod]⟩)
    rw [List.mem_filter, decide_eq_true_eq, hmod]
    exact ⟨he, by omega, hne⟩

/-- The tables of an image are the new ones. -/
structure NewTables (priv : JdecPrivate) (u : HuffValUseful) : Prop where
  /-- `HTDC`. -/
  dc : ∀ c < 3, TableFits (u.scanCodes.dcBits c) (u.scanCodes.dcVals c) (priv.htdc (dcType c))
  /-- `HTAC`. -/
  ac : ∀ c < 3, TableFits (u.scanCodes.acBits c) (u.scanCodes.acVals c) (priv.htac (dcType c))

/-- The tables of the segment are stored under the numbers the scan header selects. -/
theorem HuffValUseful.Built.newTables_stored {u : HuffValUseful} {cell : Nat → Nat → Int}
    (h : u.Built cell) {f g : JdecPrivate} (hstore : storeTables u.segmentTables f = some g) :
    NewTables g u := by
  simp only [segmentTables, storeTables] at hstore
  split at hstore
  · cases hstore
  next priv₁ h1 =>
    split at hstore
    · cases hstore
    next priv₂ h2 =>
      split at hstore
      · cases hstore
      next priv₃ h3 =>
        split at hstore
        · cases hstore
        next priv₄ h4 =>
          cases hstore
          obtain ⟨_, _, hdc0, rfl⟩ := storeTable_filled h1
          obtain ⟨_, _, hac0, rfl⟩ := storeTable_filled h2
          obtain ⟨_, _, hdc1, rfl⟩ := storeTable_filled h3
          obtain ⟨_, _, hac1, rfl⟩ := storeTable_filled h4
          constructor
          · intro c hc
            obtain rfl | rfl | rfl : c = 0 ∨ c = 1 ∨ c = 2 := by omega
            · exact h.dc0.tableFits hdc0
            · exact h.dc1.tableFits hdc1
            · exact h.dc1.tableFits hdc1
          · intro c hc
            obtain rfl | rfl | rfl : c = 0 ∨ c = 1 ∨ c = 2 := by omega
            · exact h.ac0.tableFits hac0
            · exact h.ac1.tableFits hac1
            · exact h.ac1.tableFits hac1

/-- What the new scan header selects. -/
theorem parseSOS_selects {g q : JdecPrivate} {scan : List UInt8}
    (h : parseSOS g ((sosHeader 0).drop 2 ++ scan) = some q) :
    q.stream = scan ∧ ∀ c < 3, q.dcTable c = some (g.htdc (dcType c)) ∧
      q.acTable c = some (g.htac (dcType c)) := by
  cases h
  refine ⟨rfl, fun c hc => ?_⟩
  obtain rfl | rfl | rfl : c = 0 ∨ c = 1 ∨ c = 2 := by omega
  all_goals exact ⟨rfl, rfl⟩

/-! ## The header -/

/-- A header that can be recoded: it has tables, from the first one to the scan there are
only tables, and the frame headers are as long as their lists of components. -/
def Copyable (buf : List UInt8) : Prop :=
  ∃ segs rest, Walk StdMarkers.sos (buf.drop 2) segs rest ∧
    (∃ s ∈ segs, s.marker = StdMarkers.dht) ∧ OnlyTablesAfter segs ∧
    ∀ s ∈ segs.takeWhile (fun s => s.marker ≠ StdMarkers.dht), Complete s

section
variable {buf rest : List UInt8} {priv : JdecPrivate} {segs : List Segment}
  {pre post : List (Nat × Segment)} {n m : Nat} {d : Segment} {u : HuffValUseful}
  {cell : Nat → Nat → Int}

/-- The rounds over an accepted header, with the last one. -/
theorem parsed_sos (hparse : tinyjpegParseHeader buf = .ok priv)
    (hcut : Cut (buf.drop 2) segs pre n d post m rest) :
    ∃ f g p, parseSegments ((n, d) :: post) (fill (m + 1) ++ StdMarkers.sos :: rest) f = .ok g ∧
      parseSOS g rest = some p ∧ priv = { p with buffer := buf.drop 2 } := by
  obtain ⟨_, p, hrun, rfl⟩ := tinyjpegParseHeader_ok hparse
  have hbound := length_spell (pre ++ (n, d) :: post) (fill (m + 1) ++ StdMarkers.sos :: rest)
  rw [← hcut.bytes, List.length_drop] at hbound
  rw [hcut.bytes] at hrun
  obtain ⟨g, hg, _, hsos⟩ := (parseJFIF_sos hcut.sos (by omega) m rest _ _).mp hrun
  rw [parseSegments_append] at hg
  obtain ⟨f, _, hg⟩ := hg
  exact ⟨f, g, p, hg, hsos, rfl⟩

/-- The recoded header is cut at the segment of the new tables. -/
theorem recoded_cut (hcut : Cut (buf.drop 2) segs pre n d post m rest) (hlen : 2 ≤ buf.length)
    (h : u.Built cell) (hfit : u.total ≤ 185) (scan : List UInt8) :
    ∃ t, t.body = newTables u ∧
      Cut ((recodedHeader 0 u (buf.take 2 ++ spell pre (fill (n + 1) ++ [StdMarkers.dht])) ++
          scan).drop 2)
        (pre.map Prod.snd ++ [t]) pre n t [] 0 ((sosHeader 0).drop 2 ++ scan) := by
  obtain ⟨t, ht, htables⟩ := exists_newTables h hfit
  exact ⟨t, htables, recoded_drop pre n h hlen ht htables scan, rfl, hcut.pre_dht, ht, hcut.pre_sos,
    fun _ hp => absurd hp List.not_mem_nil⟩

/-- The recoded header can be recoded. -/
theorem recoded_copyable (hcut : Cut (buf.drop 2) segs pre n d post m rest)
    (hcomplete : ∀ s ∈ segs.takeWhile (fun s => s.marker ≠ StdMarkers.dht), Complete s)
    {out : List UInt8} {t : Segment} {rest' : List UInt8}
    (hnew : Cut (out.drop 2) (pre.map Prod.snd ++ [t]) pre n t [] 0 rest') : Copyable out := by
  have hne : ∀ s ∈ (pre ++ [(n, t)]).map Prod.snd, s.marker ≠ StdMarkers.sos := by
    intro s hs
    obtain ⟨p, hp, rfl⟩ := List.mem_map.mp hs
    exact hnew.sos p hp
  have hwalk := Walk.spell _ hne (.stop 0 rest')
  rw [← hnew.bytes, List.append_nil, List.map_append] at hwalk
  have hmem := List.mem_append_right (pre.map Prod.snd) (List.mem_singleton_self t)
  refine ⟨_, _, hwalk, ⟨t, hmem, hnew.marker⟩, ?_, ?_⟩
  · intro s hs
    have hs' : s ∈ [t] := hnew.dropWhile ▸ hs
    rw [List.mem_singleton.mp hs', hnew.marker]
  · intro s hs
    have hs' : s ∈ pre.map Prod.snd := hnew.takeWhile ▸ hs
    exact hcomplete s (hcut.takeWhile ▸ hs')

/-- The decoder finds the new tables. -/
theorem recoded_tables (h : u.Built cell) (hfit : u.total ≤ 185) {out scan : List UInt8}
    {priv' : JdecPrivate} {t : Segment} (htables : t.body = newTables u)
    (hnew : Cut (out.drop 2) segs pre n t [] 0 ((sosHeader 0).drop 2 ++ scan))
    (hparse : tinyjpegParseHeader out = .ok priv') : priv'.stream = scan ∧
      (∀ c < 3, ∃ table, priv'.dcTable c = some table ∧
        TableFits (u.scanCodes.dcBits c) (u.scanCodes.dcVals c) table) ∧
      ∀ c < 3, ∃ table, priv'.acTable c = some table ∧
        TableFits (u.scanCodes.acBits c) (u.scanCodes.acVals c) table := by
  obtain ⟨f, g, p, hg, hsos, rfl⟩ := parsed_sos hparse hnew
  have hstore := (parseSegments_newTables h hfit hnew.marker htables n scan f g).mp hg
  obtain ⟨hdc, hac⟩ := h.newTables_stored hstore
  obtain ⟨hstream, hselect⟩ := parseSOS_selects hsos
  exact ⟨hstream, fun c hc => ⟨_, (hselect c hc).1, hdc c hc⟩,
    fun c hc => ⟨_, (hselect c hc).2, hac c hc⟩⟩

end

/-- The recoded header gives the old frame, the new tables and the scan behind it.  It can
be recoded again, and then the same bytes of it are copied. -/
theorem recoded_header {buf : List UInt8} {priv : JdecPrivate} {u : HuffValUseful}
    {cell : Nat → Nat → Int} (hparse : tinyjpegParseHeader buf = .ok priv) (hcopy : Copyable buf)
    (h : u.Built cell) (hfit : u.total ≤ 185) (hrows : u.RowsFit) :
    ∃ head, writeHeadData buf = .ok head ∧ ∀ scan, Copyable (recodedHeader 0 u head ++ scan) ∧
      writeHeadData (recodedHeader 0 u head ++ scan) = .ok head ∧
      ∃ priv', tinyjpegParseHeader (recodedHeader 0 u head ++ scan) = .ok priv' ∧
        SameFrame priv priv' ∧ priv'.stream = scan ∧
        (∀ c < 3, ∃ table, priv'.dcTable c = some table ∧
          TableFits (u.scanCodes.dcBits c) (u.scanCodes.dcVals c) table) ∧
        ∀ c < 3, ∃ table, priv'.acTable c = some table ∧
          TableFits (u.scanCodes.acBits c) (u.scanCodes.acVals c) table := by
  obtain ⟨segs, rest, hwalk, hdht, honly, hcomplete⟩ := hcopy
  obtain ⟨hiff, hkept⟩ := headerPreserved_cut h hfit hparse hwalk hdht
  obtain ⟨head, hhead, hall⟩ := hiff.mpr ⟨honly, hrows, hkept hcomplete⟩
  obtain ⟨pre, n, d, post, m, hcut⟩ := Cut.exists hwalk hdht
  have hlen := (tinyjpegParseHeader_ok hparse).1
  obtain rfl := Except.ok.inj (hhead.symm.trans (writeHeadData_cut hcut hlen))
  refine ⟨_, hhead, fun scan => ?_⟩
  obtain ⟨t, htables, hnew⟩ := recoded_cut hcut hlen h hfit scan
  obtain ⟨⟨priv', hparse', hframe⟩, _⟩ := hall scan
  have hhead' := writeHeadData_cut hnew (tinyjpegParseHeader_ok hparse').1
  have htwo : (buf.take 2).length = 2 := by
    rw [List.length_take]
    omega
  rw [recodedHeader_eq h, List.append_assoc, List.append_assoc, List.take_left' htwo] at hhead'
  refine ⟨recoded_copyable hcut hcomplete hnew, ?_, priv', hparse', hframe,
    recoded_tables h hfit htables hnew hparse'⟩
  rw [recodedHeader_eq h, List.append_assoc, List.append_assoc]
  exact hhead'

/-! ## The scan -/

theorem SameFrame.sampling {p q : JdecPrivate} (h : SameFrame p q) : p.sampling = q.sampling := by
  simp only [JdecPrivate.sampling, h.hfactor, h.vfactor]

theorem SameFrame.imageComponents {p q : JdecPrivate} (h : SameFrame p q) :
    imageComponents p = imageComponents q := by
  simp only [Recode.imageComponents, h.width, h.height]

/-- The last byte holds the bits that wait and a padding of ones. -/
theorem finalByte_bits {held : List Bool} (hle : held.length ≤ 8) :
    ∃ last pad, finalByte held = stuff last ∧ Bits.ofBytes last = held ++ pad ∧
      pad.length < 8 ∧ ∀ b ∈ pad, b = true := by
  by_cases hnil : held = []
  · refine ⟨[], [], ?_, ?_, by decide, fun b hb => absurd hb List.not_mem_nil⟩
    · rw [finalByte, if_pos hnil]
      rfl
    · rw [hnil]
      rfl
  · have hpos := List.length_pos_iff.mpr hnil
    have hlen : (held ++ List.replicate (8 - held.length) true).length = 8 := by
      rw [List.length_append, List.length_replicate]
      omega
    have hbits : Bits.ofByte (Bits.toByte (held ++ List.replicate (8 - held.length) true)) =
        held ++ List.replicate (8 - held.length) true := by
      generalize held ++ List.replicate (8 - held.length) true = xs at hlen
      rw [Bits.ofByte, Bits.toByte, UInt8.toNat_ofNat', Bits.ofNat_mod, ← hlen, Bits.ofNat_toNat]
    refine ⟨_, List.replicate (8 - held.length) true, by rw [finalByte, if_neg hnil], ?_, ?_, ?_⟩
    · rw [Bits.ofBytes_cons, Bits.ofBytes_nil, List.append_nil, hbits]
    · rw [List.length_replicate]
      omega
    · exact fun b hb => List.eq_of_mem_replicate hb

/-- What was written and what goes to the closed handle are the stuffed form of the bits
handed on, a padding of ones and an end of image. -/
theorem Writer.Holds.completed {w : Writer} {base : List UInt8} {given : List Bool}
    (h : w.Holds base given) :
    ∃ data pad, w.out ++ (w.finalBytes ++ [0xff, 0xd9]).map UInt8.ofNat =
        base ++ (stuff data ++ [0xff, 0xd9]) ∧ Bits.ofBytes data = given ++ pad ∧
      pad.length < 8 ∧ ∀ b ∈ pad, b = true := by
  obtain ⟨d, hout, hgiven⟩ := h.data
  have hheld : (Bits.ofNat w.bits w.stream).length ≤ 8 := (Bits.length_ofNat ..).trans_le h.le
  obtain ⟨last, pad, hlast, hbits, hpad⟩ := finalByte_bits hheld
  refine ⟨d ++ last, pad, ?_, ?_, hpad⟩
  · rw [List.map_append, h.finalBytes, hlast, hout, stuff_append]
    simp only [List.append_assoc]
    rfl
  · rw [Bits.ofBytes_append, hbits, ← hgiven, List.append_assoc]

/-- The blocks of a conforming image are read again from what the second pass makes of it. -/
theorem recoded_scan {priv : JdecPrivate} {codes : ScanCodes} {data tail : List UInt8}
    {units : List BlockCode} {pad : List Bool} (h : Conforms priv codes data tail units pad)
    {u : HuffValUseful} {cell : Nat → Nat → Int} (hbuilt : ∀ type < 4, (u.table type).Built (cell type))
    (hcodes : HasCodes u (unitEvents (imageComponents priv) units)) (rest : List Bool) :
    readUnits u.scanCodes.dc u.scanCodes.ac (imageComponents priv)
      (encodeUnits (fun c => newCode u (dcType c)) (fun c => newCode u (acType c))
        (imageComponents priv) units ++ rest) = some (units, rest) := by
  have hdc : ∀ c, PrefixFree (u.scanCodes.dc c) := fun c =>
    (hbuilt _ (by rw [dcType]; split <;> omega)).prefixFree
  have hac : ∀ c, PrefixFree (u.scanCodes.ac c) := fun c =>
    (hbuilt _ (by rw [acType]; split <;> omega)).prefixFree
  exact readUnits_encode hdc hac h.scan (covers_of_hasCodes hcodes) rest

/-! ## The DC symbols -/

/-- No DC symbol of more than fifteen bits is counted. -/
def HuffVal.SizesFit (v : HuffVal) : Prop := ∀ type < 2, ∀ code, 15 < code → v type code = 0

theorem countHooks_sizesFit {priv : JdecPrivate} {codes : ScanCodes}
    (h : ConformingTables priv codes) :
    countHooks.KeepsValues priv Sampling.s1x1.components HuffVal.SizesFit where
  dc c hc table v htable hv w hw type htype code hcode := by
    obtain ⟨table', htable', _, hsize⟩ := (h.safe (ConformingTables.component_lt hc)).1
    obtain rfl := Option.some.inj (htable.symm.trans htable')
    have hle := hsize v hv
    have hne : ¬ (type = dcType c ∧ code = v) := by omega
    exact (if_neg hne).trans (hw type htype code hcode)
  ac c _ _ v _ _ w hw type htype code hcode := by
    have hne : ¬ (type = acType c ∧ code = v) := by
      rw [acType]
      split <;> omega
    exact (if_neg hne).trans (hw type htype code hcode)
  magnitude _ _ hw := hw
  rst _ _ hw := hw

theorem passOneImage_sizesFit {priv : JdecPrivate} {codes : ScanCodes}
    (h : ConformingTables priv codes) {v w : HuffVal} (hv : v.SizesFit)
    (hrun : passOneImage priv v = .ok w) : w.SizesFit := by
  have hloop : (finalState ((tinyjpegDecode priv).run (Scan.start priv v))).out.SizesFit := by
    rw [tinyjpegDecode, h.sampling]
    have hstart : (modify (resync priv) : EStateM Stop (Scan HuffVal) PUnit).run
        (Scan.start priv v) = .ok ⟨⟩ (resync priv (Scan.start priv v)) := rfl
    rw [bind_ok hstart]
    exact mcuLoop_keeps (countHooks_sizesFit h) _ (resync priv (Scan.start priv v)) hv
  rw [passOneImage] at hrun
  split at hrun
  next heq =>
    rw [heq] at hloop
    exact Except.ok.inj hrun ▸ hloop
  next heq =>
    rw [heq] at hloop
    exact Except.ok.inj hrun ▸ hloop
  next => cases hrun

/-! ## The files -/

/-- An image that can be recoded: its header is accepted and copied, and its scan codes
these blocks. -/
structure ImageFile (buf : List UInt8) (priv : JdecPrivate) (units : List BlockCode) : Prop where
  /-- The header. -/
  parsed : tinyjpegParseHeader buf = .ok priv
  /-- It can be copied. -/
  copyable : Copyable buf
  /-- The scan. -/
  conforms : ∃ codes data tail pad, Conforms priv codes data tail units pad

/-- The names are those of images. -/
def AllImages (disk : Disk) (names : List Path) : Prop :=
  ∀ path ∈ names, ∃ buf priv units, disk path = some buf ∧ ImageFile buf priv units

/-- The record of the tables has room for those of all files. -/
structure RecordFits (disk : Disk) (names : List Path) : Prop where
  /-- The tables have the four types. -/
  typed : ¬ Untyped (diskTables disk) names
  /-- All codes of a type fit into one entry. -/
  codes : ∀ type, totalTypeCount (diskTables disk) names type ≤ huffTableCapacity
  /-- Every file has an entry. -/
  files : names.length < dirHuffCapacity

/-- The counts can be coded: they are exact, and the new tables fit into a segment and into
the slow rows of a decoder. -/
structure CountsFit (v : HuffVal) : Prop where
  /-- Every count is an `int`. -/
  lt : ∀ type < 4, ∀ code < 256, v type code < 2 ^ 31
  /-- The length of the segment is a byte. -/
  segment : v.distinct 0 + v.distinct 1 + v.distinct 2 + v.distinct 3 ≤ 185
  /-- The slow rows. -/
  rows : ∀ type < 4, v.distinct type ≤ 148

section
variable {disk : Disk} {names : List Path}

theorem imageCounts_eq {path : Path} {buf : List UInt8} {priv : JdecPrivate}
    {units : List BlockCode} (hbuf : disk path = some buf) (h : ImageFile buf priv units) :
    imageCounts disk path = passOneImage priv fun _ _ => 0 := by
  rw [imageCounts, hbuf]
  dsimp only
  rw [h.parsed]
  rfl

theorem imageCounts_ok (himages : AllImages disk names) {path : Path} (hpath : path ∈ names) :
    ∃ v, imageCounts disk path = .ok v ∧ v.SizesFit := by
  obtain ⟨buf, priv, units, hbuf, himage⟩ := himages path hpath
  obtain ⟨codes, data, tail, pad, hconforms⟩ := himage.conforms
  obtain ⟨v, hv, _⟩ := passOneImage_conforms hconforms fun _ _ => 0
  refine ⟨v, (imageCounts_eq hbuf himage).trans hv, ?_⟩
  exact passOneImage_sizesFit hconforms.tables (fun _ _ _ _ => rfl) hv

/-- What all files add together is no less than what one of them adds. -/
theorem le_totalCounts {path : Path} (hpath : path ∈ names) {v : HuffVal}
    (hv : imageCounts disk path = .ok v) : v.Le (totalCounts disk names) := by
  intro type code
  refine List.single_le_sum (fun _ _ => Nat.zero_le _) _ (List.mem_map.mpr ⟨path, hpath, ?_⟩)
  rw [hv]

theorem totalCounts_sizesFit (himages : AllImages disk names) :
    (totalCounts disk names).SizesFit := by
  intro type htype code hcode
  rw [totalCounts, List.sum_eq_zero_iff]
  intro n hn
  obtain ⟨path, hpath, rfl⟩ := List.mem_map.mp hn
  obtain ⟨v, hv, hfit⟩ := imageCounts_ok himages hpath
  rw [hv]
  exact hfit type htype code hcode

end

/-- The writer behind the tables. -/
theorem HuffValUseful.Built.tables_written {u : HuffValUseful} {cell : Nat → Nat → Int}
    (h : u.Built cell) (head : List UInt8) :
    { writeHuffmanTable 0 u ⟨0, 0, head, []⟩ with handed := [] } =
      Writer.start (head ++ newTables u) := by
  have hstart : (⟨0, 0, head, []⟩ : Writer) = (Writer.start head).emit [] := by
    rw [Writer.emit, List.append_nil]
    rfl
  rw [hstart, h.writeHuffmanTable_single, newTables, h.single_out]
  rfl

/-- What recoding makes of an image. -/
structure RecodedAs (u : HuffValUseful) (buf : List UInt8) (priv : JdecPrivate)
    (units : List BlockCode) (bytes : List UInt8) : Prop where
  /-- The copied header, the new tables and the blocks coded with them. -/
  coded : ∃ head data pad, writeHeadData buf = .ok head ∧ writeHeadData bytes = .ok head ∧
    bytes = recodedHeader 0 u head ++ (stuff data ++ [0xff, 0xd9]) ∧
    Bits.ofBytes data = encodeUnits (fun c => newCode u (dcType c)) (fun c => newCode u (acType c))
      (imageComponents priv) units ++ pad ∧ pad.length < 8 ∧ ∀ b ∈ pad, b = true
  /-- It is an image again. -/
  image : ∃ priv', SameFrame priv priv' ∧ ImageFile bytes priv' units

/-- A file is recoded if its symbols have codes and the new tables have room. -/
theorem recodedFile_image {disk : Disk} {path : Path} {buf : List UInt8} {priv : JdecPrivate}
    {units : List BlockCode} {u : HuffValUseful} {cell : Nat → Nat → Int}
    (hbuf : disk path = some buf) (himage : ImageFile buf priv units) (h : u.Built cell)
    (hbuilt : ∀ type < 4, (u.table type).Built (cell type)) (hfit : u.total ≤ 185)
    (hrows : u.RowsFit) (hcodes : HasCodes u (unitEvents (imageComponents priv) units))
    (hsizes : ∀ type < 2, ∀ v ∈ (u.table type).symbols, v ≤ 15) :
    ∃ w, recodedFile u disk path = .ok w ∧
      RecodedAs u buf priv units (w.out ++ (w.finalBytes ++ [0xff, 0xd9]).map UInt8.ofNat) := by
  obtain ⟨codes, data, tail, pad, hconforms⟩ := himage.conforms
  obtain ⟨head, hhead, hall⟩ := recoded_header himage.parsed himage.copyable h hfit hrows
  obtain ⟨s, hrun, hbits, hholds⟩ := writeNewBody_conforms hconforms hcodes 0 (head ++ newTables u)
  rw [List.append_assoc, ← recodedHeader_eq h, hbits] at hholds
  obtain ⟨data', pad', hout, hdata, hpad⟩ := hholds.completed
  obtain ⟨hcopy, hhead', priv', hparse, hframe, hstream, hdc, hac⟩ :=
    hall (stuff data' ++ [0xff, 0xd9])
  rw [← hout] at hparse hcopy hhead'
  refine ⟨s.out, ?_, ⟨head, data', pad', hhead, hhead', hout, hdata, hpad⟩, priv', hframe, hparse,
    hcopy, u.scanCodes, data', [], pad', ?_⟩
  · rw [recodedFile, hbuf]
    dsimp only
    rw [recodedScan, himage.parsed, ok_bind, hhead, ok_bind, h.tables_written, runNewBody, hrun]
  · refine ⟨⟨hframe.sampling.symm.trans hconforms.tables.sampling, hdc, hac, ?_⟩,
      hframe.restartInterval.symm.trans hconforms.restart, hstream, ?_, hpad⟩
    · exact fun c _ => hsizes (dcType c) (by rw [dcType]; split <;> omega)
    · rw [hdata, ← hframe.imageComponents]
      exact recoded_scan hconforms hbuilt hcodes pad'

/-- The output files with what goes to the closed handle, under the names of their images. -/
def Tool.completed (s : Tool) : Disk := fun path =>
  (s.disk (outputPath path)).map fun out => out ++ (s.ends path).map UInt8.ofNat

/-- The program gets through a directory of images. -/
theorem main_images {disk : Disk} {names : List Path} (himages : AllImages disk names)
    (hfree : ∀ p ∈ names, ∀ q ∈ names, q ≠ outputPath p)
    (hcounts : CountsFit (totalCounts disk names)) (cbuf : CharBuf) :
    ∃ u cbuf' s, buildTrees (buildHuffValUseful (totalCounts disk names)) cbuf = .ok (u, cbuf') ∧
      main disk names cbuf = .ok (u, s) ∧ (RecordFits disk names → ¬ s.record.Outside) ∧
      (∀ path, (∀ p ∈ names, path ≠ outputPath p) → s.disk path = disk path) ∧
      ∀ path ∈ names, ∀ buf priv units, disk path = some buf → ImageFile buf priv units →
        ∃ bytes, s.completed path = some bytes ∧ RecodedAs u buf priv units bytes := by
  obtain ⟨u, cbuf', htrees, hbuilt⟩ :=
    buildTrees_spec (fun type i => countCell (totalCounts disk names type i)) cbuf
  have h : u.Built fun type i => countCell (totalCounts disk names type i) :=
    ⟨hbuilt 0 (by omega), hbuilt 1 (by omega), hbuilt 2 (by omega), hbuilt 3 (by omega)⟩
  have hsizes : ∀ type < 2, ∀ v ∈ (u.table type).symbols, v ≤ 15 := by
    intro type htype v hv
    by_contra hlarge
    have hcell := ((hbuilt type (by omega)).mem_symbols.mp hv).2
    rw [totalCounts_sizesFit himages type htype v (by omega)] at hcell
    exact hcell rfl
  have hfile : ∀ path ∈ names, ∀ buf priv units, disk path = some buf → ImageFile buf priv units →
      ∃ w, recodedFile u disk path = .ok w ∧
        RecodedAs u buf priv units (w.out ++ (w.finalBytes ++ [0xff, 0xd9]).map UInt8.ofNat) := by
    intro path hpath buf priv units hbuf himage
    obtain ⟨codes, data, tail, pad, hconforms⟩ := himage.conforms
    obtain ⟨v, hv, _, hones⟩ := passOneImage_conforms hconforms fun _ _ => 0
    have hle := le_totalCounts hpath ((imageCounts_eq hbuf himage).trans hv)
    have hcodes := hasCodes_of_counts hbuilt
      (unitEvents_symbol hconforms.tables (fun c hc => Conforms.mem_imageComponents hc)
        (readUnits_ok hconforms.scan))
      (fun type code hmem => (hones type code hmem).trans (hle type code)) hcounts.lt
    exact recodedFile_image hbuf himage h hbuilt (h.total_eq.trans_le hcounts.segment)
      (h.rowsFit_iff.mpr hcounts.rows) hcodes hsizes
  have hread : ∀ path ∈ names, ∃ v, imageCounts disk path = .ok v := by
    intro path hpath
    obtain ⟨v, hv, _⟩ := imageCounts_ok himages hpath
    exact ⟨v, hv⟩
  have hwrite : ∀ path ∈ names, ∃ w, recodedFile u disk path = .ok w := by
    intro path hpath
    obtain ⟨buf, priv, units, hbuf, himage⟩ := himages path hpath
    obtain ⟨w, hw, _⟩ := hfile path hpath buf priv units hbuf himage
    exact ⟨w, hw⟩
  have hflushed : (Tool.counted disk names).Flushed := ⟨rfl, rfl⟩
  have hdisk : ∀ path ∈ names, (Tool.counted disk names).disk path = disk path := fun _ _ => rfl
  obtain ⟨s, hrun, hleft, hlast⟩ := recodeAll_ok names.length hflushed hdisk hfree hwrite
  refine ⟨u, cbuf', s, htrees, ?_, ?_, hleft.kept, ?_⟩
  · rw [main, countAll_start hread, ok_bind]
    change (buildTrees (collectTables fun type i => countCell (totalCounts disk names type i))
      cbuf >>= _) = _
    rw [htrees, ok_bind, hrun]
    rfl
  · intro hrecord
    rw [hlast, Tool.counted, outside_iff]
    rintro (htyped | ⟨type, hcodes | ⟨hfiles, _⟩⟩)
    · exact hrecord.typed htyped
    · exact Nat.not_lt.mpr (hrecord.codes type) hcodes
    · exact Nat.not_le.mpr hrecord.files hfiles
  · intro path hpath buf priv units hbuf himage
    obtain ⟨w, hw, hnew⟩ := hfile path hpath buf priv units hbuf himage
    obtain ⟨hout, hends⟩ := hleft.written path hpath w hw
    refine ⟨_, ?_, hnew⟩
    rw [Tool.completed, hout, hends]
    rfl

/-- Recoding a directory gives images again.  When the counts and the record have room and
no image is the output file of another, the program gets through without a write outside of
the record.  Each output file, with the bytes that go to the closed handle behind it, is an
image of the same frame whose scan codes the same blocks, and it can be recoded in its turn.
The other files are left alone. -/
theorem recoded_files_conform {disk : Disk} {names : List Path} (himages : AllImages disk names)
    (hfree : ∀ p ∈ names, ∀ q ∈ names, q ≠ outputPath p)
    (hcounts : CountsFit (totalCounts disk names)) (hrecord : RecordFits disk names)
    (cbuf : CharBuf) :
    ∃ u s, main disk names cbuf = .ok (u, s) ∧ ¬ s.record.Outside ∧
      (∀ path, (∀ p ∈ names, path ≠ outputPath p) → s.disk path = disk path) ∧
      ∀ path ∈ names, ∀ buf priv units, disk path = some buf → ImageFile buf priv units →
        ∃ out priv', s.disk (outputPath path) = some out ∧ SameFrame priv priv' ∧
          ImageFile (out ++ (s.ends path).map UInt8.ofNat) priv' units := by
  obtain ⟨u, _, s, _, hrun, hinside, hkept, hfiles⟩ := main_images himages hfree hcounts cbuf
  refine ⟨u, s, hrun, hinside hrecord, hkept, fun path hpath buf priv units hbuf himage => ?_⟩
  obtain ⟨bytes, hbytes, hrecoded⟩ := hfiles path hpath buf priv units hbuf himage
  obtain ⟨out, hout, rfl⟩ := Option.map_eq_some_iff.mp hbytes
  obtain ⟨priv', hframe, hnew⟩ := hrecoded.image
  exact ⟨out, priv', hout, hframe, hnew⟩

/-! ## Two names of an image -/

/-- A frame of eight by seven pixels. -/
def slimFrame : Segment where
  marker := StdMarkers.sof
  payload := [8, 0, 8, 0, 7, 3, 0, 0x11, 0, 1, 0x11, 0, 2, 0x11, 0]
  marker_ne := (smallFrame 0 1 2).marker_ne
  fits := by decide

/-- An image of this frame, all of whose coefficients are zero. -/
def slimFile : List UInt8 := headerFile [slimFrame, scanTables] ++ [0x03, 0xff, 0xd9]

/-- What it is parsed to. -/
def slimImage : JdecPrivate :=
  match tinyjpegParseHeader slimFile with
  | .ok priv => priv
  | .error _ => tinyjpegInit

/-- Its codes. -/
def slimCodes : ScanCodes :=
  ⟨fun _ => smallAcBits, fun _ => [0], fun _ => smallAcBits, fun _ => [0]⟩

theorem slimImage_tables : ConformingTables slimImage slimCodes where
  sampling := rfl
  dcFits c hc := by
    obtain rfl | rfl | rfl : c = 0 ∨ c = 1 ∨ c = 2 := by omega
    all_goals exact ⟨_, rfl, smallAc_fits⟩
  acFits c hc := by
    obtain rfl | rfl | rfl : c = 0 ∨ c = 1 ∨ c = 2 := by omega
    all_goals exact ⟨_, rfl, smallAc_fits⟩
  dcSize _ _ := show ∀ v ∈ [0], v ≤ 15 by decide

theorem slimFile_image :
    ImageFile slimFile slimImage (List.replicate 3 ⟨⟨0, []⟩, [⟨0, []⟩]⟩) where
  parsed := rfl
  copyable := by
    refine ⟨_, _, .spell [(0, slimFrame), (0, scanTables)] (by decide) (.stop 0 _),
      by decide, by decide, ?_⟩
    intro s hs
    have hmem : s ∈ [slimFrame] := hs
    rw [List.mem_singleton.mp hmem]
    exact fun _ => ⟨3, rfl, by decide⟩
  conforms := ⟨slimCodes, [0x03], [], [true, true], slimImage_tables, rfl, by decide,
    by decide +kernel, by decide⟩

/-- The image under two names. -/
def slimFiles : Disk := twoImages (someName, slimFile) (otherName, slimFile)

theorem slimFiles_images : AllImages slimFiles [someName, otherName] := by
  intro path hpath
  rcases List.mem_pair.mp hpath with rfl | rfl
  · exact ⟨slimFile, slimImage, _, rfl, slimFile_image⟩
  · exact ⟨slimFile, slimImage, _, rfl, slimFile_image⟩

theorem slimFiles_counts : CountsFit (totalCounts slimFiles [someName, otherName]) where
  lt := by
    have hall : (List.range 4).all (fun type => (List.range 256).all fun code =>
        totalCounts slimFiles [someName, otherName] type code < 2 ^ 31) = true := by
      decide +kernel
    intro type htype code hcode
    have hrow := List.all_eq_true.mp hall type (List.mem_range.mpr htype)
    exact decide_eq_true_iff.mp (List.all_eq_true.mp hrow code (List.mem_range.mpr hcode))
  segment := by decide +kernel
  rows := by decide +kernel

theorem slimFiles_record : RecordFits slimFiles [someName, otherName] where
  typed := by
    rw [Untyped]
    decide +kernel
  codes type := by
    have hfirst : diskTables slimFiles someName = [(0x00, 1), (0x10, 1)] := by decide +kernel
    have hsecond : diskTables slimFiles otherName = [(0x00, 1), (0x10, 1)] := by decide +kernel
    have htwo : typeCount [(0x00, 1), (0x10, 1)] type ≤ 2 := by
      rw [typeCount_cons, typeCount_cons]
      change _ + (_ + 0) ≤ 2
      split <;> split <;> omega
    simp only [totalTypeCount, List.map_cons, List.map_nil, List.sum_cons, List.sum_nil, hfirst,
      hsecond, huffTableCapacity]
    omega
  files := by decide

/-- Both output files hold the image again. -/
theorem recoded_files_conform_slim : ∃ u s,
    main slimFiles [someName, otherName] (fun _ => '0') = .ok (u, s) ∧ ¬ s.record.Outside ∧
      (∀ path, (∀ p ∈ [someName, otherName], path ≠ outputPath p) →
        s.disk path = slimFiles path) ∧
      ∀ path ∈ [someName, otherName], ∀ buf priv units, slimFiles path = some buf →
        ImageFile buf priv units → ∃ out priv', s.disk (outputPath path) = some out ∧
          SameFrame priv priv' ∧ ImageFile (out ++ (s.ends path).map UInt8.ofNat) priv' units :=
  recoded_files_conform slimFiles_images (by decide) slimFiles_counts slimFiles_record _

end Recode
