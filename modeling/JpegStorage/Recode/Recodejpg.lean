import JpegStorage.Recode.Lossless

/-!
# The program `recodejpg`

`recodejpg` also takes images whose first component is subsampled in both directions.  An
MCU of such an image has four blocks of it, and the first pass records that its type is 1.
The counts are `unsigned long`, `cal_new_huffman` gets a new buffer for each table, and
`Find_New_code` returns nothing when it does not find the value.

Images of both kinds can be recoded together without a loss in their scans, and each one
is written with its own type (`mixed_scans_lossless`).
-/

namespace Recode

open Canonical Stuffing Baseline Run

namespace Recodejpg

/-! ## The first pass -/

/-- `tinyjpeg_decode`.  The samplings 1x2 and 2x1 end the program.  The loop over `x` has
one round too many when the width is a multiple of the stride. -/
def tinyjpegDecode (priv : JdecPrivate) : EStateM Stop (Scan HuffVal) (List (List Int)) := do
  if priv.sampling = .s1x2 ∨ priv.sampling = .s2x1 then throw .exit
  modify (resync priv)
  mcuLoop countHooks priv priv.sampling.components
    (mcuRows priv.height priv.sampling.ystride * mcuCols (priv.width + 1) priv.sampling.xstride)

/-- What the first pass fills in: `huff_val` and the `type` of each file. -/
structure Counted where
  /-- `huff_val`. -/
  huffVal : HuffVal
  /-- `Dir_Record->dir_huff[workon].type`. -/
  type : Nat → Nat

/-- The first pass over the image `workon`.  The type is set before the blocks are decoded,
and the `longjmp` only ends the image. -/
def passOneImage (workon : Nat) (priv : JdecPrivate) (s : Counted) : Except Stop Counted :=
  let type := if priv.sampling = .s2x2 then Function.update s.type workon 1 else s.type
  match (tinyjpegDecode priv).run (Scan.start priv s.huffVal) with
  | .ok _ t => .ok ⟨t.out, type⟩
  | .error .eio t => .ok ⟨t.out, type⟩
  | .error e _ => .error e

/-- The first pass over the images from `workon` on. -/
def passOne : Nat → List JdecPrivate → Counted → Except Stop Counted
  | _, [], s => .ok s
  | workon, priv :: privs, s => do
      let s ← passOneImage workon priv s
      passOne (workon + 1) privs s

/-! ## The trees -/

/-- The four calls of `main`, each with the buffer it gets. -/
def buildTrees (u : HuffValUseful) (buf : Nat → CharBuf) : Except Stop HuffValUseful := do
  let (u, _) ← buildDC0Tree u (buf 0)
  let (u, _) ← buildDC1Tree u (buf 1)
  let (u, _) ← buildAC0Tree u (buf 2)
  let (u, _) ← buildAC1Tree u (buf 3)
  pure u

/-! ## The second pass -/

/-- `Find_New_code`.  It ends without a result when the value is not found. -/
def findNewCode (u : HuffValUseful) (val type : Nat) : Except Stop (List Char) :=
  match ((u.table type).val.zip (u.table type).code).find? (fun p => p.1 = val) with
  | some (_, some code) => .ok code
  | _ => .error .undefined

/-- The second pass. -/
def writeHooks (u : HuffValUseful) : Hooks Writer :=
  { Recode.writeHooks u with
    symbol := fun type code w =>
      match findNewCode u code type with
      | .error e => .error e w
      | .ok str => writeString str w }

/-- `Write_New_Body`.  The result is the sequence of the blocks decoded. -/
def writeNewBody (u : HuffValUseful) (type : Nat) (priv : JdecPrivate) :
    EStateM Stop (Scan Writer) (List (List Int)) := do
  onOut (writeBytes (sosHeader type))
  modify (resync priv)
  mcuLoop (writeHooks u) priv priv.sampling.components
    (mcuRows priv.height priv.sampling.ystride * mcuCols priv.width priv.sampling.xstride)

/-! ## Conforming images -/

/-- The components of the blocks of an image. -/
def imageComponents (priv : JdecPrivate) : List Nat :=
  mcuComponents priv.sampling.components
    (mcuRows priv.height priv.sampling.ystride * mcuCols priv.width priv.sampling.xstride)

/-- The tables a conforming image decodes with. -/
structure ConformingTables (priv : JdecPrivate) (codes : ScanCodes) : Prop where
  /-- The first component is subsampled in both directions or in none. -/
  sampling : priv.sampling = .s1x1 ∨ priv.sampling = .s2x2
  /-- The DC tables. -/
  dcFits : ∀ c < 3, ∃ t, priv.dcTable c = some t ∧ TableFits (codes.dcBits c) (codes.dcVals c) t
  /-- The AC tables. -/
  acFits : ∀ c < 3, ∃ t, priv.acTable c = some t ∧ TableFits (codes.acBits c) (codes.acVals c) t
  /-- DC symbols are magnitude sizes of a `short`. -/
  dcSize : ∀ c < 3, ∀ v ∈ codes.dcVals c, v ≤ 15

/-- A conforming image of either sampling without restart intervals. -/
structure Conforms (priv : JdecPrivate) (codes : ScanCodes) (data tail : List UInt8)
    (units : List BlockCode) (pad : List Bool) : Prop where
  /-- The tables. -/
  tables : ConformingTables priv codes
  /-- No restart intervals. -/
  restart : priv.restartInterval = 0
  /-- The scan. -/
  stream : priv.stream = stuff data ++ 0xff :: 0xd9 :: tail
  /-- The blocks. -/
  scan : readUnits codes.dc codes.ac (imageComponents priv) (Bits.ofBytes data) = some (units, pad)
  /-- The padding. -/
  padding : pad.length < 8 ∧ ∀ b ∈ pad, b = true

/-- The image with an MCU of three blocks. -/
def unsampled (priv : JdecPrivate) : JdecPrivate :=
  { priv with componentInfos := fun c => { priv.componentInfos c with hfactor := 1, vfactor := 1 } }

namespace ConformingTables

variable {priv : JdecPrivate} {codes : ScanCodes}

theorem sampling_unsampled (priv : JdecPrivate) : (Recodejpg.unsampled priv).sampling = .s1x1 := by
  have hone : 1 ||| 1 = 1 := rfl
  rw [JdecPrivate.sampling]
  exact if_pos hone

/-- The tables do not depend on the sampling. -/
theorem unsampled (h : ConformingTables priv codes) :
    Recode.ConformingTables (unsampled priv) codes :=
  ⟨sampling_unsampled priv, h.dcFits, h.acFits, h.dcSize⟩

theorem component_lt {sampling : Sampling} {c : Nat} (hc : c ∈ sampling.components) : c < 3 := by
  cases sampling <;>
    simp only [Sampling.components, List.mem_cons, List.not_mem_nil, or_false] at hc <;> omega

theorem codes_ok (h : ConformingTables priv codes) {c : Nat} (hc : c < 3) :
    priv.Codes c (codes.dc c) (codes.ac c) := by
  obtain ⟨hdc, hac, hsize⟩ := h.unsampled.codes_ok hc
  exact ⟨hdc, hac, hsize⟩

theorem safe (h : ConformingTables priv codes) {c : Nat} (hc : c < 3) : priv.Safe c := by
  obtain ⟨hdc, hac⟩ := h.unsampled.safe hc
  exact ⟨hdc, hac⟩

end ConformingTables

namespace Conforms

variable {priv : JdecPrivate} {codes : ScanCodes} {data tail : List UInt8} {units : List BlockCode}
  {pad : List Bool}

theorem mem_imageComponents {c : Nat} (hc : c ∈ imageComponents priv) : c < 3 :=
  ConformingTables.component_lt (mem_mcuComponents hc)

theorem prefixFree (h : Conforms priv codes data tail units pad) {c : Nat}
    (hc : c ∈ imageComponents priv) : PrefixFree (codes.dc c) ∧ PrefixFree (codes.ac c) :=
  ⟨h.tables.unsampled.dc_prefixFree (mem_imageComponents hc),
    h.tables.unsampled.ac_prefixFree (mem_imageComponents hc)⟩

/-- The decoder sees the coded blocks, the padding and the two bytes of the end of image. -/
theorem readUnits_start (h : Conforms priv codes data tail units pad) {σ : Type} (o : σ) :
    ∃ rest, readUnits codes.dc codes.ac (imageComponents priv)
        (resync priv (Scan.start priv o)).reader.bits = some (units, rest) ∧ 8 ≤ rest.length := by
  have hbits : (resync priv (Scan.start priv o)).reader.bits =
      Bits.ofBytes data ++ Bits.ofBytes (unstuff (0xff :: 0xd9 :: tail)) := by
    change Bits.ofNat 0 0 ++ Bits.ofBytes (unstuff priv.stream) = _
    rw [h.stream, unstuff_stuff_append, Bits.ofNat_zero, List.nil_append, Bits.ofBytes_append]
  rw [hbits]
  refine ⟨_, readUnits_more _ (fun c hc => (h.prefixFree hc).1) (fun c hc => (h.prefixFree hc).2)
    h.scan, ?_⟩
  rw [unstuff_cons, List.length_append, Bits.length_ofBytes, List.length_cons]
  omega

theorem start_ok {σ : Type} (o : σ) : (resync priv (Scan.start priv o)).reader.Ok :=
  ⟨Nat.one_pos, Nat.zero_le _⟩

theorem restartsToGo_start (h : Conforms priv codes data tail units pad) {σ : Type} (o : σ) :
    (resync priv (Scan.start priv o)).restartsToGo ≤ 0 := by
  simp [resync, h.restart]

/-- The symbols of the scan are bytes of the four tables. -/
theorem symbols (h : Conforms priv codes data tail units pad) {type code : Nat}
    (hmem : Event.symbol type code ∈ unitEvents (imageComponents priv) units) :
    type < 4 ∧ code < 256 :=
  unitEvents_symbol h.tables.unsampled (fun _ hc => mem_imageComponents hc) (readUnits_ok h.scan)
    type code hmem

end Conforms

/-! ## The counts -/

theorem mcuCols_mono (width stride : Nat) : mcuCols width stride ≤ mcuCols (width + 1) stride :=
  Nat.div_le_div_right (by omega)

/-- The first pass over a conforming image counts every symbol of its blocks. -/
theorem passOneImage_conforms {priv : JdecPrivate} {codes : ScanCodes} {data tail : List UInt8}
    {units : List BlockCode} {pad : List Bool} (h : Conforms priv codes data tail units pad)
    (workon : Nat) (s : Counted) :
    ∃ v, passOneImage workon priv s = .ok ⟨v,
        if priv.sampling = .s2x2 then Function.update s.type workon 1 else s.type⟩ ∧
      s.huffVal.Le v ∧ ∀ type code,
        Event.symbol type code ∈ unitEvents (imageComponents priv) units → 1 ≤ v type code := by
  obtain ⟨v₁, hev, hle₁, hones⟩ :=
    countHooks_events (unitEvents (imageComponents priv) units) s.huffVal
  obtain ⟨rest, hread, hlen⟩ := h.readUnits_start s.huffVal
  obtain ⟨extra, hextra⟩ := Nat.exists_eq_add_of_le
    (Nat.mul_le_mul_left (mcuRows priv.height priv.sampling.ystride)
      (mcuCols_mono priv.width priv.sampling.xstride))
  have hwalk := mcuLoop_coded_more (countHooks_keep v₁)
    (fun c hc => h.tables.codes_ok (ConformingTables.component_lt hc))
    (fun c hc => h.tables.safe (ConformingTables.component_lt hc)) (Conforms.start_ok s.huffVal)
    (fun _ => rfl) (h.restartsToGo_start s.huffVal) hread hlen hev (fun _ _ => Nat.le_refl _) extra
  have hsampling : ¬ (priv.sampling = .s1x2 ∨ priv.sampling = .s2x1) := by
    rcases h.tables.sampling with heq | heq <;> rw [heq] <;> decide
  have hstart : (modify (resync priv) : EStateM Stop (Scan HuffVal) PUnit).run
      (Scan.start priv s.huffVal) = .ok ⟨⟩ (resync priv (Scan.start priv s.huffVal)) := rfl
  rw [passOneImage, tinyjpegDecode, if_neg hsampling, hextra]
  rcases hwalk with ⟨bs, s', hrun, hle⟩ | ⟨e, s', hrun, rfl, hle⟩
  all_goals
    refine ⟨s'.out, ?_, hle₁.trans hle, fun t c hmem => (hones t c hmem).trans (hle t c)⟩
    simp only [bind_ok hstart, hrun]

/-- The first pass over conforming images counts every symbol of all of them, and it records
the type of each one. -/
theorem passOne_conforms {images : List JdecPrivate}
    (himages : ∀ im ∈ images, ∃ codes data tail units pad, Conforms im codes data tail units pad)
    (workon : Nat) (s : Counted) :
    ∃ t, passOne workon images s = .ok t ∧ s.huffVal.Le t.huffVal ∧
      (∀ i < workon, t.type i = s.type i) ∧
      (∀ i im, images[i]? = some im →
        t.type (workon + i) = if im.sampling = .s2x2 then 1 else s.type (workon + i)) ∧
      ∀ im ∈ images, ∀ codes data tail units pad, Conforms im codes data tail units pad →
        ∀ type code, Event.symbol type code ∈ unitEvents (imageComponents im) units →
          1 ≤ t.huffVal type code := by
  induction images generalizing workon s with
  | nil => exact ⟨s, rfl, fun _ _ => Nat.le_refl _, fun _ _ => rfl, by simp, by simp⟩
  | cons im images ih =>
      obtain ⟨codes, data, tail, units, pad, him⟩ := himages im (List.mem_cons_self ..)
      obtain ⟨v₁, hrun₁, hle₁, _⟩ := passOneImage_conforms him workon s
      obtain ⟨t, hrun, hle, hbefore, htypes, hones⟩ :=
        ih (fun im hmem => himages im (List.mem_cons_of_mem _ hmem)) (workon + 1)
          ⟨v₁, if im.sampling = .s2x2 then Function.update s.type workon 1 else s.type⟩
      have hother : ∀ j ≠ workon, (if im.sampling = .s2x2 then Function.update s.type workon 1
          else s.type) j = s.type j := by
        intro j hj
        split
        · exact Function.update_of_ne hj ..
        · rfl
      refine ⟨t, by rw [passOne, hrun₁]; exact hrun, hle₁.trans hle, ?_, ?_, ?_⟩
      · intro j hj
        exact (hbefore j (by omega)).trans (hother j (by omega))
      · intro i im' him'
        cases i with
        | zero =>
            obtain rfl := Option.some.inj him'
            refine (hbefore workon (by omega)).trans ?_
            dsimp only
            split
            · exact Function.update_self ..
            · rfl
        | succ i =>
            have htype := htypes i im' him'
            dsimp only at htype
            rw [hother _ (by omega)] at htype
            rwa [show workon + 1 + i = workon + (i + 1) by omega] at htype
      · intro im' hmem codes' data' tail' units' pad' him' type code hsym
        cases List.mem_cons.mp hmem with
        | inl heq =>
            subst heq
            obtain ⟨v₂, hrun₂, _, hones₂⟩ := passOneImage_conforms him' workon s
            obtain ⟨rfl, _⟩ := Counted.mk.inj (Except.ok.inj (hrun₁.symm.trans hrun₂))
            exact (hones₂ type code hsym).trans (hle type code)
        | inr hmem => exact hones im' hmem codes' data' tail' units' pad' him' type code hsym

/-! ## The codes -/

theorem buildTrees_spec (cell : Nat → Nat → Int) (buf : Nat → CharBuf) :
    ∃ u, buildTrees (collectTables cell) buf = .ok u ∧
      ∀ type < 4, (u.table type).Built (cell type) := by
  obtain ⟨dc0, _, hdc0, hb0⟩ := buildTree_spec (cell 0) (buf 0)
  obtain ⟨dc1, _, hdc1, hb1⟩ := buildTree_spec (cell 1) (buf 1)
  obtain ⟨ac0, _, hac0, hb2⟩ := buildTree_spec (cell 2) (buf 2)
  obtain ⟨ac1, _, hac1, hb3⟩ := buildTree_spec (cell 3) (buf 3)
  have hsize : (ac1.code.take ac1.count).any (fun c => 16 < (c.getD []).length) = false := by
    rw [List.any_eq_false]
    intro c hc
    have hle := hb3.length_le c hc
    simp only [decide_eq_true_eq]
    omega
  refine ⟨⟨dc0, dc1, ac0, ac1⟩, ?_, ?_⟩
  · simp only [buildTrees, collectTables, buildDC0Tree, buildDC1Tree, buildAC0Tree, buildAC1Tree,
      hdc0, hdc1, hac0, hac1, bind, pure, Except.bind, Except.pure, hsize]
    rfl
  · intro type htype
    obtain rfl | rfl | rfl | rfl : type = 0 ∨ type = 1 ∨ type = 2 ∨ type = 3 := by omega
    · exact hb0
    · exact hb1
    · exact hb2
    · exact hb3

theorem longCell_ne_zero {n : Nat} (h : 1 ≤ n) (hlt : n < 2 ^ 64) : longCell n ≠ 0 := by
  intro hzero
  have hdvd : ((2 ^ 64 : Nat) : Int) ∣ (n : Int) := Int.dvd_of_bmod_eq_zero hzero
  have hle := Nat.le_of_dvd h (Int.natCast_dvd_natCast.mp hdvd)
  omega

/-- Counted symbols have codes. -/
theorem hasCodes_of_counts {u : HuffValUseful} {v : HuffVal} {es : List Event}
    (hbuilt : ∀ type < 4, (u.table type).Built fun i => longCell (v type i))
    (hes : ∀ type code, Event.symbol type code ∈ es → type < 4 ∧ code < 256)
    (hcount : ∀ type code, Event.symbol type code ∈ es → 1 ≤ v type code)
    (hlt : ∀ type < 4, ∀ code < 256, v type code < 2 ^ 64) : HasCodes u es := by
  intro type code hmem
  obtain ⟨htype, hcode⟩ := hes type code hmem
  have hcell := longCell_ne_zero (hcount type code hmem) (hlt type htype code hcode)
  obtain ⟨c, hfind, hc⟩ := findNewCode_built (hbuilt type htype) hcode hcell
  exact ⟨c, hfind, hc, (length_of_mem_table hc).2.trans (by simp [OneHufftype.sizeCounts])⟩

/-! ## The second pass -/

/-- A code that is found is the same. -/
theorem findNewCode_ok {u : HuffValUseful} {val type : Nat} {str : List Char}
    (h : Recode.findNewCode u val type = .ok str) : findNewCode u val type = .ok str := by
  rw [Recode.findNewCode] at h
  rw [findNewCode]
  split at h
  · cases h
  · cases h
  next heq => rw [heq, ← h]

theorem writeHooks_event {u : HuffValUseful} {e : Event} {str : List Char}
    (h : eventString u e = .ok str) : (writeHooks u).event e = (Recode.writeHooks u).event e := by
  cases e with
  | symbol type code =>
      have hfind : Recode.findNewCode u code type = .ok str := h
      funext w
      simp only [Hooks.event, writeHooks, Recode.writeHooks, hfind, findNewCode_ok hfind]
  | magnitude value => rfl

/-- Events with strings are written as in the other program. -/
theorem writeHooks_events {u : HuffValUseful} {es : List Event}
    (h : ∀ e ∈ es, ∃ str, eventString u e = .ok str ∧ str.length ≤ 16) :
    (writeHooks u).events es = (Recode.writeHooks u).events es := by
  induction es with
  | nil => rfl
  | cons e es ih =>
      obtain ⟨str, hstr, _⟩ := h e (List.mem_cons_self ..)
      rw [Hooks.events, Hooks.events, writeHooks_event hstr,
        ih fun e he => h e (List.mem_cons_of_mem _ he)]

/-- The second pass writes the header and walks over the MCUs. -/
theorem writeNewBody_run (u : HuffValUseful) (type : Nat) (priv : JdecPrivate) (out : List UInt8) :
    (writeNewBody u type priv).run (Scan.start priv (Writer.start out)) =
      (mcuLoop (writeHooks u) priv priv.sampling.components
        (mcuRows priv.height priv.sampling.ystride * mcuCols priv.width priv.sampling.xstride)).run
        (resync priv (Scan.start priv (Writer.start (out ++ sosHeader type)))) := by
  have hheader : (onOut (writeBytes (sosHeader type))).run (Scan.start priv (Writer.start out)) =
      .ok () (Scan.start priv (Writer.start (out ++ sosHeader type))) := rfl
  have hstart : (modify (resync priv) : EStateM Stop (Scan Writer) PUnit).run
      (Scan.start priv (Writer.start (out ++ sosHeader type))) =
      .ok ⟨⟩ (resync priv (Scan.start priv (Writer.start (out ++ sosHeader type)))) := rfl
  rw [writeNewBody, bind_ok hheader, bind_ok hstart]

/-- The second pass over a conforming image all of whose symbols have new codes. -/
theorem writeNewBody_conforms {priv : JdecPrivate} {codes : ScanCodes} {data tail : List UInt8}
    {units : List BlockCode} {pad : List Bool} (h : Conforms priv codes data tail units pad)
    {u : HuffValUseful} (hcodes : HasCodes u (unitEvents (imageComponents priv) units)) (type : Nat)
    (out : List UInt8) :
    ∃ s, (writeNewBody u type priv).run (Scan.start priv (Writer.start out)) =
        .ok (unitCoeffs (fun _ => 0) (imageComponents priv) units) s ∧
      s.out.handed.flatMap stringToBits =
        encodeUnits (fun c => newCode u (dcType c)) (fun c => newCode u (acType c))
          (imageComponents priv) units ∧
      s.out.Holds (out ++ sosHeader type) (s.out.handed.flatMap stringToBits) := by
  have hok := readUnits_ok h.scan
  have h15 : ∀ c ∈ imageComponents priv, ∀ v code, (v, code) ∈ codes.dc c → v ≤ 15 :=
    fun c hc v code hmem =>
      h.tables.dcSize c (Conforms.mem_imageComponents hc) v (List.of_mem_zip hmem).1
  have hstrings := unitEvents_strings h15 hok hcodes
  obtain ⟨w, strs, hev, hhanded, hbits, hholds⟩ :=
    Recode.writeHooks_events (Writer.start_holds (out ++ sosHeader type)) hstrings
  rw [← writeHooks_events hstrings] at hev
  obtain ⟨rest, hread, hlen⟩ := h.readUnits_start (Writer.start (out ++ sosHeader type))
  obtain ⟨r, m, hrun, _, _⟩ := mcuLoop_coded
    (fun c hc => h.tables.codes_ok (ConformingTables.component_lt hc))
    (Conforms.start_ok (Writer.start (out ++ sosHeader type))) (fun _ => rfl)
    (Or.inl (h.restartsToGo_start _)) hread hlen hev
  have hbits' : w.handed.flatMap stringToBits =
      (unitEvents (imageComponents priv) units).flatMap (eventBits u) := by
    rw [hhanded, ← hbits]
    rfl
  rw [List.nil_append] at hholds
  exact ⟨_, (writeNewBody_run u type priv out).trans hrun,
    hbits'.trans (unitEvents_bits u h15 hok), hbits' ▸ hholds⟩

/-- Images of both samplings are recoded together without a loss in their scans.  Both passes
get through, and each scan header has the type of its image.  The bits handed on for an image
decode with the new tables to the blocks its own tables give, and nothing is left over. -/
theorem mixed_scans_lossless {images : List JdecPrivate}
    (himages : ∀ im ∈ images, ∃ codes data tail units pad, Conforms im codes data tail units pad)
    (type : Nat → Nat)
    (hcount : ∀ t, passOne 0 images ⟨fun _ _ => 0, type⟩ = .ok t →
      ∀ table < 4, ∀ code < 256, t.huffVal table code < 2 ^ 64) (buf : Nat → CharBuf) :
    ∃ t u, passOne 0 images ⟨fun _ _ => 0, type⟩ = .ok t ∧
      buildTrees (buildHuffValUsefulLong t.huffVal) buf = .ok u ∧
      ∀ i im, images[i]? = some im → ∀ out, ∃ blocks s,
        (writeNewBody u (t.type i) im).run (Scan.start im (Writer.start out)) = .ok blocks s ∧
        decodeUnits (fun c => (u.table (dcType c)).decodeTable)
            (fun c => (u.table (acType c)).decodeTable) (imageComponents im)
            (s.out.handed.flatMap stringToBits) = some (blocks, []) ∧
        s.out.Holds (out ++ sosHeader (if im.sampling = .s2x2 then 1 else type i))
          (s.out.handed.flatMap stringToBits) ∧
        ∀ codes data tail units pad, Conforms im codes data tail units pad →
          decodeUnits codes.dc codes.ac (imageComponents im) (Bits.ofBytes data) =
            some (blocks, pad) := by
  obtain ⟨t, hpass, _, _, htypes, hones⟩ := passOne_conforms himages 0 ⟨fun _ _ => 0, type⟩
  obtain ⟨u, htrees, hbuilt⟩ := buildTrees_spec (fun type i => longCell (t.huffVal type i)) buf
  refine ⟨t, u, hpass, htrees, fun i im hi out => ?_⟩
  have him := List.mem_of_getElem? hi
  have htype := htypes i im hi
  rw [Nat.zero_add] at htype
  have hcodes : ∀ codes data tail units pad, Conforms im codes data tail units pad →
      HasCodes u (unitEvents (imageComponents im) units) := by
    intro codes data tail units pad h
    exact hasCodes_of_counts hbuilt (fun _ _ => h.symbols)
      (hones im him codes data tail units pad h) (hcount t hpass)
  obtain ⟨codes, data, tail, units, pad, h⟩ := himages im him
  obtain ⟨s, hrun, hbits, hholds⟩ :=
    writeNewBody_conforms h (hcodes codes data tail units pad h) (t.type i) out
  refine ⟨_, s, hrun, ?_, htype ▸ hholds, fun codes' data' tail' units' pad' h' => ?_⟩
  · rw [hbits]
    exact decodeUnits_encode (fun c => (hbuilt _ (by rw [dcType]; split <;> omega)).prefixFree)
      (fun c => (hbuilt _ (by rw [acType]; split <;> omega)).prefixFree) h.scan
      (covers_of_hasCodes (hcodes codes data tail units pad h))
  · obtain ⟨s', hrun', _, _⟩ :=
      writeNewBody_conforms h' (hcodes codes' data' tail' units' pad' h') (t.type i) out
    have hblocks := hrun.symm.trans hrun'
    rw [EStateM.Result.ok.injEq] at hblocks
    rw [hblocks.1, decodeUnits, h'.scan]
    exact Option.map_some ..

/-! ## Two images -/

/-- One MCU of six blocks: a DC difference of minus two for the first one and nothing else. -/
def largeImage : JdecPrivate :=
  { smallImage with
    buffer := [0x90, 0x01, 0xff, 0xd9]
    stream := [0x90, 0x01, 0xff, 0xd9]
    width := 16
    height := 16
    componentInfos := fun c => ⟨if c = 0 then 2 else 1, if c = 0 then 2 else 1, some 0, some 0⟩ }

theorem largeImage_conforms : Conforms largeImage smallCodes [0x90, 0x01] []
    (⟨⟨2, [false, true]⟩, [⟨0, []⟩]⟩ :: List.replicate 5 ⟨⟨0, []⟩, [⟨0, []⟩]⟩) [true] where
  tables := ⟨Or.inr rfl, smallImage_tables.dcFits, smallImage_tables.acFits,
    smallImage_tables.dcSize⟩
  restart := rfl
  stream := by decide
  scan := by decide +kernel
  padding := by decide

theorem smallImage_conforms : Conforms smallImage smallCodes [0x90, 0x7f] []
    [⟨⟨2, [false, true]⟩, [⟨0, []⟩]⟩, ⟨⟨0, []⟩, [⟨0, []⟩]⟩, ⟨⟨0, []⟩, [⟨0, []⟩]⟩]
    (List.replicate 7 true) where
  tables := ⟨Or.inl rfl, smallImage_tables.dcFits, smallImage_tables.acFits,
    smallImage_tables.dcSize⟩
  restart := rfl
  stream := by decide
  scan := Recode.smallImage_conforms.scan
  padding := by decide

/-- No count of a first pass reaches 2^64. -/
def countsBelow : Except Stop Counted → Bool
  | .ok t =>
      (List.range 4).all fun table =>
        (List.range 256).all fun code => t.huffVal table code < 2 ^ 64
  | .error _ => true

/-- Both passes get through an image of each sampling. -/
theorem mixed_scans_lossless_two :
    ∃ t u, passOne 0 [largeImage, smallImage] ⟨fun _ _ => 0, fun _ => 0⟩ = .ok t ∧
      buildTrees (buildHuffValUsefulLong t.huffVal) (fun _ _ => '0') = .ok u ∧
      ∀ i im, [largeImage, smallImage][i]? = some im → ∀ out, ∃ blocks s,
        (writeNewBody u (t.type i) im).run (Scan.start im (Writer.start out)) = .ok blocks s ∧
        decodeUnits (fun c => (u.table (dcType c)).decodeTable)
            (fun c => (u.table (acType c)).decodeTable) (imageComponents im)
            (s.out.handed.flatMap stringToBits) = some (blocks, []) ∧
        s.out.Holds (out ++ sosHeader (if im.sampling = .s2x2 then 1 else 0))
          (s.out.handed.flatMap stringToBits) ∧
        ∀ codes data tail units pad, Conforms im codes data tail units pad →
          decodeUnits codes.dc codes.ac (imageComponents im) (Bits.ofBytes data) =
            some (blocks, pad) := by
  refine mixed_scans_lossless ?_ (fun _ => 0) ?_ fun _ _ => '0'
  · intro im him
    rcases List.mem_pair.mp him with rfl | rfl
    · exact ⟨_, _, _, _, _, largeImage_conforms⟩
    · exact ⟨_, _, _, _, _, smallImage_conforms⟩
  · have hrun : countsBelow
        (passOne 0 [largeImage, smallImage] ⟨fun _ _ => 0, fun _ => 0⟩) = true := by
      decide +kernel
    intro t ht table htable code hcode
    rw [ht] at hrun
    have hall := List.all_eq_true.mp hrun table (List.mem_range.mpr htable)
    exact decide_eq_true_iff.mp (List.all_eq_true.mp hall code (List.mem_range.mpr hcode))

end Recodejpg

end Recode
