import JpegStorage.Recode.PassState
import JpegStorage.Recode.Restart

/-!
# What is counted and what is asked for

The first pass counts the symbols of an image, and the second asks `Find_New_code` for
the codes of the symbols it comes to.  The two loops over the MCUs have their own bounds:
`x < priv->width+1` in the first pass and `x < priv->width` in the second.  So the first
makes a round more in every row when the width is a multiple of eight.  The first of
these rounds takes at least the end of image for data and counts a symbol of it
(`passes_count_alike_iff`).
-/

namespace Recode

open Canonical Stuffing Baseline Run

/-! ## Counting -/

/-- `huff_val` after `tinyjpeg_decode`, whichever way it ends. -/
def huffValAfter (priv : JdecPrivate) (v : HuffVal) : HuffVal :=
  (finalState ((tinyjpegDecode priv).run (Scan.start priv v))).out

section
variable {σ : Type}

/-- A step of a pass next to a count. -/
def onSecond (x : EStateM Stop σ Unit) : EStateM Stop (HuffVal × σ) Unit := fun o =>
  match x o.2 with
  | .ok _ out => .ok () (o.1, out)
  | .error e out => .error e (o.1, out)

/-- A symbol is asked for. -/
def ask (type code : Nat) : EStateM Stop (HuffVal × σ) Unit := fun o =>
  .ok () (o.1.plus [.symbol type code], o.2)

/-- A pass with the symbols it asks for counted. -/
def Hooks.counted (h : Hooks σ) : Hooks (HuffVal × σ) where
  symbol type code := do
    ask type code
    onSecond (h.symbol type code)
  magnitude value := onSecond (h.magnitude value)
  rst last := onSecond (h.rst last)

end

/-- `Write_New_Body` with the calls of `Find_New_code` counted. -/
def writeNewBodyCounted (u : HuffValUseful) (type : Nat) (priv : JdecPrivate) :
    EStateM Stop (Scan (HuffVal × Writer)) (List (List Int)) := do
  onOut (onSecond (writeBytes (sosHeader type)))
  modify (resync priv)
  mcuLoop (writeHooks u).counted priv priv.sampling.components
    (mcuRows priv.height priv.sampling.ystride * mcuCols priv.width priv.sampling.xstride)

/-- How often `Write_New_Body` asks `Find_New_code` for each symbol. -/
def findNewCodeCalls (u : HuffValUseful) (type : Nat) (priv : JdecPrivate) (out : List UInt8) :
    HuffVal :=
  (finalState ((writeNewBodyCounted u type priv).run
    (Scan.start priv (fun _ _ => 0, Writer.start out)))).out.1

/-! ## Counting changes nothing -/

section
variable {σ : Type}

theorem onSecond_related (x : EStateM Stop σ Unit) :
    Related (fun (o : HuffVal × σ) o' => o.2 = o') (onSecond x) x := by
  rintro o _ rfl
  rw [EStateM.run, EStateM.run, onSecond]
  generalize x o.2 = r
  cases r with
  | ok a o' => exact .ok rfl
  | error e o' => exact .error rfl

theorem counted_related (h : Hooks σ) :
    HooksRel (fun (o : HuffVal × σ) o' => o.2 = o') h.counted h where
  symbol type code := by
    rintro o _ rfl
    have hask : (ask type code).run o = .ok () (o.1.plus [.symbol type code], o.2) := rfl
    rw [Hooks.counted, bind_ok hask]
    exact onSecond_related _ _ _ rfl
  magnitude value := onSecond_related _
  rst last := onSecond_related _

/-- With its calls counted `Write_New_Body` does what it does. -/
theorem writeNewBodyCounted_related (u : HuffValUseful) (type : Nat) (priv : JdecPrivate) :
    Related (ScanRel fun (o : HuffVal × Writer) w => o.2 = w) (writeNewBodyCounted u type priv)
      (writeNewBody u type priv) :=
  (onOut_related (onSecond_related _)).bind fun _ =>
    Related.bind (fun _ _ hs => .ok (hs.resync priv)) fun _ =>
      mcuLoop_related (counted_related _) priv _ _

theorem onSecond_ok {x : EStateM Stop σ Unit} {o o' : σ} (h : x.run o = .ok () o') (v : HuffVal) :
    (onSecond x).run (v, o) = .ok () (v, o') := by
  rw [EStateM.run] at h
  change (match x o with
    | .ok _ out => EStateM.Result.ok () (v, out)
    | .error e out => .error e (v, out)) = _
  rw [h]

/-- The events of a pass that goes through are counted. -/
theorem counted_events {h : Hooks σ} {es : List Event} {v : HuffVal} {o o' : σ}
    (hrun : (h.events es).run o = .ok () o') :
    (h.counted.events es).run (v, o) = .ok () (v.plus es, o') := by
  induction es generalizing v o with
  | nil =>
      rw [Hooks.events, pure_run, EStateM.Result.ok.injEq] at hrun
      rw [hrun.2]
      rfl
  | cons e es ih =>
      obtain ⟨o₁, he, hes⟩ := Hooks.events_cons_ok hrun
      have hevent : (h.counted.event e).run (v, o) = .ok () (v.plus [e], o₁) := by
        cases e with
        | symbol t c =>
            have hask : (ask t c).run (v, o) = .ok () (v.plus [.symbol t c], o) := rfl
            rw [Hooks.event, Hooks.counted, bind_ok hask]
            exact onSecond_ok he _
        | magnitude x => exact onSecond_ok he v
      rw [Hooks.events, bind_ok hevent, ih hes, ← HuffVal.plus_append]
      rfl

/-- Counts only grow, however a step ends. -/
theorem countHooks_grows (v : HuffVal) : countHooks.Keeps v.Le where
  symbol type code := related_keeps fun w hw => by
    obtain ⟨w', hrun, hle, _⟩ := countHooks_symbol type code w
    rw [EStateM.run] at hrun
    rw [EStateM.run, hrun]
    exact hw.trans hle
  magnitude _ := related_keeps fun _ hw => hw
  rst _ := related_keeps fun _ hw => hw

/-- The events of the intervals. -/
def intervalEvents (ivs : List McuInterval) : List Event := ivs.flatMap McuInterval.events

theorem countHooks_intervals (k : Nat) (ivs : List McuInterval) (v : HuffVal) :
    (countHooks.intervals k ivs).run v = .ok () (v.plus (intervalEvents ivs)) := by
  induction ivs generalizing k v with
  | nil => rfl
  | cons iv ivs ih =>
      cases ivs with
      | nil => rw [Hooks.intervals, countHooks_run, intervalEvents, List.flatMap_singleton]
      | cons iv' ivs =>
          have hrst : ∀ v, (countHooks.rst (k % 8)).run v = .ok () v := fun _ => rfl
          rw [Hooks.intervals, bind_ok (countHooks_run ..), bind_ok (hrst _), ih,
            ← HuffVal.plus_append]
          rfl

theorem counted_intervals {h : Hooks σ} {k : Nat} {ivs : List McuInterval} {v : HuffVal} {o o' : σ}
    (hrun : (h.intervals k ivs).run o = .ok () o') :
    (h.counted.intervals k ivs).run (v, o) = .ok () (v.plus (intervalEvents ivs), o') := by
  induction ivs generalizing k v o with
  | nil =>
      rw [Hooks.intervals, pure_run, EStateM.Result.ok.injEq] at hrun
      rw [hrun.2]
      rfl
  | cons iv ivs ih =>
      cases ivs with
      | nil =>
          rw [Hooks.intervals] at hrun ⊢
          rw [counted_events hrun, intervalEvents, List.flatMap_singleton]
      | cons iv' ivs =>
          obtain ⟨o₁, o₂, hev, hrst, hrest⟩ := Hooks.intervals_cons_ok hrun
          have hrst' : ∀ v, (h.counted.rst (k % 8)).run (v, o₁) = .ok () (v, o₂) :=
            onSecond_ok hrst
          rw [Hooks.intervals, bind_ok (counted_events hev), bind_ok (hrst' _), ih hrest,
            ← HuffVal.plus_append]
          rfl

end

/-! ## Conforming images -/

/-- A conforming 1x1 image, with or without restart intervals. -/
def ConformingImage (priv : JdecPrivate) : Prop :=
  (∃ codes data tail units pad, Conforms priv codes data tail units pad) ∨
    ∃ codes ivs, RestartConforms priv codes ivs

/-- What both passes need of a conforming image: its intervals, and that a pass goes
through when its hooks do, with two bytes left at the end. -/
structure Walked (priv : JdecPrivate) (codes : ScanCodes) (ivs : List McuInterval) : Prop where
  /-- The tables. -/
  tables : ConformingTables priv codes
  /-- The intervals.  Without restart intervals there is one. -/
  scan : ∃ interval, Intervals codes interval 0 (mcuRows priv.height 8 * mcuCols priv.width 8)
    priv.stream ivs
  /-- The walk. -/
  run : ∀ {σ : Type} {h : Hooks σ} {o o' : σ}, (h.intervals 0 ivs).run o = .ok () o' →
    ∃ blocks s, (mcuLoop h priv Sampling.s1x1.components
        (mcuRows priv.height 8 * mcuCols priv.width 8)).run (resync priv (Scan.start priv o)) =
      .ok blocks s ∧ s.out = o' ∧ s.reader.Ok ∧ 16 ≤ s.reader.bits.length

theorem Conforms.walked {priv : JdecPrivate} {codes : ScanCodes} {data tail : List UInt8}
    {units : List BlockCode} {pad : List Bool} (h : Conforms priv codes data tail units pad) :
    Walked priv codes
      [⟨mcuRows priv.height 8 * mcuCols priv.width 8, units, data, pad, 0⟩] where
  tables := h.tables
  scan := by
    have hlast := @Intervals.last codes _ 0
      ⟨mcuRows priv.height 8 * mcuCols priv.width 8, units, data, pad, 0⟩ tail (Nat.le_refl _)
      ⟨h.scan, h.padding⟩
    rw [h.stream]
    exact ⟨_, hlast⟩
  run := by
    intro σ hooks o o' hrun
    obtain ⟨rest, hread, hlen⟩ := h.readUnits_start o
    have hto := h.restartsToGo_start o
    obtain ⟨r, m, hwalk, hreads, hbits, _⟩ := mcuLoop_coded
      (fun c hc => h.tables.codes_ok (ConformingTables.component_lt hc)) (Conforms.start_ok o)
      (fun _ => rfl) (Or.inl (by rw [hto]; decide)) hread (by omega) hrun
    exact ⟨_, _, hwalk, rfl, hreads.ok, hbits ▸ hlen⟩

theorem RestartConforms.walked {priv : JdecPrivate} {codes : ScanCodes} {ivs : List McuInterval}
    (h : RestartConforms priv codes ivs) : Walked priv codes ivs where
  tables := h.tables
  scan := ⟨_, h.scan⟩
  run hrun := mcuLoop_intervals h.tables h.interval h.scan h.inside
    (resync_at h.interval rfl rfl) hrun

theorem ConformingImage.walked {priv : JdecPrivate} (h : ConformingImage priv) :
    ∃ codes ivs, Walked priv codes ivs := by
  rcases h with ⟨codes, data, tail, units, pad, h⟩ | ⟨codes, ivs, h⟩
  · exact ⟨codes, _, h.walked⟩
  · exact ⟨codes, ivs, h.walked⟩

theorem Intervals.coded {codes : ScanCodes} {interval k n : Nat} {stream : List UInt8}
    {ivs : List McuInterval} (h : Intervals codes interval k n stream ivs) :
    ∀ iv ∈ ivs, iv.Coded codes := by
  induction h with
  | last _ hcoded => exact fun iv hiv => List.mem_singleton.mp hiv ▸ hcoded
  | more _ hcoded _ _ ih => exact List.forall_mem_cons.mpr ⟨hcoded, ih⟩

namespace Walked

variable {priv : JdecPrivate} {codes : ScanCodes} {ivs : List McuInterval}

/-- The first pass counts the events of the blocks and goes on behind them in the rounds
that are too many. -/
theorem tinyjpegDecode_run (h : Walked priv codes ivs) (v : HuffVal) :
    ∃ s : Scan HuffVal, s.out = v.plus (intervalEvents ivs) ∧ s.reader.Ok ∧
      16 ≤ s.reader.bits.length ∧
      huffValAfter priv v = (finalState ((mcuLoop countHooks priv Sampling.s1x1.components
        (mcuRows priv.height 8 * (mcuCols (priv.width + 1) 8 - mcuCols priv.width 8))).run s)).out := by
  obtain ⟨blocks, s, hrun, hout, hok, hlen⟩ := h.run (countHooks_intervals 0 ivs v)
  refine ⟨s, hout, hok, hlen, ?_⟩
  have hsync : (modify (resync priv) : EStateM Stop (Scan HuffVal) PUnit).run
      (Scan.start priv v) = .ok ⟨⟩ (resync priv (Scan.start priv v)) := rfl
  have hrounds : mcuRows priv.height 8 * mcuCols (priv.width + 1) 8 =
      mcuRows priv.height 8 * mcuCols priv.width 8 +
        mcuRows priv.height 8 * (mcuCols (priv.width + 1) 8 - mcuCols priv.width 8) := by
    rw [← Nat.mul_add, Nat.add_sub_cancel' (mcuCols_mono priv.width)]
  rw [huffValAfter, tinyjpegDecode, h.tables.sampling]
  dsimp only
  rw [bind_ok hsync, hrounds, mcuLoop_add, bind_ok hrun]
  cases hmore : (mcuLoop countHooks priv Sampling.s1x1.components
      (mcuRows priv.height 8 * (mcuCols (priv.width + 1) 8 - mcuCols priv.width 8))).run s with
  | ok more s' => rw [bind_ok hmore]; rfl
  | error e s' => rw [bind_error hmore]

/-- The second pass asks for the events of the blocks. -/
theorem findNewCodeCalls_eq (h : Walked priv codes ivs) {u : HuffValUseful}
    (hcodes : ∀ iv ∈ ivs, HasCodes u iv.events) (type : Nat) (out : List UInt8) :
    findNewCodeCalls u type priv out = HuffVal.plus (fun _ _ => 0) (intervalEvents ivs) := by
  obtain ⟨interval, hscan⟩ := h.scan
  obtain ⟨w, _, _, hev, _⟩ :=
    writeHooks_intervals h.tables hscan hcodes (Writer.start_holds (out ++ sosHeader type))
  obtain ⟨blocks, s, hrun, hout, _⟩ := h.run (counted_intervals (v := fun _ _ => 0) hev)
  have hheader : (onOut (onSecond (writeBytes (sosHeader type)))).run
      (Scan.start priv ((fun _ _ => 0 : HuffVal), Writer.start out)) =
      .ok () (Scan.start priv (fun _ _ => 0, Writer.start (out ++ sosHeader type))) := rfl
  have hsync : (modify (resync priv) : EStateM Stop (Scan (HuffVal × Writer)) PUnit).run
      (Scan.start priv (fun _ _ => 0, Writer.start (out ++ sosHeader type))) =
      .ok ⟨⟩ (resync priv (Scan.start priv (fun _ _ => 0, Writer.start (out ++ sosHeader type)))) :=
    rfl
  have hbody := hrun
  rw [findNewCodeCalls, writeNewBodyCounted, h.tables.sampling, bind_ok hheader, bind_ok hsync]
  change (finalState ((mcuLoop (writeHooks u).counted priv Sampling.s1x1.components
    (mcuRows priv.height 8 * mcuCols priv.width 8)).run _)).out.1 = _
  rw [hrun]
  exact congrArg Prod.fst hout

end Walked

theorem mcuCols_succ (width : Nat) :
    mcuCols (width + 1) 8 - mcuCols width 8 = if width % 8 = 0 then 1 else 0 := by
  rw [mcuCols, mcuCols]
  split <;> omega

theorem mcuRows_pos {height : Nat} (h : 1 ≤ height) : 1 ≤ mcuRows height 8 := by
  rw [mcuRows]
  split <;> omega

/-! ## Agreement -/

/-- Every symbol of every table is counted as often as its code is asked for. -/
def CountsAgree (priv : JdecPrivate) (u : HuffValUseful) (type : Nat) (out : List UInt8)
    (v : HuffVal) : Prop :=
  ∀ table < 4, ∀ code < 256,
    huffValAfter priv v table code = v table code + findNewCodeCalls u type priv out table code

theorem Walked.counts_agree {priv : JdecPrivate} {codes : ScanCodes} {ivs : List McuInterval}
    (h : Walked priv codes ivs) {u : HuffValUseful} (hcodes : ∀ iv ∈ ivs, HasCodes u iv.events)
    (hwidth : priv.width % 8 ≠ 0) (type : Nat) (out : List UInt8) (v : HuffVal) :
    CountsAgree priv u type out v := by
  intro table _ code _
  obtain ⟨s, hout, _, _, hafter⟩ := h.tinyjpegDecode_run v
  rw [mcuCols_succ, if_neg hwidth, Nat.mul_zero] at hafter
  rw [hafter, h.findNewCodeCalls_eq hcodes, mcuLoop, pure_run, finalState, hout, HuffVal.plus,
    HuffVal.plus, Nat.zero_add]

/-- In a round too many a symbol is counted. -/
theorem Walked.counts_differ {priv : JdecPrivate} {codes : ScanCodes} {ivs : List McuInterval}
    (h : Walked priv codes ivs) {u : HuffValUseful} (hcodes : ∀ iv ∈ ivs, HasCodes u iv.events)
    (hwidth : priv.width % 8 = 0) (hheight : 1 ≤ priv.height) (type : Nat) (out : List UInt8)
    (v : HuffVal) : ¬ CountsAgree priv u type out v := by
  intro hagree
  obtain ⟨s, hout, hok, hlen, hafter⟩ := h.tinyjpegDecode_run v
  obtain ⟨n, hn⟩ := Nat.exists_eq_add_of_le' (mcuRows_pos hheight)
  obtain ⟨table, htable, hfits⟩ := h.tables.dcFits 0 (by decide)
  obtain ⟨code, r, hnext⟩ := getNextHuffmanCode_some table hok hlen
  have hbyte : code < 256 := by
    obtain ⟨_, _, _, hvalue⟩ := getNextHuffmanCode_safe hfits.safe hok hnext
    rcases hfits.value hvalue with rfl | hmem
    · decide
    · exact hfits.byte code hmem
  have hgrows : (s.out.plus [.symbol 0 code]).Le (huffValAfter priv v) := by
    rw [hafter, mcuCols_succ, if_pos hwidth, Nat.mul_one, hn]
    refine mcuLoop_first_symbol (countHooks_grows _) htable [1, 2] n hnext ?_
    have hsym : (countHooks.symbol (dcType 0) code).run s.out =
        .ok () (s.out.plus [.symbol 0 code]) := countHooks_event (.symbol 0 code) s.out
    rw [hsym]
    exact fun _ _ => Nat.le_refl _
  have hmore := hgrows 0 code
  rw [hagree 0 (by decide) code hbyte, h.findNewCodeCalls_eq hcodes, hout] at hmore
  simp only [HuffVal.plus, List.count_singleton_self] at hmore
  omega

/-- The symbols of an image counted with others have codes. -/
theorem Walked.hasCodes {priv : JdecPrivate} {codes : ScanCodes} {ivs : List McuInterval}
    (h : Walked priv codes ivs) {v : HuffVal} {u : HuffValUseful} {buf buf' : CharBuf}
    (htrees : buildTrees (buildHuffValUseful v) buf = .ok (u, buf'))
    (hle : (huffValAfter priv fun _ _ => 0).Le v)
    (hlt : ∀ table < 4, ∀ code < 256, v table code < 2 ^ 31) :
    ∀ iv ∈ ivs, HasCodes u iv.events := by
  intro iv hiv
  obtain ⟨u', buf₁, htrees', hbuilt⟩ := buildTrees_spec (fun type i => countCell (v type i)) buf
  obtain ⟨rfl, rfl⟩ : u' = u ∧ buf₁ = buf' := by
    rw [buildHuffValUseful, htrees'] at htrees
    exact Prod.mk.inj (Except.ok.inj htrees)
  obtain ⟨interval, hscan⟩ := h.scan
  have hok := readUnits_ok (hscan.coded iv hiv).scan
  refine hasCodes_of_counts hbuilt (unitEvents_symbol h.tables
    (fun c hc => ConformingTables.component_lt (mem_mcuComponents hc)) hok) ?_ hlt
  intro type code hmem
  have hone : 1 ≤ (intervalEvents ivs).count (.symbol type code) :=
    List.count_pos_iff.mpr (List.mem_flatMap.mpr ⟨iv, hiv, hmem⟩)
  obtain ⟨s, hout, _, _, hafter⟩ := h.tinyjpegDecode_run fun _ _ => 0
  have hgrows : s.out.Le (huffValAfter priv fun _ _ => 0) := by
    rw [hafter]
    exact keeps_of_related (mcuLoop_related (countHooks_grows s.out) priv _ _) s
      fun _ _ => Nat.le_refl _
  have hcounted := (hgrows type code).trans (hle type code)
  rw [hout, HuffVal.plus, Nat.zero_add] at hcounted
  exact hone.trans hcounted

/-- On a conforming image the first pass counts what the second asks for exactly when
the width is no multiple of eight.  The new tables are made of any counts that those of
the image went into. -/
theorem passes_count_alike_iff {priv : JdecPrivate} (h : ConformingImage priv)
    (hheight : 1 ≤ priv.height) {v : HuffVal} {u : HuffValUseful} {buf buf' : CharBuf}
    (htrees : buildTrees (buildHuffValUseful v) buf = .ok (u, buf'))
    (hle : (huffValAfter priv fun _ _ => 0).Le v)
    (hlt : ∀ table < 4, ∀ code < 256, v table code < 2 ^ 31) (type : Nat) (out : List UInt8)
    (w : HuffVal) : CountsAgree priv u type out w ↔ priv.width % 8 ≠ 0 := by
  obtain ⟨codes, ivs, hwalked⟩ := h.walked
  have hcodes := hwalked.hasCodes htrees hle hlt
  constructor
  · exact fun hagree hwidth => hwalked.counts_differ hcodes hwidth hheight type out w hagree
  · exact fun hwidth => hwalked.counts_agree hcodes hwidth type out w

/-! ## A width of eight -/

/-- The first pass over an image leaves what it counted. -/
theorem huffValAfter_of_passOne {priv : JdecPrivate} {v v' : HuffVal}
    (h : passOneImage priv v = .ok v') : huffValAfter priv v = v' := by
  rw [passOneImage] at h
  rw [huffValAfter]
  split at h
  next s hs => rw [hs]; exact Except.ok.inj h
  next s hs => rw [hs]; exact Except.ok.inj h
  · cases h

theorem smallImage_conforming_image : ConformingImage smallImage :=
  Or.inl ⟨smallCodes, _, _, _, _, smallImage_conforms⟩

theorem smallImage_few : ∀ table < 4, ∀ code < 256,
    huffValAfter smallImage (fun _ _ => 0) table code < 2 ^ 31 := by
  have hall : (List.range 4).all (fun table => (List.range 256).all fun code =>
      huffValAfter smallImage (fun _ _ => 0) table code < 2 ^ 31) = true := by
    decide +kernel
  intro table htable code hcode
  have hrow := List.all_eq_true.mp hall table (List.mem_range.mpr htable)
  exact decide_eq_true_iff.mp (List.all_eq_true.mp hrow code (List.mem_range.mpr hcode))

theorem passes_count_alike_iff_small : ∃ u buf',
    buildTrees (buildHuffValUseful (huffValAfter smallImage fun _ _ => 0)) (fun _ => '0') =
      .ok (u, buf') ∧
    (CountsAgree smallImage u 0 [] (fun _ _ => 0) ↔ smallImage.width % 8 ≠ 0) := by
  obtain ⟨u, buf', htrees, _⟩ := buildTrees_spec
    (fun type i => countCell (huffValAfter smallImage (fun _ _ => 0) type i)) fun _ => '0'
  exact ⟨u, buf', htrees, passes_count_alike_iff smallImage_conforming_image (by decide) htrees
    (fun _ _ => Nat.le_refl _) smallImage_few 0 [] fun _ _ => 0⟩

/-- The image is one MCU, and the first pass makes two rounds. -/
theorem passes_count_differently : ∃ v u buf',
    passOne [smallImage] (fun _ _ => 0) = .ok v ∧
      buildTrees (buildHuffValUseful v) (fun _ => '0') = .ok (u, buf') ∧
      ¬ CountsAgree smallImage u 0 [] fun _ _ => 0 := by
  obtain ⟨v, hv, _⟩ := passOneImage_conforms smallImage_conforms fun _ _ => 0
  obtain rfl := huffValAfter_of_passOne hv
  have hpass : passOne [smallImage] (fun _ _ => 0) =
      .ok (huffValAfter smallImage fun _ _ => 0) := by
    rw [passOne, hv]
    rfl
  obtain ⟨u, buf', htrees, _⟩ := buildTrees_spec
    (fun type i => countCell (huffValAfter smallImage (fun _ _ => 0) type i)) fun _ => '0'
  have hwalked := smallImage_conforms.walked
  refine ⟨_, u, buf', hpass, htrees, ?_⟩
  exact hwalked.counts_differ (hwalked.hasCodes htrees (fun _ _ => Nat.le_refl _) smallImage_few)
    (by decide) (by decide) 0 [] fun _ _ => 0

end Recode
