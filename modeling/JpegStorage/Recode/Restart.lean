import JpegStorage.Lib.Intervals
import JpegStorage.Recode.Lossless

/-!
# Restart intervals

An image with restart intervals has markers between the MCUs of its scan.  The
reader has prefetched up to two bytes when it comes to one, goes back over them
and searches for the marker.  The writer pads its set with ones, writes it and
writes the marker.

The byte `Write_RST` pads is not stuffed.  When it is `FF` a reader of the
recoded file takes it for fill, and the last bits of the interval are gone.
`restart_intervals_survive_iff` says that this is the only way to lose some.
-/

namespace Recode

open Canonical Stuffing Baseline Run

/-! ## Images with restart intervals -/

/-- What an image has between two markers. -/
structure McuInterval where
  /-- The number of its MCUs. -/
  mcus : Nat
  /-- Their blocks. -/
  units : List BlockCode
  /-- The data bytes. -/
  data : List UInt8
  /-- The padding at the end of the last one. -/
  pad : List Bool
  /-- The number of bytes `FF` in front of the marker. -/
  fill : Nat

namespace McuInterval

/-- The components of the blocks. -/
def components (iv : McuInterval) : List Nat := mcuComponents Sampling.s1x1.components iv.mcus

/-- What the second pass sees. -/
def events (iv : McuInterval) : List Event := unitEvents iv.components iv.units

/-- The data codes the blocks and ends with less than a byte of ones. -/
structure Coded (iv : McuInterval) (codes : ScanCodes) : Prop where
  /-- The blocks. -/
  scan : readUnits codes.dc codes.ac iv.components (Bits.ofBytes iv.data) = some (iv.units, iv.pad)
  /-- The padding. -/
  padding : iv.pad.length < 8 ∧ ∀ b ∈ iv.pad, b = true

end McuInterval

/-- The bytes of a scan of some MCUs from the marker with this number on.  All
intervals but the last have `interval` MCUs. -/
inductive Intervals (codes : ScanCodes) (interval : Nat) :
    Nat → Nat → List UInt8 → List McuInterval → Prop where
  /-- The last interval, with the end of image behind it. -/
  | last {k : Nat} {iv : McuInterval} {tail : List UInt8} (hle : iv.mcus ≤ interval)
      (hcoded : iv.Coded codes) :
      Intervals codes interval k iv.mcus (stuff iv.data ++ (spellMarker iv.fill 0xd9 ++ tail)) [iv]
  /-- An interval with a restart marker and more intervals behind it. -/
  | more {k n : Nat} {iv : McuInterval} {rest : List UInt8} {ivs : List McuInterval}
      (hmcus : iv.mcus = interval) (hcoded : iv.Coded codes)
      (hrest : Intervals codes interval (k + 1) n rest ivs) (hpos : 0 < n) :
      Intervals codes interval k (interval + n)
        (stuff iv.data ++ (spellMarker iv.fill (rstMarker (k % 8)) ++ rest)) (iv :: ivs)

/-- A conforming 1x1 image with restart intervals. -/
structure RestartConforms (priv : JdecPrivate) (codes : ScanCodes) (ivs : List McuInterval) :
    Prop where
  /-- The tables. -/
  tables : ConformingTables priv codes
  /-- There are restart intervals. -/
  interval : 0 < priv.restartInterval
  /-- The scan is the end of the buffer. -/
  inside : priv.stream <:+ priv.buffer
  /-- The scan. -/
  scan : Intervals codes priv.restartInterval 0 (mcuRows priv.height 8 * mcuCols priv.width 8)
    priv.stream ivs

/-! ## Back to the marker -/

theorem rstMarker_isRestart (k : Nat) : IsRestart (rstMarker (k % 8)) := by
  have hk : k % 8 < 8 := Nat.mod_lt _ (by decide)
  have hall : ∀ j < 8, IsRestart (rstMarker j) := by decide
  exact hall _ hk

theorem skipData_afterByte {c : UInt8} {s : List UInt8} (h : afterByte c s = s) (i : Nat) :
    skipData (i + 1) (c :: s) = skipData i s := by
  rw [skipData_succ_cons, h]

/-- The bytes of a marker are no stuffed data. -/
theorem skipData_spellMarker {c : UInt8} (hc : c ≠ 0xff ∧ c ≠ 0x00) (rest : List UInt8) :
    ∀ (fill : Nat) {i : Nat}, i ≤ 2 →
      skipData i (spellMarker fill c ++ rest) = (spellMarker fill c ++ rest).drop i := by
  intro fill
  induction fill with
  | zero =>
      intro i hi
      have hmarker : afterByte 0xff (c :: rest) = c :: rest := afterByte_cons_of_ne 0xff hc.2 rest
      have hbehind : afterByte c rest = rest := afterByte_of_ne hc.1 rest
      match i, hi with
      | 0, _ => exact skipData_zero _
      | 1, _ => exact (skipData_afterByte hmarker 0).trans (skipData_zero _)
      | 2, _ =>
          exact (skipData_afterByte hmarker 1).trans
            ((skipData_afterByte hbehind 0).trans (skipData_zero _))
  | succ fill ih =>
      intro i hi
      have hnext : afterByte 0xff (spellMarker fill c ++ rest) = spellMarker fill c ++ rest := by
        rw [spellMarker_cons]
        exact afterByte_cons_of_ne 0xff (m := 0xff) (by decide) _
      cases i with
      | zero => exact skipData_zero _
      | succ i =>
          calc skipData (i + 1) (0xff :: (spellMarker fill c ++ rest))
              = skipData i (spellMarker fill c ++ rest) := skipData_afterByte hnext i
            _ = (spellMarker fill c ++ rest).drop i := ih (by omega)

/-- A marker is at least two bytes to a reader that takes it for data. -/
theorem spellMarker_bits {c : UInt8} (hc : c ≠ 0x00) (fill : Nat) (rest : List UInt8) :
    16 ≤ (Bits.ofBytes (unstuff (spellMarker fill c ++ rest))).length := by
  have htwo : ∃ m more, spellMarker fill c ++ rest = 0xff :: m :: more ∧ m ≠ 0x00 := by
    rw [spellMarker_cons]
    cases fill with
    | zero => exact ⟨c, rest, rfl, hc⟩
    | succ fill => exact ⟨0xff, _, rfl, by decide⟩
  obtain ⟨m, more, heq, hm⟩ := htwo
  rw [heq, unstuff_cons, afterByte_cons_of_ne _ hm, unstuff_cons, Bits.length_ofBytes,
    List.length_cons, List.length_cons]
  omega

/-- The search passes over the fill. -/
theorem seekRst_spellMarker (marker : UInt8) {c : UInt8} (hc : c ≠ 0xff) (fill : Nat)
    (rest : List UInt8) :
    seekRst marker false (spellMarker fill c ++ rest) =
      if c = marker then some (some rest)
      else if c = 0xd9 then some none
      else seekRst marker false rest := by
  have hfill : ∀ n, seekRst marker true (List.replicate n 0xff ++ (c :: rest)) =
      seekRst marker true (c :: rest) := by
    intro n
    induction n with
    | zero => rfl
    | succ n ih => rw [List.replicate_succ, List.cons_append, seekRst, if_pos rfl, ih]
  rw [spellMarker_cons, List.cons_append, List.append_assoc, seekRst, if_pos rfl,
    List.singleton_append, hfill, seekRst, if_neg hc]

/-- Behind the coded blocks of an interval the reader is at the marker, or one or
two bytes further, and goes back to it. -/
theorem rewind_interval {σ : Type} {priv : JdecPrivate} {codes : ScanCodes} {iv : McuInterval}
    (hcoded : iv.Coded codes) {c : UInt8} (hc : c ≠ 0xff ∧ c ≠ 0x00) {rest : List UInt8} {m : Nat}
    {r : BitReader} (hreads : Reads ⟨stuff iv.data ++ (spellMarker iv.fill c ++ rest), 0, 0⟩ m r)
    (hbits : m + iv.pad.length = 8 * iv.data.length)
    (hin : stuff iv.data ++ (spellMarker iv.fill c ++ rest) <:+ priv.buffer) (s : Scan σ) :
    (rewind priv { s with reader := r }).reader.stream = spellMarker iv.fill c ++ rest := by
  obtain ⟨j, hstream, hcount⟩ := hreads.stream
  change 0 + 8 * j = r.nbits + m at hcount
  have hle := hreads.ok.le
  have hpad := hcoded.padding.1
  -- whole bytes are prefetched, and there are at most two of them
  obtain ⟨i, rfl⟩ : ∃ i, j = iv.data.length + i := ⟨j - iv.data.length, by omega⟩
  have hi : i ≤ 2 := by omega
  have hback : r.nbits / 8 = i := by omega
  rw [skipData_add, skipData_stuff_append, skipData_spellMarker hc rest iv.fill hi] at hstream
  generalize hmore : spellMarker iv.fill c ++ rest = more at hin hstream
  have hlen : i ≤ more.length := by
    rw [← hmore, List.length_append, spellMarker, List.length_append]
    simp only [List.length_cons, List.length_nil]
    omega
  obtain ⟨before, hbefore⟩ := hin
  change priv.buffer.drop (priv.buffer.length - r.stream.length - r.nbits / 8) = more
  rw [hback, hstream, ← hbefore, ← List.append_assoc]
  refine List.drop_left' ?_
  simp only [List.length_append, List.length_drop]
  omega

/-! ## One interval -/

section
variable {σ : Type} {h : Hooks σ} {priv : JdecPrivate} {codes : ScanCodes}

/-- The state in front of the interval with this number, whose bytes and those behind
them are given. -/
structure AtInterval (priv : JdecPrivate) (k : Nat) (stream : List UInt8) (s : Scan σ) : Prop where
  /-- Nothing is prefetched. -/
  reader : s.reader = ⟨stream, 0, 0⟩
  /-- The predictions are reset. -/
  preds : s.previousDC = fun _ => 0
  /-- All MCUs of the interval are to come. -/
  toGo : s.restartsToGo = priv.restartInterval
  /-- The marker behind the interval. -/
  lastRst : s.lastRst = k % 8

theorem resync_at {s : Scan σ} {k : Nat} {stream : List UInt8} (hpos : 0 < priv.restartInterval)
    (hstream : s.reader.stream = stream) (hlast : s.lastRst = k % 8) :
    AtInterval priv k stream (resync priv s) where
  reader := by rw [← hstream]; rfl
  preds := rfl
  toGo := if_pos hpos
  lastRst := hlast

/-- A marker that is searched for is found. -/
theorem restart_found {s : Scan σ} {k fill : Nat} {rest : List UInt8} {out : σ}
    (hpos : 0 < priv.restartInterval) (hlast : s.lastRst = k % 8)
    (hstream : (rewind priv s).reader.stream = spellMarker fill (rstMarker (k % 8)) ++ rest)
    (hrst : h.rst (k % 8) s.out = .ok () out) :
    ∃ s', (restart h priv).run s = .ok () s' ∧ AtInterval priv (k + 1) rest s' ∧ s'.out = out := by
  have hat := resync_at (s := rewind priv s) hpos hstream hlast
  have hseek : seekRst (rstMarker (k % 8)) false
      (spellMarker fill (rstMarker (k % 8)) ++ rest) = some (some rest) := by
    rw [seekRst_spellMarker _ (rstMarker_isRestart k).ne.1, if_pos rfl]
  refine ⟨{ resync priv (rewind priv s) with
              reader := ⟨rest, 0, 0⟩, lastRst := (k + 1) % 8, out := out },
    ?_, ⟨rfl, rfl, hat.toGo, rfl⟩, rfl⟩
  have hout : (resync priv (rewind priv s)).out = s.out := rfl
  simp only [EStateM.run, restart, hat.reader, hat.lastRst, hseek, hout, hrst, Nat.mod_add_mod]

/-- At the end of the image nothing is done. -/
theorem restart_end {s : Scan σ} {k fill : Nat} {rest : List UInt8}
    (hpos : 0 < priv.restartInterval) (hlast : s.lastRst = k % 8)
    (hstream : (rewind priv s).reader.stream = spellMarker fill 0xd9 ++ rest) :
    ∃ s', (restart h priv).run s = .ok () s' ∧ s'.out = s.out ∧
      s'.reader = ⟨spellMarker fill 0xd9 ++ rest, 0, 0⟩ := by
  have hat := resync_at (s := rewind priv s) hpos hstream hlast
  have hne : (0xd9 : UInt8) ≠ rstMarker (k % 8) := by
    intro heq
    have hmarker := rstMarker_isRestart k
    rw [← heq] at hmarker
    exact absurd hmarker (by decide)
  have hseek : seekRst (rstMarker (k % 8)) false (spellMarker fill 0xd9 ++ rest) = some none := by
    rw [seekRst_spellMarker _ (by decide), if_neg hne, if_pos rfl]
  refine ⟨resync priv (rewind priv s), ?_, rfl, hat.reader⟩
  simp only [EStateM.run, restart, hat.reader, hat.lastRst, hseek]

theorem mcuComponents_add (components : List Nat) (m n : Nat) :
    mcuComponents components (m + n) = mcuComponents components m ++ mcuComponents components n := by
  rw [mcuComponents, List.replicate_add, List.flatten_append]
  rfl

theorem afterMcu_end {s : Scan σ} (hgo : s.restartsToGo = 1) :
    (afterMcu h priv).run s = (restart h priv).run { s with restartsToGo := 0 } := by
  have hpos : 0 < s.restartsToGo := by omega
  have hend : s.restartsToGo - 1 = 0 := by omega
  rw [EStateM.run, afterMcu, if_pos hpos]
  exact (if_pos hend).trans (by rw [hend]; rfl)

/-- The walk over a whole interval goes on as the search for the marker does. -/
theorem mcuLoop_whole {components : List Nat} {n : Nat} {s : Scan σ} {us : List BlockCode}
    {rest : List Bool} {o : σ} {dc ac : Nat → Table Nat}
    (hcodes : ∀ c ∈ components, priv.Codes c (dc c) (ac c)) (hok : s.reader.Ok)
    (hpred : ∀ c, int16 (s.previousDC c) = s.previousDC c) (hgo : s.restartsToGo = (n + 1 : Nat))
    (hread : readUnits dc ac (mcuComponents components (n + 1)) s.reader.bits = some (us, rest))
    (hlen : 8 ≤ rest.length)
    (hev : (h.events (unitEvents (mcuComponents components (n + 1)) us)).run s.out = .ok () o) :
    ∃ r m, Reads s.reader m r ∧ r.bits = rest ∧
      ∀ pred s', (restart h priv).run
          { s with reader := r, previousDC := pred, restartsToGo := 0, out := o } = .ok () s' →
        pred = unitPreds s.previousDC (mcuComponents components (n + 1)) us →
        (mcuLoop h priv components (n + 1)).run s =
          .ok (unitCoeffs s.previousDC (mcuComponents components (n + 1)) us) s' := by
  rw [mcuComponents_add] at hread hev
  obtain ⟨mid, us₁, us₂, hus₁, hus₂, rfl, hlen₁⟩ := readUnits_append hread
  rw [unitEvents_append _ _ hlen₁] at hev
  obtain ⟨o₁, hev₁, hev₂⟩ := Hooks.events_append_ok hev
  have hle := readUnits_length_le hus₂
  obtain ⟨r₁, m₁, hr₁, hreads₁, hb₁, hpred₁⟩ :=
    mcuLoop_coded hcodes hok hpred (Or.inr (by omega)) hus₁ (by omega) hev₁
  have hone : mcuComponents components 1 = components := List.append_nil _
  rw [hone] at hus₂ hev₂
  obtain ⟨r₂, m₂, hr₂, hreads₂, hb₂, _⟩ := decodeMcu_coded
    (s := { s with reader := r₁,
                   previousDC := unitPreds s.previousDC (mcuComponents components n) us₁, out := o₁,
                   restartsToGo := countDown s.restartsToGo n })
    hcodes hreads₁.ok hpred₁ (hb₁ ▸ hus₂) hlen hev₂
  refine ⟨r₂, m₁ + m₂, hreads₁.trans hreads₂, hb₂, ?_⟩
  rintro _ s' hrestart rfl
  rw [mcuComponents_add, hone, unitPreds_append _ _ _ hlen₁] at hrestart
  have hcount : countDown s.restartsToGo n = 1 := by
    rw [countDown, hgo, if_pos (by omega)]
    omega
  have hone_run : (mcuLoop h priv components 1).run
      { s with reader := r₁,
               previousDC := unitPreds s.previousDC (mcuComponents components n) us₁, out := o₁,
               restartsToGo := countDown s.restartsToGo n } =
      .ok (unitCoeffs (unitPreds s.previousDC (mcuComponents components n) us₁) components us₂)
        s' := by
    rw [mcuLoop, bind_ok hr₂, bind_ok ((afterMcu_end hcount).trans hrestart)]
    simp [mcuLoop]
  rw [mcuLoop_add, bind_ok hr₁, bind_ok hone_run, mcuComponents_add, hone,
    unitCoeffs_append _ _ _ hlen₁]
  rfl

end

/-! ## How full the set is -/

/-- The bits taken of the set after a string of `n` characters. -/
def fillAfter (taken n : Nat) : Nat :=
  if 8 - taken < n then
    if 8 ≤ n - (8 - taken) then n - (8 - taken) - 8 else n - (8 - taken)
  else taken + n

theorem Writer.keepTail_bits {w w' : Writer} {code : List Char} {rest : Nat}
    (h : w.keepTail code rest = some w') : w'.bits = rest := by
  rw [Writer.keepTail] at h
  split at h
  · cases h
  · rw [← Option.some.inj h]

theorem writeStreamToFile_bits {w w' : Writer} {code : List Char}
    (h : writeStreamToFile code w = some w') : w'.bits = fillAfter w.bits code.length := by
  rw [writeStreamToFile] at h
  dsimp only at h
  rw [fillAfter]
  split at h
  next hroom =>
    rw [if_pos hroom]
    split at h
    · cases h
    · split at h
      next hbyte =>
        rw [if_pos hbyte]
        split at h
        · cases h
        · exact Writer.keepTail_bits h
      next hbyte =>
        rw [if_neg hbyte]
        exact Writer.keepTail_bits h
  next hroom =>
    rw [if_neg hroom]
    split at h
    · cases h
    · rw [← Option.some.inj h]

/-- The bits taken of an empty set after strings of these lengths. -/
def bufferFill (lengths : List Nat) : Nat := lengths.foldl fillAfter 0

theorem writeHooks_bits {u : HuffValUseful} {es : List Event} : ∀ {w w' : Writer},
    ((writeHooks u).events es).run w = .ok () w' →
    w'.bits = (es.map fun e => (eventBits u e).length).foldl fillAfter w.bits := by
  induction es with
  | nil =>
      intro w w' hrun
      rw [Hooks.events, pure_run, EStateM.Result.ok.injEq] at hrun
      rw [hrun.2]
      rfl
  | cons e es ih =>
      intro w w' hrun
      obtain ⟨w₁, hevent, hevents⟩ := Hooks.events_cons_ok hrun
      cases hs : eventString u e with
      | error err =>
          cases e with
          | symbol type code =>
              rw [eventString] at hs
              simp [Hooks.event, writeHooks, EStateM.run, hs] at hevent
          | magnitude value => cases hs
      | ok str =>
          have hlength : (eventBits u e).length = str.length := by
            rw [eventBits, hs]
            exact length_stringToBits str
          rw [writeHooks_event u e hs, EStateM.run, writeString] at hevent
          split at hevent
          · cases hevent
          next w₂ hw₂ =>
            rw [EStateM.Result.ok.injEq] at hevent
            rw [List.map_cons, List.foldl_cons, hlength, ← writeStreamToFile_bits hw₂, hevent.2]
            exact ih hevents

/-! ## The marker written -/

/-- The bits behind the given ones are at most seven ones. -/
def Padded (given : List Bool) (data : List UInt8) : Prop :=
  ∃ n ≤ 7, Bits.ofBytes data = given ++ List.replicate n true

theorem ofByte_full (b : UInt8) : b = 0xff ↔ false ∉ Bits.ofByte b := by
  constructor
  · rintro rfl
    decide
  · intro h
    have hones : Bits.ofByte b = List.replicate 8 true := by
      refine List.eq_replicate_iff.mpr ⟨Bits.length_ofByte b, fun x hx => ?_⟩
      cases x with
      | false => exact absurd hx h
      | true => rfl
    have hvalue := congrArg Bits.toNat hones
    rw [Bits.toNat_ofByte, Bits.toNat_replicate_true] at hvalue
    exact UInt8.toNat_inj.mp hvalue

/-- The byte that pads what the set holds. -/
theorem Writer.Holds.padByte {w : Writer} {base : List UInt8} {given : List Bool}
    (h : w.Holds base given) (hpos : w.bits ≠ 0) :
    ∃ byte < 256, w.padByte = some byte ∧ Bits.ofByte (UInt8.ofNat byte) =
      Bits.ofNat w.bits w.stream ++ List.replicate (8 - w.bits) true := by
  have hle := h.le
  have hlt := h.lt
  have hbyte : ∀ {n}, n < 256 → Bits.ofByte (UInt8.ofNat n) = Bits.ofNat 8 n := by
    intro n hn
    rw [Bits.ofByte, UInt8.toNat_ofNat', Nat.mod_eq_of_lt hn]
  by_cases hfull : w.bits = 8
  · rw [hfull] at hlt ⊢
    refine ⟨w.stream, hlt, ?_, ?_⟩
    · rw [Writer.padByte, hfull]
      rfl
    · rw [hbyte hlt]
      exact (List.append_nil _).symm
  · generalize hroom : 8 - w.bits = room
    have hones : 2 ^ room - 1 < 2 ^ room := Nat.sub_lt (by positivity) Nat.one_pos
    have hpow : 2 ^ w.bits * 2 ^ room = 256 := by
      rw [← pow_add, show w.bits + room = 8 by omega]
      rfl
    have hmul : w.stream * 2 ^ room + 2 ^ room ≤ 2 ^ w.bits * 2 ^ room := by
      rw [← Nat.succ_mul]
      exact Nat.mul_le_mul_right _ hlt
    have hset : shiftLeft8 w.stream room ||| (2 ^ room - 1) =
        w.stream * 2 ^ room + (2 ^ room - 1) := by
      rw [shiftLeft8, Nat.mod_eq_of_lt (by rw [Nat.shiftLeft_eq]; omega), Bits.shiftLeft_or hones]
    have hsmall : w.stream * 2 ^ room + (2 ^ room - 1) < 256 := by omega
    refine ⟨_, hsmall, ?_, ?_⟩
    · rw [Writer.padByte, hroom, if_pos (by omega), hset]
    · rw [hbyte hsmall, show (8 : Nat) = w.bits + room by omega]
      refine Bits.ofNat_append _ _ (Bits.length_ofNat _ _) List.length_replicate ?_
      rw [Bits.toNat_ofNat_of_lt hlt, Bits.toNat_replicate_true]

/-- What the set holds is the end of the bits given. -/
theorem Writer.Holds.held {w : Writer} {base : List UInt8} {given : List Bool}
    (h : w.Holds base given) :
    Bits.ofNat w.bits w.stream = given.drop (given.length - w.bits) := by
  obtain ⟨_, _, d, _, hgiven⟩ := h
  rw [← hgiven, List.length_append, Bits.length_ofNat, Nat.add_sub_cancel, List.drop_left]

theorem Writer.rst_out (w : Writer) (last : Nat) :
    (w.rst last).out =
      w.out ++ (w.padByte.map UInt8.ofNat).toList ++ spellMarker 0 (rstMarker last) := by
  rw [Writer.rst]
  cases hpad : w.padByte with
  | none => simp [Writer.put, spellMarker, rstMarker]
  | some byte => simp [Writer.put, spellMarker, rstMarker]

/-- `Write_RST` writes the data of an interval and its marker.  A padded byte `FF`
becomes fill. -/
theorem Writer.Holds.rst {w : Writer} {base : List UInt8} {given : List Bool}
    (h : w.Holds base given) (last : Nat) :
    ∃ data fill, (w.rst last).out = base ++ (stuff data ++ spellMarker fill (rstMarker last)) ∧
      (w.rst last).Holds (w.rst last).out [] ∧
      (Padded given data ↔ w.bits = 0 ∨ false ∈ given.drop (given.length - w.bits)) := by
  obtain ⟨d, hout, hgiven⟩ := h.data
  have hle := h.le
  have hempty : (w.rst last).Holds (w.rst last).out [] := by
    have hzero : (w.rst last).stream = 0 := shiftLeft8_eight _
    refine ⟨Nat.zero_le _, ?_, [], by simp [stuff], rfl⟩
    rw [hzero]
    exact Nat.one_pos
  rw [← h.held]
  by_cases hpos : w.bits = 0
  · -- nothing to pad
    rw [hpos, Bits.ofNat_zero, List.append_nil] at hgiven
    have hnone : w.padByte = none := by
      rw [Writer.padByte, hpos]
      rfl
    refine ⟨d, 0, ?_, hempty, iff_of_true ⟨0, Nat.zero_le _, ?_⟩ (Or.inl hpos)⟩
    · rw [w.rst_out, hnone, hout, Option.map_none, Option.toList_none, List.append_nil,
        List.append_assoc]
    · rw [hgiven, List.replicate_zero, List.append_nil]
  · obtain ⟨byte, _, hpad, hbits⟩ := h.padByte hpos
    have hrst := w.rst_out last
    rw [hpad, hout, Option.map_some, Option.toList_some] at hrst
    generalize UInt8.ofNat byte = b at hrst hbits
    have hlost : b = 0xff ↔ false ∉ Bits.ofNat w.bits w.stream := by
      rw [ofByte_full, hbits, List.mem_append]
      simp
    by_cases hb : b = 0xff
    · -- the byte is taken for fill
      refine ⟨d, 1, ?_, hempty, iff_of_false ?_ ?_⟩
      · rw [hrst, hb]
        simp [spellMarker]
      · rintro ⟨n, _, hpadded⟩
        have hlen := congrArg List.length hpadded
        rw [← hgiven] at hlen
        simp only [List.length_append, Bits.length_ofNat] at hlen
        omega
      · rintro (h0 | hfalse)
        · exact hpos h0
        · exact hlost.mp hb hfalse
    · -- the byte is data
      have hheld : false ∈ Bits.ofNat w.bits w.stream := not_not.mp (mt hlost.mpr hb)
      refine ⟨d ++ [b], 0, ?_, hempty, iff_of_true ⟨8 - w.bits, by omega, ?_⟩ (Or.inr hheld)⟩
      · rw [hrst, stuff_append, stuff, if_neg hb, stuff]
        simp
      · rw [Bits.ofBytes_append, Bits.ofBytes_cons, Bits.ofBytes_nil, List.append_nil, hbits,
          ← List.append_assoc, hgiven]

/-! ## The intervals written -/

namespace McuInterval

/-- The new codes and the magnitude bits of the MCUs. -/
def newBits (iv : McuInterval) (u : HuffValUseful) : List Bool :=
  encodeUnits (fun c => newCode u (dcType c)) (fun c => newCode u (acType c)) iv.components iv.units

/-- The number of bits of each code and of each magnitude. -/
def newLengths (iv : McuInterval) (u : HuffValUseful) : List Nat :=
  iv.events.map fun e => (eventBits u e).length

/-- The bits that wait in the set at the end of the interval are not all ones,
or there are none. -/
def HasZero (iv : McuInterval) (u : HuffValUseful) : Prop :=
  bufferFill (iv.newLengths u) = 0 ∨
    false ∈ (iv.newBits u).drop ((iv.newBits u).length - bufferFill (iv.newLengths u))

instance (iv : McuInterval) (u : HuffValUseful) : Decidable (iv.HasZero u) := instDecidableOr

/-- Writing the blocks of an interval. -/
theorem events_run {iv : McuInterval} {priv : JdecPrivate} {codes : ScanCodes}
    (htables : ConformingTables priv codes) (hcoded : iv.Coded codes) {u : HuffValUseful}
    (hcodes : HasCodes u iv.events) {w : Writer} {base : List UInt8} (hw : w.Holds base []) :
    ∃ w', ((writeHooks u).events iv.events).run w = .ok () w' ∧ w'.Holds base (iv.newBits u) ∧
      w'.bits = bufferFill (iv.newLengths u) := by
  have hok := readUnits_ok hcoded.scan
  have h15 : ∀ c ∈ iv.components, ∀ v code, (v, code) ∈ codes.dc c → v ≤ 15 := by
    intro c hc v code hmem
    exact htables.dcSize c (ConformingTables.component_lt (mem_mcuComponents hc)) v
      (List.of_mem_zip hmem).1
  obtain ⟨w', _, hrun, _, _, hholds⟩ :=
    writeHooks_events hw (unitEvents_strings h15 hok hcodes)
  have hempty : w.bits = 0 := by
    obtain ⟨d, _, hgiven⟩ := hw.data
    have hlen := congrArg List.length hgiven
    rw [List.length_append, Bits.length_ofNat, List.length_nil] at hlen
    omega
  rw [List.nil_append, unitEvents_bits u h15 hok] at hholds
  have hbits := writeHooks_bits hrun
  rw [hempty] at hbits
  exact ⟨w', hrun, hholds, hbits⟩

/-- The decoder sees the blocks of an interval and at least two bytes behind them. -/
theorem readUnits_at {iv : McuInterval} {priv : JdecPrivate} {codes : ScanCodes}
    (htables : ConformingTables priv codes) (hcoded : iv.Coded codes) {c : UInt8} (hc : c ≠ 0x00)
    (rest : List UInt8) :
    ∃ more, 16 ≤ more.length ∧ readUnits codes.dc codes.ac iv.components
        (BitReader.mk (stuff iv.data ++ (spellMarker iv.fill c ++ rest)) 0 0).bits =
      some (iv.units, iv.pad ++ more) ∧
      (BitReader.mk (stuff iv.data ++ (spellMarker iv.fill c ++ rest)) 0 0).bits.length =
        8 * iv.data.length + more.length := by
  have hbits : (BitReader.mk (stuff iv.data ++ (spellMarker iv.fill c ++ rest)) 0 0).bits =
      Bits.ofBytes iv.data ++ Bits.ofBytes (unstuff (spellMarker iv.fill c ++ rest)) := by
    rw [BitReader.bits, unstuff_stuff_append, Bits.ofNat_zero, List.nil_append,
      Bits.ofBytes_append]
  rw [hbits]
  refine ⟨Bits.ofBytes (unstuff (spellMarker iv.fill c ++ rest)), spellMarker_bits hc .., ?_, ?_⟩
  · exact readUnits_more _
      (fun c hc => htables.dc_prefixFree (ConformingTables.component_lt (mem_mcuComponents hc)))
      (fun c hc => htables.ac_prefixFree (ConformingTables.component_lt (mem_mcuComponents hc)))
      hcoded.scan
  · rw [List.length_append, Bits.length_ofBytes]

end McuInterval

/-- The position of a reader that has given the blocks of an interval. -/
theorem Reads.interval {s r : BitReader} {m size : Nat} {pad more : List Bool}
    (h : Reads s m r) (hrest : r.bits = pad ++ more) (hlen : s.bits.length = 8 * size + more.length) :
    m + pad.length = 8 * size := by
  have hle := h.le
  have hdrop := congrArg List.length (hrest.symm.trans h.bits)
  rw [List.length_append, List.length_drop, hlen] at hdrop
  omega

/-! ## The walk over the intervals -/

/-- What a pass sees of intervals from the marker with this number on. -/
def Hooks.intervals {σ : Type} (h : Hooks σ) : Nat → List McuInterval → EStateM Stop σ Unit
  | _, [] => pure ()
  | _, [iv] => h.events iv.events
  | k, iv :: iv' :: ivs => do
      h.events iv.events
      h.rst (k % 8)
      h.intervals (k + 1) (iv' :: ivs)

theorem Hooks.intervals_cons_ok {σ : Type} {h : Hooks σ} {k : Nat} {iv iv' : McuInterval}
    {ivs : List McuInterval} {o o' : σ}
    (hrun : (h.intervals k (iv :: iv' :: ivs)).run o = .ok () o') :
    ∃ o₁ o₂, (h.events iv.events).run o = .ok () o₁ ∧ (h.rst (k % 8)).run o₁ = .ok () o₂ ∧
      (h.intervals (k + 1) (iv' :: ivs)).run o₂ = .ok () o' := by
  rw [Hooks.intervals] at hrun
  cases hev : (h.events iv.events).run o with
  | error e o₁ =>
      rw [bind_error hev] at hrun
      cases hrun
  | ok a o₁ =>
      rw [bind_ok hev] at hrun
      cases hrst : (h.rst (k % 8)).run o₁ with
      | error e o₂ =>
          rw [bind_error hrst] at hrun
          cases hrun
      | ok a o₂ =>
          rw [bind_ok hrst] at hrun
          exact ⟨o₁, o₂, rfl, hrst, hrun⟩

section
variable {σ : Type} {h : Hooks σ} {priv : JdecPrivate} {codes : ScanCodes} {s : Scan σ}

theorem AtInterval.ok {k : Nat} {stream : List UInt8} (h : AtInterval priv k stream s) :
    s.reader.Ok := by
  rw [h.reader]
  exact ⟨Nat.one_pos, Nat.zero_le _⟩

theorem AtInterval.int16 {k : Nat} {stream : List UInt8} (h : AtInterval priv k stream s) (c : Nat) :
    int16 (s.previousDC c) = s.previousDC c := by
  rw [h.preds]
  rfl

/-- The walk over a whole interval comes to the search for the marker behind it. -/
theorem mcuLoop_full (htables : ConformingTables priv codes) {iv : McuInterval}
    (hcoded : iv.Coded codes) (hmcus : iv.mcus = priv.restartInterval)
    (hpos : 0 < priv.restartInterval) {k : Nat} {c : UInt8} (hc : c ≠ 0xff ∧ c ≠ 0x00)
    {rest : List UInt8} (hat : AtInterval priv k (stuff iv.data ++ (spellMarker iv.fill c ++ rest)) s)
    (hin : stuff iv.data ++ (spellMarker iv.fill c ++ rest) <:+ priv.buffer) {o : σ}
    (hev : (h.events iv.events).run s.out = .ok () o) :
    ∃ s₁ : Scan σ, s₁.out = o ∧ s₁.lastRst = k % 8 ∧
      (rewind priv s₁).reader.stream = spellMarker iv.fill c ++ rest ∧
      ∀ s', (restart h priv).run s₁ = .ok () s' →
        (mcuLoop h priv Sampling.s1x1.components iv.mcus).run s =
          .ok (unitCoeffs (fun _ => 0) iv.components iv.units) s' := by
  obtain ⟨more, hmore, hread, hlen⟩ := McuInterval.readUnits_at htables hcoded hc.2 rest
  obtain ⟨n, hn⟩ : ∃ n, iv.mcus = n + 1 := ⟨iv.mcus - 1, by omega⟩
  have hgo : s.restartsToGo = (n + 1 : Nat) := by rw [hat.toGo, ← hmcus, hn]
  rw [McuInterval.events, McuInterval.components, hn] at hev
  rw [McuInterval.components, hn, ← hat.reader] at hread
  rw [← hat.reader] at hlen
  obtain ⟨r, m, hreads, hrest, hrun⟩ := mcuLoop_whole
    (fun c hc => htables.codes_ok (ConformingTables.component_lt hc)) hat.ok hat.int16 hgo hread
    (by rw [List.length_append]; omega) hev
  have hback := rewind_interval (σ := σ) hcoded hc (hat.reader ▸ hreads)
    (hreads.interval hrest hlen) hin
  let pred := unitPreds s.previousDC (mcuComponents Sampling.s1x1.components (n + 1)) iv.units
  refine ⟨{ s with reader := r, previousDC := pred, restartsToGo := 0, out := o }, rfl, hat.lastRst,
    hback { s with previousDC := pred, restartsToGo := 0, out := o }, fun s' hs' => ?_⟩
  rw [hn, hrun pred s' hs' rfl, McuInterval.components, hn, hat.preds]

/-- The walk over the last interval.  Two bytes are left, those of the end of image. -/
theorem mcuLoop_last (htables : ConformingTables priv codes) {iv : McuInterval}
    (hcoded : iv.Coded codes) (hle : iv.mcus ≤ priv.restartInterval)
    (hpos : 0 < priv.restartInterval) {k : Nat} {tail : List UInt8}
    (hat : AtInterval priv k (stuff iv.data ++ (spellMarker iv.fill 0xd9 ++ tail)) s)
    (hin : stuff iv.data ++ (spellMarker iv.fill 0xd9 ++ tail) <:+ priv.buffer) {o : σ}
    (hev : (h.events iv.events).run s.out = .ok () o) :
    ∃ s' : Scan σ, (mcuLoop h priv Sampling.s1x1.components iv.mcus).run s =
        .ok (unitCoeffs (fun _ => 0) iv.components iv.units) s' ∧
      s'.out = o ∧ s'.reader.Ok ∧ 16 ≤ s'.reader.bits.length := by
  by_cases hmcus : iv.mcus = priv.restartInterval
  · obtain ⟨s₁, hout₁, hlast, hstream, hrun⟩ :=
      mcuLoop_full htables hcoded hmcus hpos (by decide) hat hin hev
    obtain ⟨s', hs', hout, hreader⟩ := restart_end (h := h) hpos hlast hstream
    refine ⟨s', hrun s' hs', hout.trans hout₁, ?_⟩
    rw [hreader, BitReader.bits, Bits.ofNat_zero, List.nil_append]
    exact ⟨⟨Nat.one_pos, Nat.zero_le _⟩, spellMarker_bits (by decide) ..⟩
  · obtain ⟨more, hmore, hread, _⟩ := McuInterval.readUnits_at htables hcoded (c := 0xd9)
      (by decide) tail
    have hgo : (iv.mcus : Int) < s.restartsToGo := by
      rw [hat.toGo]
      omega
    rw [← hat.reader] at hread
    obtain ⟨r, m, hrun, hreads, hbits, _⟩ := mcuLoop_coded
      (fun c hc => htables.codes_ok (ConformingTables.component_lt hc)) hat.ok hat.int16
      (Or.inr hgo) hread (by rw [List.length_append]; omega) hev
    rw [hat.preds] at hrun
    refine ⟨_, hrun, rfl, hreads.ok, ?_⟩
    rw [hbits, List.length_append]
    omega

theorem Intervals.exists_cons {interval k n : Nat} {stream : List UInt8} {ivs : List McuInterval}
    (h : Intervals codes interval k n stream ivs) : ∃ iv ivs', ivs = iv :: ivs' := by
  cases h with
  | last => exact ⟨_, [], rfl⟩
  | more => exact ⟨_, _, rfl⟩

/-- A pass over a scan with restart intervals. -/
theorem mcuLoop_intervals (htables : ConformingTables priv codes) (hpos : 0 < priv.restartInterval)
    {k n : Nat} {stream : List UInt8} {ivs : List McuInterval}
    (hivs : Intervals codes priv.restartInterval k n stream ivs) :
    ∀ {s : Scan σ} {o : σ}, stream <:+ priv.buffer → AtInterval priv k stream s →
      (h.intervals k ivs).run s.out = .ok () o →
      ∃ blocks s', (mcuLoop h priv Sampling.s1x1.components n).run s = .ok blocks s' ∧
        s'.out = o ∧ s'.reader.Ok ∧ 16 ≤ s'.reader.bits.length := by
  induction hivs with
  | last hle hcoded =>
      intro s o hin hat hev
      obtain ⟨s', hrun, hend⟩ := mcuLoop_last htables hcoded hle hpos hat hin hev
      exact ⟨_, s', hrun, hend⟩
  | @more k n iv rest ivs hmcus hcoded hrest _ ih =>
      intro s o hin hat hev
      obtain ⟨iv', ivs', rfl⟩ := hrest.exists_cons
      obtain ⟨o₁, o₂, hev₁, hrst, hev₂⟩ := Hooks.intervals_cons_ok hev
      obtain ⟨s₁, hout₁, hlast, hstream, hrun⟩ :=
        mcuLoop_full htables hcoded hmcus hpos (rstMarker_isRestart k).ne hat hin hev₁
      obtain ⟨s₂, hs₂, hat₂, hout₂⟩ := restart_found (h := h) hpos hlast hstream (hout₁ ▸ hrst)
      have hin₂ : rest <:+ priv.buffer :=
        ((List.suffix_append _ _).trans (List.suffix_append _ _)).trans hin
      obtain ⟨blocks, s', hrun', hend⟩ := ih hin₂ hat₂ (hout₂ ▸ hev₂)
      refine ⟨unitCoeffs (fun _ => 0) iv.components iv.units ++ blocks, s', ?_, hend⟩
      rw [← hmcus, mcuLoop_add, bind_ok (hrun s₂ hs₂), bind_ok hrun']
      rfl

end

/-! ## The scan written -/

/-- What a scan of these intervals becomes, from the marker with this number on. -/
structure Written (u : HuffValUseful) (k : Nat) (ivs : List McuInterval)
    (spelled : List (Interval × Nat)) (last : List UInt8) (held : List Bool) : Prop where
  /-- There are as many intervals. -/
  count : spelled.length + 1 = ivs.length
  /-- Their markers are numbered. -/
  markers : ∀ i c, spelled[i]? = some c → c.1.marker = rstMarker ((k + i) % 8)
  /-- The data of an interval is complete when the bits that wait at its end are
  not all ones. -/
  data : ∀ (i : Nat) (c : Interval × Nat) (iv : McuInterval), spelled[i]? = some c → ivs[i]? = some iv →
    (Padded (iv.newBits u) c.1.data ↔ iv.HasZero u)
  /-- The last interval is not flushed. -/
  last : ∀ iv, ivs.getLast? = some iv → Bits.ofBytes last ++ held = iv.newBits u

theorem Written.cons {u : HuffValUseful} {k : Nat} {ivs : List McuInterval}
    {spelled : List (Interval × Nat)} {last : List UInt8} {held : List Bool}
    (h : Written u (k + 1) ivs spelled last held) {iv : McuInterval} {data : List UInt8}
    (hdata : Padded (iv.newBits u) data ↔ iv.HasZero u) (fill : Nat) :
    Written u k (iv :: ivs) ((⟨data, rstMarker (k % 8)⟩, fill) :: spelled) last held where
  count := by rw [List.length_cons, List.length_cons, h.count]
  markers i c hi := by
    cases i with
    | zero =>
        obtain rfl := Option.some.inj hi
        rfl
    | succ i => rw [← Nat.add_assoc, Nat.add_right_comm, h.markers i c hi]
  data i c iv' hi hiv := by
    cases i with
    | zero =>
        obtain rfl := Option.some.inj hi
        obtain rfl := Option.some.inj hiv
        exact hdata
    | succ i => exact h.data i c iv' hi hiv
  last iv' hlast := by
    refine h.last iv' ?_
    cases ivs with
    | nil => exact absurd h.count (by simp)
    | cons iv₁ ivs => simpa using hlast

/-- What the second pass writes of a scan with restart intervals. -/
theorem writeHooks_intervals {priv : JdecPrivate} {codes : ScanCodes} {u : HuffValUseful}
    (htables : ConformingTables priv codes) {interval k n : Nat} {stream : List UInt8}
    {ivs : List McuInterval} (h : Intervals codes interval k n stream ivs) :
    ∀ {w : Writer}, (∀ iv ∈ ivs, HasCodes u iv.events) → w.Holds w.out [] →
      ∃ w' spelled last, ((writeHooks u).intervals k ivs).run w = .ok () w' ∧
        w'.out = w.out ++ (spellIntervals spelled ++ stuff last) ∧
        Written u k ivs spelled last (Bits.ofNat w'.bits w'.stream) := by
  induction h with
  | last hle hcoded =>
      intro w hcodes hw
      obtain ⟨w', hrun, hholds, _⟩ :=
        McuInterval.events_run htables hcoded (hcodes _ (List.mem_cons_self ..)) hw
      obtain ⟨last, hout, hgiven⟩ := hholds.data
      refine ⟨w', [], last, hrun, hout, rfl, by simp, by simp, ?_⟩
      intro iv' hlast
      obtain rfl := Option.some.inj hlast
      exact hgiven
  | @more k n iv rest ivs hmcus hcoded hrest _ ih =>
      intro w hcodes hw
      obtain ⟨w₁, hev, hholds, hbits⟩ :=
        McuInterval.events_run htables hcoded (hcodes _ (List.mem_cons_self ..)) hw
      obtain ⟨data, fill, hout₁, hempty, hpadded⟩ := hholds.rst (k % 8)
      obtain ⟨w', spelled, last, hrun, hout, hwritten⟩ :=
        ih (fun iv hiv => hcodes iv (List.mem_cons_of_mem _ hiv)) hempty
      obtain ⟨iv', ivs', rfl⟩ := hrest.exists_cons
      have hrst : ((writeHooks u).rst (k % 8)).run w₁ = .ok () (w₁.rst (k % 8)) := rfl
      rw [hbits] at hpadded
      refine ⟨w', _, last, ?_, ?_, hwritten.cons hpadded fill⟩
      · rw [Hooks.intervals, bind_ok hev, bind_ok hrst, hrun]
      · rw [hout, hout₁, spellIntervals]
        simp only [List.append_assoc]

/-- The split of a recoded scan has the intervals of the input: as many, their
markers numbered in a circle, and the data of each the new codes and magnitudes of its
MCUs, with at most seven ones behind them.  Those of the last one are not yet
all in the file. -/
structure IntervalsSurvive (u : HuffValUseful) (ivs : List McuInterval) (split : Split)
    (held : List Bool) : Prop where
  /-- There are as many intervals. -/
  count : split.closed.length + 1 = ivs.length
  /-- Their markers are numbered. -/
  markers : ∀ i c, split.closed[i]? = some c → c.marker = rstMarker (i % 8)
  /-- Their data is complete. -/
  data : ∀ (i : Nat) (c : Interval) (iv : McuInterval),
    split.closed[i]? = some c → ivs[i]? = some iv → Padded (iv.newBits u) c.data
  /-- The last interval is complete with the bits that wait. -/
  last : ∀ iv, ivs.getLast? = some iv → Bits.ofBytes split.last ++ held = iv.newBits u

theorem Written.survive_iff {u : HuffValUseful} {ivs : List McuInterval}
    {spelled : List (Interval × Nat)} {last : List UInt8} {held : List Bool}
    (h : Written u 0 ivs spelled last held) :
    IntervalsSurvive u ivs ⟨spelled.map Prod.fst, last⟩ held ↔
      ∀ iv ∈ ivs.dropLast, iv.HasZero u := by
  have hcount := h.count
  constructor
  · intro hsurvive iv hiv
    obtain ⟨i, hi⟩ := List.mem_iff_getElem?.mp hiv
    rw [List.getElem?_dropLast] at hi
    split at hi
    next hlt =>
      have hspelled : i < spelled.length := by omega
      have hc := List.getElem?_eq_getElem hspelled
      refine (h.data i _ iv hc hi).mp (hsurvive.data i spelled[i].1 iv ?_ hi)
      rw [List.getElem?_map, hc]
      rfl
    next => cases hi
  · intro hzero
    refine ⟨by rw [List.length_map]; exact hcount, ?_, ?_, h.last⟩
    · intro i c hc
      rw [List.getElem?_map, Option.map_eq_some_iff] at hc
      obtain ⟨c, hi, rfl⟩ := hc
      rw [h.markers i c hi, Nat.zero_add]
    · intro i c iv hc hiv
      rw [List.getElem?_map, Option.map_eq_some_iff] at hc
      obtain ⟨c, hi, rfl⟩ := hc
      obtain ⟨hlt, _⟩ := List.getElem?_eq_some_iff.mp hi
      refine (h.data i c iv hi hiv).mpr (hzero iv (List.mem_iff_getElem?.mpr ⟨i, ?_⟩))
      rw [List.getElem?_dropLast, if_pos (by omega)]
      exact hiv

theorem Written.isRestart {u : HuffValUseful} {k : Nat} {ivs : List McuInterval}
    {spelled : List (Interval × Nat)} {last : List UInt8} {held : List Bool}
    (h : Written u k ivs spelled last held) : ∀ iv ∈ spelled, IsRestart iv.1.marker := by
  intro iv hiv
  obtain ⟨i, hi⟩ := List.mem_iff_getElem?.mp hiv
  rw [h.markers i iv hi]
  exact rstMarker_isRestart _

/-- The input is split into these intervals. -/
theorem Intervals.split {codes : ScanCodes} {interval k n : Nat} {stream : List UInt8}
    {ivs : List McuInterval} (h : Intervals codes interval k n stream ivs) :
    (splitScan false stream).closed.map Interval.data = ivs.dropLast.map McuInterval.data ∧
      ∀ iv, ivs.getLast? = some iv → (splitScan false stream).last = iv.data := by
  induction h with
  | last hle hcoded =>
      rw [splitScan_stuff, splitScan_marker (by decide), if_neg (by decide)]
      refine ⟨rfl, fun iv' hlast => ?_⟩
      obtain rfl := Option.some.inj hlast
      exact List.append_nil _
  | @more k n iv rest ivs hmcus hcoded hrest hpos ih =>
      rw [splitScan_stuff, splitScan_marker (rstMarker_isRestart k).ne,
        if_pos (rstMarker_isRestart k)]
      cases ivs with
      | nil => cases hrest
      | cons iv₁ ivs =>
          refine ⟨?_, fun iv' hlast => ih.2 iv' (by simpa using hlast)⟩
          rw [List.dropLast_cons_cons, List.map_cons, ← ih.1]
          simp [Split.prepend]

/-- The second pass over a conforming image with restart intervals. -/
theorem writeNewBody_intervals {priv : JdecPrivate} {codes : ScanCodes} {ivs : List McuInterval}
    (h : RestartConforms priv codes ivs) {u : HuffValUseful}
    (hcodes : ∀ iv ∈ ivs, HasCodes u iv.events) (type : Nat) (out : List UInt8) :
    ∃ blocks s spelled last,
      (writeNewBody u type priv).run (Scan.start priv (Writer.start out)) = .ok blocks s ∧
      s.out.out = out ++ sosHeader type ++ (spellIntervals spelled ++ stuff last) ∧
      Written u 0 ivs spelled last (Bits.ofNat s.out.bits s.out.stream) := by
  have hat : AtInterval priv 0 priv.stream
      (resync priv (Scan.start priv (Writer.start (out ++ sosHeader type)))) :=
    resync_at h.interval rfl rfl
  obtain ⟨w, spelled, last, hev, hout, hwritten⟩ :=
    writeHooks_intervals h.tables h.scan hcodes (Writer.start_holds (out ++ sosHeader type))
  obtain ⟨blocks, s, hrun, rfl, _⟩ :=
    mcuLoop_intervals h.tables h.interval h.scan h.inside hat hev
  exact ⟨blocks, s, spelled, last, (writeNewBody_run h.tables u type out).trans hrun, hout, hwritten⟩

theorem Written.split {u : HuffValUseful} {ivs : List McuInterval}
    {spelled : List (Interval × Nat)} {last : List UInt8} {held : List Bool}
    (h : Written u 0 ivs spelled last held) :
    splitScan false (spellIntervals spelled ++ stuff last) = ⟨spelled.map Prod.fst, last⟩ := by
  have hsplit := splitScan_spell h.isRestart last (show splitScan false [] = ⟨[], []⟩ from rfl)
  rwa [List.append_nil] at hsplit

/-- The second pass over a conforming image with restart intervals ends, and its
intervals survive exactly when at the end of none but the last the waiting bits are
all ones. -/
theorem restart_intervals_survive_iff {priv : JdecPrivate} {codes : ScanCodes}
    {ivs : List McuInterval} (h : RestartConforms priv codes ivs) {u : HuffValUseful}
    (hcodes : ∀ iv ∈ ivs, HasCodes u iv.events) (type : Nat) (out : List UInt8) :
    ∃ blocks s scan,
      (writeNewBody u type priv).run (Scan.start priv (Writer.start out)) = .ok blocks s ∧
      s.out.out = out ++ sosHeader type ++ scan ∧
      (IntervalsSurvive u ivs (splitScan false scan) (Bits.ofNat s.out.bits s.out.stream) ↔
        ∀ iv ∈ ivs.dropLast, iv.HasZero u) := by
  obtain ⟨blocks, s, spelled, last, hrun, hout, hwritten⟩ :=
    writeNewBody_intervals h hcodes type out
  refine ⟨blocks, s, _, hrun, hout, ?_⟩
  rw [hwritten.split]
  exact hwritten.survive_iff

/-! ## Two intervals -/

/-- An MCU with a DC difference of 63 for the first component and nothing else. -/
def onesMcu : McuInterval where
  mcus := 1
  units := [⟨⟨6, List.replicate 6 true⟩, [⟨0, []⟩]⟩, ⟨⟨0, []⟩, [⟨0, []⟩]⟩, ⟨⟨0, []⟩, [⟨0, []⟩]⟩]
  data := [0xbf, 0x07]
  pad := [true, true, true]
  fill := 0

/-- Two such MCUs in two intervals. -/
def twoIntervals : JdecPrivate where
  buffer := [0xbf, 0x07, 0xff, 0xd0, 0xbf, 0x07, 0xff, 0xd9]
  stream := [0xbf, 0x07, 0xff, 0xd0, 0xbf, 0x07, 0xff, 0xd9]
  width := 16
  height := 8
  componentInfos := fun _ => ⟨1, 1, some 0, some 0⟩
  htdc := fun _ => filledTable smallDcBits [0, 6]
  htac := fun _ => filledTable smallAcBits [0]
  restartInterval := 1

/-- Their codes. -/
def twoCodes : ScanCodes :=
  ⟨fun _ => smallDcBits, fun _ => [0, 6], fun _ => smallAcBits, fun _ => [0]⟩

theorem onesDc_fits : TableFits smallDcBits [0, 6] (filledTable smallDcBits [0, 6]) :=
  filledTable_fits rfl rfl (by decide) (by decide) (by decide) (by decide +kernel) (by decide)

theorem onesMcu_coded : onesMcu.Coded twoCodes where
  scan := by decide +kernel
  padding := by decide

theorem twoIntervals_conforms : RestartConforms twoIntervals twoCodes [onesMcu, onesMcu] where
  tables := {
    sampling := rfl
    dcFits := fun _ _ => ⟨_, rfl, onesDc_fits⟩
    acFits := fun _ _ => ⟨_, rfl, smallAc_fits⟩
    dcSize := fun _ _ => show ∀ v ∈ [0, 6], v ≤ 15 by decide }
  interval := Nat.one_pos
  inside := List.suffix_refl _
  scan := by
    have hlast : Intervals twoCodes 1 1 1 [0xbf, 0x07, 0xff, 0xd9] [onesMcu] :=
      @Intervals.last twoCodes 1 1 onesMcu [] (Nat.le_refl 1) onesMcu_coded
    exact @Intervals.more twoCodes 1 0 1 onesMcu _ _ rfl onesMcu_coded hlast Nat.one_pos

/-- Counts of a set of images in which an end of block is the rarest of the four AC
symbols of the other components. -/
def endRarest : HuffVal := fun type code =>
  match type, code with
  | 0, 6 => 2
  | 1, 0 => 4
  | 2, 0 => 2
  | 3, 0 => 4
  | 3, 1 => 8
  | 3, 2 => 8
  | 3, 3 => 8
  | _, _ => 0

/-- Is the symbol of an event counted? -/
def Event.counted (v : HuffVal) : Event → Bool
  | .symbol type code => (type < 4 ∧ code < 256) ∧ 1 ≤ v type code
  | .magnitude _ => true

theorem onesMcu_counted (type code : Nat) (hmem : Event.symbol type code ∈ onesMcu.events) :
    (type < 4 ∧ code < 256) ∧ 1 ≤ endRarest type code := by
  have hall : onesMcu.events.all (Event.counted endRarest) = true := by decide
  exact decide_eq_true_iff.mp (List.all_eq_true.mp hall _ hmem)

theorem onesMcu_hasCodes : ∃ u buf',
    buildTrees (buildHuffValUseful endRarest) (fun _ => '0') = .ok (u, buf') ∧
      ∀ iv ∈ [onesMcu, onesMcu], HasCodes u iv.events := by
  obtain ⟨u, buf', htrees, hbuilt⟩ :=
    buildTrees_spec (fun type i => countCell (endRarest type i)) fun _ => '0'
  refine ⟨u, buf', htrees, fun iv hiv => ?_⟩
  obtain rfl : iv = onesMcu := by simpa using hiv
  exact hasCodes_of_counts hbuilt (fun type code hmem => (onesMcu_counted type code hmem).1)
    (fun type code hmem => (onesMcu_counted type code hmem).2) (by decide +kernel)

theorem restart_intervals_survive_iff_two : ∃ u buf',
    buildTrees (buildHuffValUseful endRarest) (fun _ => '0') = .ok (u, buf') ∧
      ∃ blocks s scan,
        (writeNewBody u 0 twoIntervals).run (Scan.start twoIntervals (Writer.start [])) =
          .ok blocks s ∧
        s.out.out = [] ++ sosHeader 0 ++ scan ∧
        (IntervalsSurvive u [onesMcu, onesMcu] (splitScan false scan)
            (Bits.ofNat s.out.bits s.out.stream) ↔
          ∀ iv ∈ [onesMcu, onesMcu].dropLast, iv.HasZero u) := by
  obtain ⟨u, buf', htrees, hcodes⟩ := onesMcu_hasCodes
  exact ⟨u, buf', htrees, restart_intervals_survive_iff twoIntervals_conforms hcodes 0 []⟩

/-- Do new tables lose bits at the end of an interval? -/
def losesBits (trees : Except Stop (HuffValUseful × CharBuf)) (iv : McuInterval) : Bool :=
  match trees with
  | .ok (u, _) => ¬ iv.HasZero u
  | .error _ => false

theorem losesBits_ok {u : HuffValUseful} {buf : CharBuf} {iv : McuInterval}
    (h : losesBits (.ok (u, buf)) iv = true) : ¬ iv.HasZero u := decide_eq_true_iff.mp h

/-- The MCU ends with two ones that wait, and they are lost. -/
theorem restart_interval_lost : ∃ u buf',
    buildTrees (buildHuffValUseful endRarest) (fun _ => '0') = .ok (u, buf') ∧
      ∃ blocks s scan,
        (writeNewBody u 0 twoIntervals).run (Scan.start twoIntervals (Writer.start [])) =
          .ok blocks s ∧
        s.out.out = sosHeader 0 ++ scan ∧
        ¬ IntervalsSurvive u [onesMcu, onesMcu] (splitScan false scan)
          (Bits.ofNat s.out.bits s.out.stream) := by
  obtain ⟨u, buf', htrees, hcodes⟩ := onesMcu_hasCodes
  have hloses : losesBits (buildTrees (buildHuffValUseful endRarest) fun _ => '0') onesMcu = true := by
    decide +kernel
  have hones := losesBits_ok (htrees ▸ hloses)
  obtain ⟨blocks, s, spelled, last, hrun, hout, hwritten⟩ :=
    writeNewBody_intervals twoIntervals_conforms hcodes 0 []
  refine ⟨u, buf', htrees, blocks, s, _, hrun, hout, ?_⟩
  rw [hwritten.split, hwritten.survive_iff]
  exact fun hall => hones (hall onesMcu (List.mem_cons_self ..))

end Recode
