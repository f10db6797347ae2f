import JpegStorage.Recode.BitWriter
import JpegStorage.Recode.NewCode

/-!
# The two passes over an image

`tinyjpeg_decode` and `Write_New_Body` walk over the MCUs of the scan in the same
way.  `mcuLoop` is the walk for any `Hooks`.  The first pass counts symbols and
makes one step too many in a row whose width is a multiple of eight.  The second
pass writes the new codes and the magnitudes.

`mcuLoop_coded` is the specification of the walk on a coded scan without restart
intervals, and `mcuLoop_safe` says that it ends on any input.
-/

namespace Recode

open Canonical Stuffing Baseline Run

/-! ## Sampling -/

/-- The four cases both passes tell apart by the factors of the first component. -/
inductive Sampling where
  /-- One block. -/
  | s1x1
  /-- Two blocks, one above the other. -/
  | s1x2
  /-- Two blocks side by side. -/
  | s2x1
  /-- Four blocks. -/
  | s2x2
deriving DecidableEq, Repr

/-- The choice of `decode_MCU`. -/
def JdecPrivate.sampling (priv : JdecPrivate) : Sampling :=
  let c := priv.componentInfos 0
  if c.hfactor ||| c.vfactor = 1 then .s1x1
  else if c.hfactor = 1 then .s1x2
  else if c.vfactor = 2 then .s2x2
  else .s2x1

/-- The components of the blocks of an MCU. -/
def Sampling.components : Sampling → List Nat
  | .s1x1 => [0, 1, 2]
  | .s1x2 => [0, 0, 1, 2]
  | .s2x1 => [0, 0, 1, 2]
  | .s2x2 => [0, 0, 0, 0, 1, 2]

/-- `xstride_by_mcu`. -/
def Sampling.xstride : Sampling → Nat
  | .s1x1 => 8
  | .s1x2 => 8
  | .s2x1 => 16
  | .s2x2 => 16

/-- `ystride_by_mcu`. -/
def Sampling.ystride : Sampling → Nat
  | .s1x1 => 8
  | .s1x2 => 16
  | .s2x1 => 8
  | .s2x2 => 16

/-- `temp_height`. -/
def mcuRows (height stride : Nat) : Nat :=
  if height % stride ≠ 0 then height / stride + 1 else height / stride

/-- The rounds of `for (x = 0; x < bound; x += stride)`. -/
def mcuCols (bound stride : Nat) : Nat := (bound + stride - 1) / stride

/-! ## Restart intervals -/

/-- `resync`. -/
def resync {σ : Type} (priv : JdecPrivate) (s : Scan σ) : Scan σ :=
  { s with reader := { s.reader with reservoir := 0, nbits := 0 },
           previousDC := fun _ => 0,
           restartsToGo := if 0 < priv.restartInterval then (priv.restartInterval : Int) else -1 }

/-- `priv->stream -= priv->nbits_in_reservoir / 8`. -/
def rewind {σ : Type} (priv : JdecPrivate) (s : Scan σ) : Scan σ :=
  { s with reader := { s.reader with
      stream := priv.buffer.drop
        (priv.buffer.length - s.reader.stream.length - s.reader.nbits / 8) } }

/-- The search for a marker, which starts behind an `FF` or not.  The result is
the stream behind the marker searched for, or nothing at an end of image.
Running out of input is undefined. -/
def seekRst (marker : UInt8) : Bool → List UInt8 → Option (Option (List UInt8))
  | _, [] => none
  | false, c :: rest => if c = 0xff then seekRst marker true rest else seekRst marker false rest
  | true, c :: rest =>
      if c = 0xff then seekRst marker true rest
      else if c = marker then some (some rest)
      else if c = 0xd9 then some none
      else seekRst marker false rest

/-- `RST + last_rst_marker_seen`. -/
def rstMarker (last : Nat) : UInt8 := UInt8.ofNat (0xd0 + last)

section
variable {σ : Type}

/-- The end of a restart interval, with `find_next_rst_marker` or `Write_RST`.
At an end of image neither does anything.  `Write_RST` has no `return` behind a marker, and its
end is taken as one. -/
def restart (h : Hooks σ) (priv : JdecPrivate) : EStateM Stop (Scan σ) Unit := fun s =>
  let s := resync priv (rewind priv s)
  match seekRst (rstMarker s.lastRst) false s.reader.stream with
  | none => .error .undefined s
  | some none => .ok () s
  | some (some rest) =>
      match h.rst s.lastRst s.out with
      | .error e out => .error e { s with out := out }
      | .ok _ out =>
          .ok () { s with reader := { s.reader with stream := rest },
                          lastRst := (s.lastRst + 1) % 8, out := out }

/-- What follows each MCU. -/
def afterMcu (h : Hooks σ) (priv : JdecPrivate) : EStateM Stop (Scan σ) Unit := fun s =>
  if 0 < s.restartsToGo then
    let s := { s with restartsToGo := s.restartsToGo - 1 }
    if s.restartsToGo = 0 then restart h priv s else .ok () s
  else .ok () s

/-! ## The walk -/

/-- `decode_MCU`: the blocks of the components in order. -/
def decodeMcu (h : Hooks σ) (priv : JdecPrivate) :
    List Nat → EStateM Stop (Scan σ) (List (List Int))
  | [] => pure []
  | c :: cs => do
      let block ← processHuffmanDataUnit h priv c
      let blocks ← decodeMcu h priv cs
      pure (block :: blocks)

/-- The two nested loops.  Neither `x` nor `y` is used in the body. -/
def mcuLoop (h : Hooks σ) (priv : JdecPrivate) (components : List Nat) :
    Nat → EStateM Stop (Scan σ) (List (List Int))
  | 0 => pure []
  | n + 1 => do
      let blocks ← decodeMcu h priv components
      afterMcu h priv
      let rest ← mcuLoop h priv components n
      pure (blocks ++ rest)

/-- The state of the decoder behind the header. -/
def Scan.start (priv : JdecPrivate) (out : σ) : Scan σ where
  reader := ⟨priv.stream, 0, 0⟩
  previousDC := fun _ => 0
  restartsToGo := 0
  lastRst := 0
  out := out

end

/-! ## The first pass -/

/-- The first pass counts the symbols. -/
def countHooks : Hooks HuffVal where
  symbol type code := fun v =>
    .ok () fun t c => if t = type ∧ c = code then v t c + 1 else v t c
  magnitude _ := pure ()
  rst _ := pure ()

/-- `tinyjpeg_decode`.  Other samplings than 1x1 end the program.  The loop over
`x` has one round too many when the width is a multiple of eight. -/
def tinyjpegDecode (priv : JdecPrivate) : EStateM Stop (Scan HuffVal) (List (List Int)) := do
  match priv.sampling with
  | .s1x1 =>
      modify (resync priv)
      mcuLoop countHooks priv Sampling.s1x1.components
        (mcuRows priv.height 8 * mcuCols (priv.width + 1) 8)
  | _ => throw .exit

/-- The first pass over one image.  The `longjmp` only ends the image. -/
def passOneImage (priv : JdecPrivate) (v : HuffVal) : Except Stop HuffVal :=
  match (tinyjpegDecode priv).run (Scan.start priv v) with
  | .ok _ s => .ok s.out
  | .error .eio s => .ok s.out
  | .error e _ => .error e

/-- The first pass over all images. -/
def passOne : List JdecPrivate → HuffVal → Except Stop HuffVal
  | [], v => .ok v
  | priv :: privs, v =>
      match passOneImage priv v with
      | .error e => .error e
      | .ok v => passOne privs v

/-! ## The second pass -/

/-- `Write_Stream_To_File` as a step. -/
def writeString (str : List Char) : EStateM Stop Writer Unit := fun w =>
  match writeStreamToFile str w with
  | none => .error .undefined w
  | some w => .ok () w

/-- The padding both flushes use: ones up to a full byte. -/
def Writer.padByte (w : Writer) : Option Nat :=
  if 8 - w.bits < 8 ∧ 0 < 8 - w.bits then
    some (shiftLeft8 w.stream (8 - w.bits) ||| (2 ^ (8 - w.bits) - 1))
  else if 8 - w.bits = 0 then some w.stream
  else none

/-- What `Write_RST` writes: the byte held, padded, and the marker. -/
def Writer.rst (last : Nat) (w : Writer) : Writer :=
  let w := match w.padByte with
    | some byte => w.put byte
    | none => w
  let w := (w.put 0xff).put (0xd0 + last)
  { w with stream := shiftLeft8 w.stream 8, bits := 0 }

/-- The second pass writes the new code of a symbol and the digits of a magnitude. -/
def writeHooks (u : HuffValUseful) : Hooks Writer where
  symbol type code := fun w =>
    match findNewCode u code type with
    | .error e => .error e w
    | .ok str => writeString str w
  magnitude value := writeString (tobin value)
  rst last := fun w => .ok () (w.rst last)

/-- The SOS header `Write_New_Body` writes for a file of this type. -/
def sosHeader (type : Nat) : List UInt8 :=
  [0xff, 0xda, 0x00, 0x0c, 0x03] ++
    (if type = 0 then [0x00, 0x00, 0x01, 0x11, 0x02, 0x11]
     else [0x01, 0x00, 0x02, 0x11, 0x03, 0x11]) ++
    [0x00, 0x3f, 0x00]

/-- The bytes of a string of bytes written one by one. -/
def writeBytes (bytes : List UInt8) : EStateM Stop Writer Unit := fun w =>
  .ok () { w with out := w.out ++ bytes }

/-- `Write_New_Body`.  The result is the sequence of the blocks decoded. -/
def writeNewBody (u : HuffValUseful) (type : Nat) (priv : JdecPrivate) :
    EStateM Stop (Scan Writer) (List (List Int)) := do
  onOut (writeBytes (sosHeader type))
  modify (resync priv)
  mcuLoop (writeHooks u) priv priv.sampling.components
    (mcuRows priv.height priv.sampling.ystride * mcuCols priv.width priv.sampling.xstride)

/-! ## Coded scans -/

/-- The components of the blocks of `n` MCUs. -/
def mcuComponents (components : List Nat) (n : Nat) : List Nat :=
  (List.replicate n components).flatten

@[simp] theorem mcuComponents_zero (components : List Nat) : mcuComponents components 0 = [] := rfl

theorem mcuComponents_succ (components : List Nat) (n : Nat) :
    mcuComponents components (n + 1) = components ++ mcuComponents components n := by
  rw [mcuComponents, List.replicate_succ, List.flatten_cons]
  rfl

theorem mem_mcuComponents {components : List Nat} {n c : Nat} (h : c ∈ mcuComponents components n) :
    c ∈ components := by
  rw [mcuComponents, List.mem_flatten] at h
  obtain ⟨l, hl, hc⟩ := h
  rw [List.eq_of_mem_replicate hl] at hc
  exact hc

/-- The events of the blocks of the components named. -/
def unitEvents : List Nat → List BlockCode → List Event
  | c :: cs, b :: bs => blockEvents c b ++ unitEvents cs bs
  | _, _ => []

theorem unitEvents_append : ∀ (cs cs' : List Nat) {us us' : List BlockCode},
    us.length = cs.length →
    unitEvents (cs ++ cs') (us ++ us') = unitEvents cs us ++ unitEvents cs' us'
  | [], _, [], _, _ => rfl
  | [], _, _ :: _, _, h => by simp at h
  | _ :: _, _, [], _, h => by simp at h
  | c :: cs, cs', u :: us, us', h => by
      have hlen : us.length = cs.length := by simpa using h
      rw [List.cons_append, List.cons_append, unitEvents, unitEvents,
        unitEvents_append cs cs' hlen, List.append_assoc]

section
variable {σ : Type} {h : Hooks σ} {priv : JdecPrivate} {dc ac : Nat → Table Nat}

/-- The blocks of a coded scan, one after another. -/
theorem decodeMcu_coded : ∀ {cs : List Nat} {s : Scan σ} {us : List BlockCode} {rest : List Bool}
    {o : σ}, (∀ c ∈ cs, priv.Codes c (dc c) (ac c)) → s.reader.Ok →
    (∀ c, int16 (s.previousDC c) = s.previousDC c) →
    readUnits dc ac cs s.reader.bits = some (us, rest) → 8 ≤ rest.length →
    (h.events (unitEvents cs us)).run s.out = .ok () o →
    ∃ r m, (decodeMcu h priv cs).run s = .ok (unitCoeffs s.previousDC cs us)
        { s with reader := r, previousDC := unitPreds s.previousDC cs us, out := o } ∧
      Reads s.reader m r ∧ r.bits = rest ∧
      ∀ c, int16 (unitPreds s.previousDC cs us c) = unitPreds s.previousDC cs us c
  | [], s, us, rest, o, _, hok, hpred, hread, _, hev => by
      obtain ⟨rfl, rfl⟩ := readUnits_nil_iff.mp hread
      simp only [unitEvents, Hooks.events, pure_run, EStateM.Result.ok.injEq] at hev
      exact ⟨s.reader, 0, by simp [decodeMcu, unitCoeffs, unitPreds, ← hev.2], .refl hok, rfl, hpred⟩
  | c :: cs, s, us, rest, o, hcodes, hok, hpred, hread, hlen, hev => by
      obtain ⟨b, bits₁, us₁, hb, hus, rfl⟩ := readUnits_cons_iff.mp hread
      obtain ⟨o₁, hev₁, hev₂⟩ := Hooks.events_append_ok hev
      have hle := readUnits_length_le hus
      obtain ⟨r₁, m₁, hr₁, hreads₁, hb₁⟩ := processHuffmanDataUnit_coded
        (hcodes c (List.mem_cons_self ..)) hok (hpred c) hb (by omega) hev₁
      obtain ⟨r₂, m₂, hr₂, hreads₂, hb₂, hpred₂⟩ := decodeMcu_coded
        (s := { s with reader := r₁, previousDC := nextPred s.previousDC c b, out := o₁ })
        (fun c hc => hcodes c (List.mem_cons_of_mem _ hc)) hreads₁.ok (int16_nextPred hpred c b)
        (hb₁ ▸ hus) hlen hev₂
      refine ⟨r₂, m₁ + m₂, ?_, hreads₁.trans hreads₂, hb₂, hpred₂⟩
      rw [decodeMcu, bind_ok hr₁, bind_ok hr₂]
      rfl

/-- `restarts_to_go` after some MCUs that do not end an interval. -/
def countDown (k : Int) (n : Nat) : Int := if 0 < k then k - n else k

theorem countDown_of_nonpos {k : Int} (h : k ≤ 0) (n : Nat) : countDown k n = k := by
  rw [countDown, if_neg (by omega)]

theorem countDown_succ {k : Int} {n : Nat} (h : k ≤ 0 ∨ (n + 1 : Nat) < k) :
    countDown (countDown k 1) n = countDown k (n + 1) := by
  cases h with
  | inl hle => rw [countDown_of_nonpos hle, countDown_of_nonpos hle, countDown_of_nonpos hle]
  | inr hlt =>
      have h1 : 0 < k := by omega
      have h2 : 0 < k - (1 : Nat) := by omega
      rw [countDown, countDown, countDown, if_pos h1, if_pos h2, if_pos h1]
      omega

theorem afterMcu_count {s : Scan σ} (hs : s.restartsToGo ≤ 0 ∨ 1 < s.restartsToGo) :
    (afterMcu h priv).run s = .ok () { s with restartsToGo := countDown s.restartsToGo 1 } := by
  rw [EStateM.run, afterMcu, countDown]
  cases hs with
  | inl hle => rw [if_neg (by omega), if_neg (by omega)]
  | inr hlt =>
      have hpos : 0 < s.restartsToGo := by omega
      have hgo : ¬ s.restartsToGo - 1 = 0 := by omega
      rw [if_pos hpos, if_pos hpos]
      exact if_neg hgo

/-- The walk over a coded scan that does not end a restart interval. -/
theorem mcuLoop_coded {components : List Nat} : ∀ {n : Nat} {s : Scan σ} {us : List BlockCode}
    {rest : List Bool} {o : σ}, (∀ c ∈ components, priv.Codes c (dc c) (ac c)) → s.reader.Ok →
    (∀ c, int16 (s.previousDC c) = s.previousDC c) →
    s.restartsToGo ≤ 0 ∨ (n : Int) < s.restartsToGo →
    readUnits dc ac (mcuComponents components n) s.reader.bits = some (us, rest) →
    8 ≤ rest.length → (h.events (unitEvents (mcuComponents components n) us)).run s.out = .ok () o →
    ∃ r m, (mcuLoop h priv components n).run s =
        .ok (unitCoeffs s.previousDC (mcuComponents components n) us)
          { s with reader := r,
                   previousDC := unitPreds s.previousDC (mcuComponents components n) us, out := o,
                   restartsToGo := countDown s.restartsToGo n } ∧
      Reads s.reader m r ∧ r.bits = rest ∧
      ∀ c, int16 (unitPreds s.previousDC (mcuComponents components n) us c) =
        unitPreds s.previousDC (mcuComponents components n) us c
  | 0, s, us, rest, o, _, hok, hpred, _, hread, _, hev => by
      obtain ⟨rfl, rfl⟩ := readUnits_nil_iff.mp hread
      simp only [mcuComponents_zero, unitEvents, Hooks.events, pure_run, EStateM.Result.ok.injEq]
        at hev
      have hcount : countDown s.restartsToGo 0 = s.restartsToGo := by
        rw [countDown]
        split <;> omega
      refine ⟨s.reader, 0, ?_, .refl hok, rfl, hpred⟩
      simp [mcuLoop, unitCoeffs, unitPreds, ← hev.2, hcount]
  | n + 1, s, us, rest, o, hcodes, hok, hpred, hrst, hread, hlen, hev => by
      rw [mcuComponents_succ] at hread hev ⊢
      obtain ⟨mid, us₁, us₂, hus₁, hus₂, rfl, hlen₁⟩ := readUnits_append hread
      rw [unitEvents_append _ _ hlen₁] at hev
      obtain ⟨o₁, hev₁, hev₂⟩ := Hooks.events_append_ok hev
      have hle := readUnits_length_le hus₂
      obtain ⟨r₁, m₁, hr₁, hreads₁, hb₁, hpred₁⟩ :=
        decodeMcu_coded hcodes hok hpred hus₁ (by omega) hev₁
      have hcount := countDown_succ (k := s.restartsToGo) (n := n) (by omega)
      have hrst₁ : countDown s.restartsToGo 1 ≤ 0 ∨ (n : Int) < countDown s.restartsToGo 1 := by
        rw [countDown]
        split <;> omega
      obtain ⟨r₂, m₂, hr₂, hreads₂, hb₂, hpred₂⟩ := mcuLoop_coded
        (s := { s with reader := r₁, previousDC := unitPreds s.previousDC components us₁, out := o₁,
                       restartsToGo := countDown s.restartsToGo 1 })
        hcodes hreads₁.ok hpred₁ hrst₁ (hb₁ ▸ hus₂) hlen hev₂
      rw [unitPreds_append _ _ _ hlen₁]
      refine ⟨r₂, m₁ + m₂, ?_, hreads₁.trans hreads₂, hb₂, hpred₂⟩
      rw [mcuLoop, bind_ok hr₁, bind_ok (afterMcu_count (by dsimp only; omega)), bind_ok hr₂, pure_run,
        unitCoeffs_append _ _ _ hlen₁, ← hcount]

/-- A walk in two parts. -/
theorem mcuLoop_add (components : List Nat) : ∀ m n : Nat,
    mcuLoop h priv components (m + n) = (do
      let blocks ← mcuLoop h priv components m
      let rest ← mcuLoop h priv components n
      pure (blocks ++ rest))
  | 0, n => by simp [mcuLoop]
  | m + 1, n => by
      rw [Nat.add_right_comm, mcuLoop, mcuLoop, mcuLoop_add components m n]
      simp only [bind_assoc, pure_bind, List.append_assoc]

/-! ## Any input -/

theorem decodeMcu_safe {I : σ → Prop} (hI : h.Keep I) {k : Int} (n : Nat) : ∀ {cs : List Nat},
    (∀ c ∈ cs, priv.Safe c) →
    Triple (Going I k n) (decodeMcu h priv cs) (fun _ s => Going I k n s) (Ended I)
  | [], _ => .pure fun _ hs => hs
  | c :: cs, hsafe => by
      refine (processHuffmanDataUnit_safe hI (hsafe c (List.mem_cons_self ..)) n).bind fun block => ?_
      refine (decodeMcu_safe hI n fun c hc => hsafe c (List.mem_cons_of_mem _ hc)).bind fun _ => ?_
      exact .pure fun _ hs => hs

/-- Without restart intervals the walk ends on any input. -/
theorem mcuLoop_safe {I : σ → Prop} (hI : h.Keep I) {k : Int} (hk : k ≤ 0) {components : List Nat}
    (hsafe : ∀ c ∈ components, priv.Safe c) (n : Nat) : ∀ m : Nat,
    Triple (Going I k n) (mcuLoop h priv components m) (fun _ s => Going I k n s) (Ended I)
  | 0 => .pure fun _ hs => hs
  | m + 1 => by
      refine (decodeMcu_safe hI n hsafe).bind fun blocks => ?_
      refine Triple.bind (R := fun _ s => Going I k n s)
        (fun s hs => Or.inl ⟨(), _, afterMcu_count (Or.inl (hs.toGo ▸ hk)), hs.ok, hs.le,
          (countDown_of_nonpos (hs.toGo ▸ hk) 1).trans hs.toGo, hs.out⟩) fun _ => ?_
      refine (mcuLoop_safe hI hk hsafe n m).bind fun _ => ?_
      exact .pure fun _ hs => hs

/-- A walk that goes on behind the coded blocks keeps what the pass keeps. -/
theorem mcuLoop_coded_more {I : σ → Prop} (hI : h.Keep I) {components : List Nat} {n : Nat}
    {s : Scan σ} {us : List BlockCode} {rest : List Bool} {o : σ}
    (hcodes : ∀ c ∈ components, priv.Codes c (dc c) (ac c))
    (hsafe : ∀ c ∈ components, priv.Safe c) (hok : s.reader.Ok)
    (hpred : ∀ c, int16 (s.previousDC c) = s.previousDC c) (hrst : s.restartsToGo ≤ 0)
    (hread : readUnits dc ac (mcuComponents components n) s.reader.bits = some (us, rest))
    (hlen : 8 ≤ rest.length)
    (hev : (h.events (unitEvents (mcuComponents components n) us)).run s.out = .ok () o)
    (hIo : I o) (extra : Nat) :
    (∃ bs s', (mcuLoop h priv components (n + extra)).run s = .ok bs s' ∧ I s'.out) ∨
      (∃ e s', (mcuLoop h priv components (n + extra)).run s = .error e s' ∧ e = .eio ∧ I s'.out) := by
  obtain ⟨r, m, hrun, hreads, _⟩ := mcuLoop_coded hcodes hok hpred (Or.inl hrst) hread hlen hev
  have hmore := (mcuLoop_safe hI hrst hsafe r.bits.length extra).bind (β := List (List Int))
    (f := fun bs => pure (unitCoeffs s.previousDC (mcuComponents components n) us ++ bs))
    (Q := fun _ s' => I s'.out) fun _ => .pure fun _ hs => hs.out
  rw [mcuLoop_add, bind_ok hrun]
  exact hmore _ ⟨hreads.ok, Nat.le_refl _, countDown_of_nonpos hrst n, hIo⟩

end

end Recode
