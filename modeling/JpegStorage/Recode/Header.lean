import JpegStorage.Lib.Segments
import JpegStorage.Recode.DataUnit

/-!
# The header parser

`parse_JFIF` walks over the segments of a file up to the start of scan and reads
the restart interval, the frame header, the Huffman tables and the scan header.
The parsers of the segments get a pointer and do not look at the end of their
segment.  Reading behind the end of the file is undefined.

The quantisation tables are left out, and the record of the Huffman tables is in
`JpegStorage.Recode.Directory`.  Nothing the decoder does depends on them.
-/

namespace Recode

open Segments

/-! ## Markers -/

namespace StdMarkers

/-- `SOF`. -/
def sof : UInt8 := 0xc0

/-- `DHT`. -/
def dht : UInt8 := 0xc4

/-- `SOI`. -/
def soi : UInt8 := 0xd8

/-- `EOI`. -/
def eoi : UInt8 := 0xd9

/-- `SOS`. -/
def sos : UInt8 := 0xda

/-- `DRI`. -/
def dri : UInt8 := 0xdd

end StdMarkers

/-! ## The parsers of the segments -/

/-- `be16_to_cpu`. -/
def be16ToCpu : List UInt8 → Option Nat
  | hi :: lo :: _ => some (hi.toNat <<< 8 ||| lo.toNat)
  | _ => none

/-- `parse_DRI`. -/
def parseDRI (priv : JdecPrivate) (stream : List UInt8) : Option JdecPrivate :=
  match be16ToCpu (stream.drop 2) with
  | none => none
  | some interval => some { priv with restartInterval := interval }

/-- The loop of `parse_SOF` from component `i` on.  The identifiers and the
quantisation tables are skipped. -/
def sofComponents : Nat → Nat → (Nat → Component) → List UInt8 → Option (Nat → Component)
  | 0, _, infos, _ => some infos
  | n + 1, i, infos, _ :: samplingFactor :: _ :: stream =>
      if componentCount ≤ i then none
      else
        sofComponents n (i + 1)
          (Function.update infos i
            { infos i with vfactor := samplingFactor.toNat &&& 0xf,
                           hfactor := samplingFactor.toNat >>> 4 })
          stream
  | _ + 1, _, _, _ => none

/-- `parse_SOF`. -/
def parseSOF (priv : JdecPrivate) (stream : List UInt8) : Option JdecPrivate :=
  match be16ToCpu (stream.drop 3), be16ToCpu (stream.drop 5), stream.drop 7 with
  | some height, some width, nrComponents :: stream =>
      match sofComponents nrComponents.toNat 0 priv.componentInfos stream with
      | none => none
      | some infos => some { priv with componentInfos := infos, width := width, height := height }
  | _, _, _ => none

/-- The loop of `parse_SOS` from component `i` on, and the stream behind it. -/
def sosComponents :
    Nat → Nat → (Nat → Component) → List UInt8 → Option ((Nat → Component) × List UInt8)
  | 0, _, infos, stream => some (infos, stream)
  | n + 1, i, infos, _ :: table :: stream =>
      if componentCount ≤ i then none
      else
        sosComponents n (i + 1)
          (Function.update infos i
            { infos i with acTable := some (table.toNat &&& 0xf),
                           dcTable := some (table.toNat >>> 4) })
          stream
  | _ + 1, _, _, _ => none

/-- `parse_SOS`. -/
def parseSOS (priv : JdecPrivate) (stream : List UInt8) : Option JdecPrivate :=
  match stream.drop 2 with
  | nrComponents :: stream =>
      match sosComponents nrComponents.toNat 0 priv.componentInfos stream with
      | none => none
      | some (infos, stream) => some { priv with componentInfos := infos, stream := stream.drop 3 }
  | _ => none

/-- Store a table under the class and the number in `index`. -/
def JdecPrivate.storeTable (priv : JdecPrivate) (index : UInt8) (bits vals : List Nat) :
    Option JdecPrivate :=
  let id := (index &&& 0xf).toNat
  if huffmanTables ≤ id then none
  else if index &&& 0xf0 ≠ 0 then
    match buildHuffmanTable bits vals (priv.htac id) with
    | none => none
    | some table => some { priv with htac := Function.update priv.htac id table }
  else
    match buildHuffmanTable bits vals (priv.htdc id) with
    | none => none
    | some table => some { priv with htdc := Function.update priv.htdc id table }

/-- A round of `parse_DHT`: the number of values and the stream behind them. -/
def parseTable (priv : JdecPrivate) (stream : List UInt8) :
    Option (JdecPrivate × Nat × List UInt8) :=
  match stream with
  | [] => none
  | index :: stream =>
      let huffBits := (stream.take 16).map UInt8.toNat
      let count := huffBits.sum
      if stream.length < 16 + count then none
      else
        match priv.storeTable index huffBits (((stream.drop 16).take count).map UInt8.toNat) with
        | none => none
        | some priv => some (priv, count, stream.drop (16 + count))

/-- The loop of `parse_DHT`, and the stream behind the tables read. -/
def parseTables : Nat → Int → JdecPrivate → List UInt8 → Except Stop (JdecPrivate × List UInt8)
  | fuel, length, priv, stream =>
      if length ≤ 0 then .ok (priv, stream)
      else
        match fuel with
        | 0 => .error .stuck
        | fuel + 1 =>
            match parseTable priv stream with
            | none => .error .undefined
            | some (priv, count, stream) => parseTables fuel (length - 1 - 16 - count) priv stream

/-- `parse_DHT`.  The stream behind the tables is not returned by the source. -/
def parseDHT (priv : JdecPrivate) (stream : List UInt8) : Except Stop (JdecPrivate × List UInt8) :=
  match be16ToCpu stream with
  | none => .error .undefined
  | some length => parseTables length ((length : Int) - 2) priv (stream.drop 2)

/-! ## The walk -/

/-- Outside of the buffer the behaviour is undefined. -/
def orUndef {α : Type} : Option α → Except Stop α
  | none => .error .undefined
  | some a => .ok a

/-- The `switch` of `parse_JFIF`. -/
def parseMarker (marker : UInt8) (priv : JdecPrivate) (stream : List UInt8) :
    Except Stop JdecPrivate :=
  if marker = StdMarkers.dri then orUndef (parseDRI priv stream)
  else if marker = StdMarkers.sof then orUndef (parseSOF priv stream)
  else if marker = StdMarkers.dht then (parseDHT priv stream).map Prod.fst
  else if marker = StdMarkers.sos then orUndef (parseSOS priv stream)
  else .ok priv

/-- `while (*stream == 0xff) stream++`. -/
def skipFill : List UInt8 → List UInt8
  | [] => []
  | c :: rest => if c = 0xff then skipFill rest else c :: rest

/-- `parse_JFIF`. -/
def parseJFIF : Nat → JdecPrivate → List UInt8 → Except Stop JdecPrivate
  | 0, _, _ => .error .stuck
  | _ + 1, _, [] => .error .undefined
  | fuel + 1, priv, c :: stream =>
      if c ≠ 0xff then .error .exit
      else
        match skipFill stream with
        | [] => .error .undefined
        | marker :: stream =>
            match be16ToCpu stream with
            | none => .error .undefined
            | some chuckLen =>
                match parseMarker marker priv stream with
                | .error e => .error e
                | .ok priv =>
                    if marker = StdMarkers.sos then .ok priv
                    else parseJFIF fuel priv (stream.drop chuckLen)

/-- `tinyjpeg_init`. -/
def tinyjpegInit : JdecPrivate where
  buffer := []
  stream := []
  width := 0
  height := 0
  componentInfos := fun _ => ⟨0, 0, none, none⟩
  htdc := fun _ => .zero
  htac := fun _ => .zero
  restartInterval := 0

/-- `tinyjpeg_parse_header`.  A file that does not begin with `SOI` is only
complained about.  The parsers do not look at `stream_begin` and `stream_end`. -/
def tinyjpegParseHeader (buf : List UInt8) : Except Stop JdecPrivate :=
  if buf.length < 2 then .error .undefined
  else
    match parseJFIF buf.length tinyjpegInit (buf.drop 2) with
    | .error e => .error e
    | .ok priv => .ok { priv with buffer := buf.drop 2 }

/-! ## One round of the walk -/

theorem be16ToCpu_cons (hi lo : UInt8) (rest : List UInt8) :
    be16ToCpu (hi :: lo :: rest) = some (be16 hi lo) := by
  rw [be16ToCpu, Bits.shiftLeft_or lo.toNat_lt]
  rfl

theorem be16ToCpu_some {stream : List UInt8} {n : Nat} (h : be16ToCpu stream = some n) :
    ∃ hi lo rest, stream = hi :: lo :: rest ∧ be16 hi lo = n := by
  match stream, h with
  | hi :: lo :: rest, h =>
      rw [be16ToCpu_cons] at h
      exact ⟨hi, lo, rest, rfl, Option.some.inj h⟩

theorem skipFill_fill {m : UInt8} (hm : m ≠ 0xff) (n : Nat) (rest : List UInt8) :
    skipFill (fill n ++ m :: rest) = m :: rest := by
  induction n with
  | zero =>
      change skipFill (m :: rest) = m :: rest
      rw [skipFill, if_neg hm]
  | succ n ih => exact ih

theorem skipFill_cons {m : UInt8} {stream rest : List UInt8} (h : skipFill stream = m :: rest) :
    m ≠ 0xff ∧ ∃ n, stream = fill n ++ m :: rest := by
  induction stream with
  | nil => cases h
  | cons c stream ih =>
      rw [skipFill] at h
      split at h
      next hc =>
        obtain ⟨hm, n, rfl⟩ := ih h
        exact ⟨hm, n + 1, by rw [hc]; rfl⟩
      next hc =>
        injection h with hm hrest
        subst hm hrest
        exact ⟨hc, 0, rfl⟩

/-- A round behind fill bytes and a marker. -/
theorem parseJFIF_marker {m : UInt8} (hm : m ≠ 0xff) (n fuel : Nat) (priv : JdecPrivate)
    {stream : List UInt8} {len : Nat} (hlen : be16ToCpu stream = some len) :
    parseJFIF (fuel + 1) priv (fill (n + 1) ++ m :: stream) =
      match parseMarker m priv stream with
      | .error e => .error e
      | .ok priv =>
          if m = StdMarkers.sos then .ok priv else parseJFIF fuel priv (stream.drop len) := by
  change parseJFIF (fuel + 1) priv (0xff :: (fill n ++ m :: stream)) = _
  rw [parseJFIF, if_neg (by decide), skipFill_fill hm]
  simp only [hlen]

/-- Everything a round that goes well can do. -/
theorem parseJFIF_cases {fuel : Nat} {priv priv' : JdecPrivate} {bytes : List UInt8}
    (h : parseJFIF fuel priv bytes = .ok priv') :
    ∃ fuel₁ n m stream len priv₁, fuel = fuel₁ + 1 ∧ bytes = fill (n + 1) ++ m :: stream ∧
      m ≠ 0xff ∧ be16ToCpu stream = some len ∧ parseMarker m priv stream = .ok priv₁ ∧
      ((m = StdMarkers.sos ∧ priv₁ = priv') ∨
        (m ≠ StdMarkers.sos ∧ parseJFIF fuel₁ priv₁ (stream.drop len) = .ok priv')) := by
  match fuel, bytes, h with
  | fuel + 1, c :: stream, h =>
      rw [parseJFIF] at h
      split at h
      · cases h
      next hc =>
        split at h
        · cases h
        next m rest hskip =>
          split at h
          · cases h
          next len hlen =>
            split at h
            · cases h
            next priv₁ hmarker =>
              obtain ⟨hm, n, rfl⟩ := skipFill_cons hskip
              refine ⟨fuel, n, m, rest, len, priv₁, rfl, ?_, hm, hlen, hmarker, ?_⟩
              · rw [Decidable.not_not.mp hc]
                rfl
              · split at h
                next hsos => exact Or.inl ⟨hsos, Except.ok.inj h⟩
                next hsos => exact Or.inr ⟨hsos, h⟩

/-- The next round begins with `FF`, so the length of the segment is at least two. -/
theorem segment_of_round {m : UInt8} (hm : m ≠ 0xff) {stream : List UInt8} {len : Nat}
    (hlen : be16ToCpu stream = some len) {rest : List UInt8}
    (hrest : stream.drop len = 0xff :: rest) :
    ∃ s : Segment, s.marker = m ∧ stream = s.body ++ 0xff :: rest := by
  obtain ⟨hi, lo, stream, rfl, rfl⟩ := be16ToCpu_some hlen
  have hlt := be16_lt hi lo
  by_cases hge : 2 ≤ be16 hi lo
  · obtain ⟨k, hk⟩ := Nat.exists_eq_add_of_le' hge
    rw [hk, List.drop_succ_cons, List.drop_succ_cons] at hrest
    have hle : k ≤ stream.length := by
      by_contra hgt
      rw [List.drop_eq_nil_of_le (by omega)] at hrest
      cases hrest
    have hpayload : (stream.take k).length = k := by
      rw [List.length_take]
      omega
    refine ⟨⟨m, stream.take k, hm, by omega⟩, rfl, ?_⟩
    have hbytes : be16Bytes (k + 2) = [hi, lo] := by
      have heq := be16_ofNat (n := k + 2) (by omega)
      obtain ⟨hhi, hlo⟩ := be16_inj (heq.trans hk.symm)
      rw [be16Bytes, hhi, hlo]
    simp only [Segment.body, hpayload, hbytes, ← hrest, List.append_assoc, List.take_append_drop]
    rfl
  · -- a length of zero or one has a high byte of zero, which is no `FF`
    have hhi : hi = 0 := by
      rw [be16] at hge
      have h0 : hi.toNat = 0 := by omega
      exact UInt8.toNat_inj.mp h0
    rw [be16, hhi] at hge hrest
    have hlo : lo.toNat = 0 ∨ lo.toNat = 1 := by
      simp at hge
      omega
    cases hlo with
    | inl h0 =>
        rw [h0] at hrest
        injection hrest with hff
        cases hff
    | inr h1 =>
        rw [h1] at hrest
        injection hrest with hff
        rw [hff] at h1
        cases h1

/-- A header that is accepted is cut into segments. -/
theorem parseJFIF_walk {fuel : Nat} {priv priv' : JdecPrivate} {bytes : List UInt8}
    (h : parseJFIF fuel priv bytes = .ok priv') :
    ∃ segs rest, Walk StdMarkers.sos bytes segs rest := by
  induction fuel generalizing priv bytes with
  | zero => cases h
  | succ fuel ih =>
      obtain ⟨fuel₁, n, m, stream, len, priv₁, hfuel, rfl, hm, hlen, _, hround⟩ := parseJFIF_cases h
      obtain rfl : fuel = fuel₁ := by omega
      cases hround with
      | inl hsos =>
          obtain ⟨rfl, rfl⟩ := hsos
          exact ⟨[], stream, .stop n stream⟩
      | inr hmore =>
          obtain ⟨hne, hrun⟩ := hmore
          obtain ⟨segs, rest, hwalk⟩ := ih hrun
          obtain ⟨_, n', m', stream', _, _, _, hnext, _⟩ := parseJFIF_cases hrun
          obtain ⟨s, rfl, hs⟩ := segment_of_round hm hlen hnext
          have hdrop : stream.drop len = fill (n' + 1) ++ m' :: stream' := hnext
          rw [hs] at hlen ⊢
          rw [hnext] at hwalk
          exact ⟨s :: segs, rest, .segment n hne hwalk⟩

/-! ## Fuel -/

theorem parseTable_shorter {priv priv' : JdecPrivate} {stream rest : List UInt8} {count : Nat}
    (h : parseTable priv stream = some (priv', count, rest)) : rest.length < stream.length := by
  match stream, h with
  | index :: stream, h =>
      simp only [parseTable] at h
      split at h
      · cases h
      · split at h
        · cases h
        · cases h
          rw [List.length_drop, List.length_cons]
          omega

/-- The number of rounds is bounded by the length. -/
theorem parseTables_total {fuel : Nat} {length : Int} {priv : JdecPrivate} {stream : List UInt8}
    (hfuel : length ≤ fuel) : parseTables fuel length priv stream ≠ .error .stuck := by
  induction fuel generalizing length priv stream with
  | zero =>
      rw [parseTables, if_pos (by omega)]
      exact fun h => by cases h
  | succ fuel ih =>
      rw [parseTables]
      split
      · exact fun h => by cases h
      · split
        · exact fun h => by cases h
        · exact ih (by omega)

theorem orUndef_total {α : Type} (x : Option α) : orUndef x ≠ .error .stuck := by
  cases x <;> exact fun h => by cases h

theorem parseDHT_total (priv : JdecPrivate) (stream : List UInt8) :
    parseDHT priv stream ≠ .error .stuck := by
  rw [parseDHT]
  split
  · exact fun h => by cases h
  · exact parseTables_total (by omega)

theorem parseMarker_total (m : UInt8) (priv : JdecPrivate) (stream : List UInt8) :
    parseMarker m priv stream ≠ .error .stuck := by
  rw [parseMarker]
  split
  · exact orUndef_total _
  · split
    · exact orUndef_total _
    · split
      · have hdht := parseDHT_total priv stream
        intro h
        cases hrun : parseDHT priv stream with
        | error e =>
            rw [hrun] at h hdht
            injection h with he
            exact hdht (by rw [he])
        | ok p =>
            rw [hrun] at h
            cases h
      · split
        · exact orUndef_total _
        · exact fun h => by cases h

/-- Every round takes bytes, so the walk ends. -/
theorem parseJFIF_total {fuel : Nat} {priv : JdecPrivate} {bytes : List UInt8}
    (hfuel : bytes.length < fuel) : parseJFIF fuel priv bytes ≠ .error .stuck := by
  induction fuel generalizing priv bytes with
  | zero => omega
  | succ fuel ih =>
      cases bytes with
      | nil => exact fun h => by cases h
      | cons c stream =>
          rw [parseJFIF]
          split
          · exact fun h => by cases h
          · split
            · exact fun h => by cases h
            next m rest hskip =>
              split
              · exact fun h => by cases h
              · split
                next e herr =>
                  intro h
                  injection h with he
                  exact parseMarker_total m priv rest (by rw [herr, he])
                · split
                  · exact fun h => by cases h
                  · obtain ⟨_, n, rfl⟩ := skipFill_cons hskip
                    refine ih ?_
                    rw [List.length_drop]
                    rw [List.length_cons, List.length_append, List.length_cons] at hfuel
                    omega

/-- Reading a header ends on any file. -/
theorem tinyjpegParseHeader_total (buf : List UInt8) : tinyjpegParseHeader buf ≠ .error .stuck := by
  rw [tinyjpegParseHeader]
  split
  · exact fun h => by cases h
  · have htotal : parseJFIF buf.length tinyjpegInit (buf.drop 2) ≠ .error .stuck := by
      refine parseJFIF_total ?_
      rw [List.length_drop]
      omega
    split
    next e herr =>
      intro h
      injection h with he
      exact htotal (by rw [herr, he])
    · exact fun h => by cases h

theorem tinyjpegParseHeader_ok {buf : List UInt8} {priv : JdecPrivate}
    (h : tinyjpegParseHeader buf = .ok priv) : 2 ≤ buf.length ∧
      ∃ p, parseJFIF buf.length tinyjpegInit (buf.drop 2) = .ok p ∧
        priv = { p with buffer := buf.drop 2 } := by
  rw [tinyjpegParseHeader] at h
  split at h
  · cases h
  next hlen =>
    split at h
    · cases h
    next p hrun => exact ⟨Nat.le_of_not_lt hlen, p, hrun, (Except.ok.inj h).symm⟩

end Recode
