import JpegStorage.Lib.Trace
import JpegStorage.Recode.Lossless

/-!
# The reservoir at every point

The refill, the peek and the skip are expanded by hand in eight places of the source.
`decodePoints` lists the states of the reader a sequence of blocks comes to: every test
of a refill loop, every subtraction from `nbits_in_reservoir` and every mask.  At each
of them the bits consumed so far and the bits of the reservoir are the data bytes in
front of `priv->stream` (`reservoir_at_every_point`).
-/

namespace Recode

open Canonical Stuffing Baseline Run

/-! ## Points -/

/-- A place where the source looks at the reservoir. -/
structure Point where
  /-- The state of the reader. -/
  reader : BitReader
  /-- What is subtracted from `nbits_in_reservoir` here. -/
  sub : Nat
  /-- The bits consumed here. -/
  taken : List Bool
deriving DecidableEq, Repr

/-- The reader as it stands. -/
def BitReader.here (s : BitReader) : Point := ⟨s, 0, []⟩

/-- The subtraction of `peek`. -/
def BitReader.peekPoint (s : BitReader) (n : Nat) : Point := ⟨s, n, []⟩

/-- The subtraction of `skip`, and the state behind the mask. -/
def BitReader.skipPoints (s : BitReader) (n : Nat) : List Point :=
  [⟨s, n, Bits.ofNat n (s.peek n)⟩, (s.skip n).here]

/-- The tests of the refill loop, the one before `stream_end` is noticed included. -/
def refillPoints (n : Nat) : List UInt8 → Nat → Nat → List Point
  | [], reservoir, nbits => [BitReader.here ⟨[], reservoir, nbits⟩]
  | 0xff :: 0x00 :: rest, reservoir, nbits =>
      BitReader.here ⟨0xff :: 0x00 :: rest, reservoir, nbits⟩ ::
        if nbits < n then refillPoints n rest (pushByte reservoir 0xff) (nbits + 8) else []
  | c :: rest, reservoir, nbits =>
      BitReader.here ⟨c :: rest, reservoir, nbits⟩ ::
        if nbits < n then refillPoints n rest (pushByte reservoir c) (nbits + 8) else []

/-- A refill and what follows it. -/
def BitReader.afterRefill (s : BitReader) (n : Nat) (pts : BitReader → List Point) : List Point :=
  refillPoints n s.stream s.reservoir s.nbits ++
    match s.refill n with
    | none => []
    | some s => pts s

/-- The points of `slowSearch`. -/
def slowPoints (table : HuffmanTable) : List Nat → BitReader → List Point
  | [], s => [s.here]
  | nbits :: rest, s => s.afterRefill nbits fun s =>
      s.peekPoint nbits ::
        match (table.slowtable (nbits - huffmanHashNbits - 1)).find?
            (fun p => p.1 = s.peek nbits) with
        | some _ => s.skipPoints nbits
        | none => slowPoints table rest s

/-- The points of `get_next_huffman_code`. -/
def symbolPoints (table : HuffmanTable) (s : BitReader) : List Point :=
  s.afterRefill huffmanHashNbits fun s =>
    s.peekPoint huffmanHashNbits ::
      match table.lookup (s.peek huffmanHashNbits) with
      | some value => s.skipPoints (table.codeSize value)
      | none => slowPoints table [10, 11, 12, 13, 14, 15, 16] s

/-- The points of `get_nbits`. -/
def nbitsPoints (n : Nat) (s : BitReader) : List Point :=
  s.afterRefill n fun s => s.peekPoint n :: s.skipPoints n

section
variable {σ : Type}

/-- The points of the loop over the AC coefficients. -/
def acPoints (h : Hooks σ) (table : HuffmanTable) (type : Nat) : Nat → Nat → Scan σ → List Point
  | 0, _ => fun _ => []
  | fuel + 1, j =>
      if 64 ≤ j then fun _ => []
      else andThen (fun s => symbolPoints table s.reader) (nextSymbol h table type) fun huffCode =>
        let sizeVal := huffCode % 16
        let count0 := huffCode / 16
        if sizeVal = 0 then
          if count0 = 0 then fun _ => []
          else if count0 = 15 then acPoints h table type fuel ((j + 16) % 256)
          else acPoints h table type fuel j
        else
          let j := (j + count0) % 256
          if 64 ≤ j then fun _ => []
          else andThen (fun s => nbitsPoints sizeVal s.reader) (nextMagnitude h sizeVal) fun _ =>
            acPoints h table type fuel (j + 1)

/-- The points of the DC coefficient. -/
def dcPoints (h : Hooks σ) (table : HuffmanTable) (component : Nat) : Scan σ → List Point :=
  andThen (fun s => symbolPoints table s.reader) (nextSymbol h table (dcType component))
    fun huffCode => if huffCode = 0 then fun _ => [] else fun s => nbitsPoints huffCode s.reader

/-- The points of `process_Huffman_data_unit`. -/
def blockPoints (h : Hooks σ) (priv : JdecPrivate) (component : Nat) : Scan σ → List Point :=
  andThen (fun _ => []) (deref (priv.dcTable component)) fun dcTable =>
    andThen (dcPoints h dcTable component) (dcCoefficient h dcTable component) fun _ =>
      andThen (fun _ => []) (deref (priv.acTable component)) fun acTable s =>
        acPoints h acTable (acType component) s.reader.fuel 1 s

/-- The points of a sequence of calls. -/
def decodePoints (h : Hooks σ) (priv : JdecPrivate) : List Nat → Scan σ → List Point
  | [] => fun s => [s.reader.here]
  | c :: cs => andThen (blockPoints h priv c) (processHuffmanDataUnit h priv c) fun _ =>
      decodePoints h priv cs

end

/-! ## The invariant -/

/-- The reservoir at a point of an interval that starts at `start`, with the bits `taken`
consumed before. -/
structure Point.Sound (start : List UInt8) (taken : List Bool) (p : Point) : Prop where
  /-- At most 23 bits are prefetched. -/
  nbits : p.reader.nbits ≤ 23
  /-- Nothing stands above the counted bits. -/
  reservoir : p.reader.reservoir < 2 ^ p.reader.nbits
  /-- The subtraction does not underflow. -/
  sub : p.sub ≤ p.reader.nbits
  /-- `priv->stream` is a position of the interval. -/
  suffix : p.reader.stream <:+ start
  /-- The bits consumed and those held are the data bytes in front of it. -/
  bits : taken ++ Bits.ofNat p.reader.nbits p.reader.reservoir =
    Bits.ofBytes (unstuff (start.take (start.length - p.reader.stream.length)))

/-- The bits consumed, with those of a point. -/
def Point.consume (taken : List Bool) (p : Point) : List Bool := taken ++ p.taken

/-- What is kept from one point to the next. -/
structure Kept (start : List UInt8) (taken : List Bool) (s : BitReader) : Prop where
  /-- The reader is in order. -/
  ok : s.Ok
  /-- No bit is lost. -/
  bits : taken ++ s.bits = Bits.ofBytes (unstuff start)
  /-- The stream stands behind whole data bytes. -/
  stream : ∃ j, s.stream = skipData j start ∧ 8 * j = taken.length + s.nbits

/-- All points of the list are sound, and where the source goes on behind them the
reader is in order. -/
def Follows (start : List UInt8) (taken : List Bool) (pts : List Point)
    (next : Option BitReader) : Prop :=
  Along Point.consume (Point.Sound start) taken pts ∧
    ∀ s, next = some s → Kept start (pts.foldl Point.consume taken) s

section
variable {start : List UInt8} {taken : List Bool}

theorem Kept.initial (stream : List UInt8) : Kept stream [] ⟨stream, 0, 0⟩ :=
  ⟨⟨Nat.one_pos, Nat.zero_le _⟩, rfl, 0, by simp, rfl⟩

theorem Kept.reads {s s' : BitReader} {k : Nat} (h : Kept start taken s) (hr : Reads s k s') :
    Kept start (taken ++ s.bits.take k) s' := by
  obtain ⟨j, hj, hn⟩ := h.stream
  obtain ⟨j', hj', hn'⟩ := hr.stream
  refine ⟨hr.ok, ?_, j + j', ?_, ?_⟩
  · rw [hr.bits, List.append_assoc, List.take_append_drop, h.bits]
  · rw [hj', hj, skipData_add]
  · rw [List.length_append, List.length_take, Nat.min_eq_left hr.le]
    omega

theorem Kept.refilled {s s' : BitReader} (h : Kept start taken s) (hr : Reads s 0 s') :
    Kept start taken s' := by
  have hkept := h.reads hr
  rwa [List.take_zero, List.append_nil] at hkept

theorem Kept.sound {s : BitReader} (h : Kept start taken s) {n : Nat} (hn : n ≤ s.nbits)
    (bits : List Bool) : Point.Sound start taken ⟨s, n, bits⟩ := by
  obtain ⟨j, hj, hlen⟩ := h.stream
  refine ⟨h.ok.le, h.ok.lt, hn, hj ▸ skipData_suffix j start, ?_⟩
  have htake : (taken ++ s.bits).take (8 * j) = taken ++ Bits.ofNat s.nbits s.reservoir := by
    rw [hlen, List.take_length_add_append, BitReader.bits]
    exact congrArg _ (List.take_left' (Bits.length_ofNat ..))
  rw [← htake, h.bits, hj, unstuff_take_skipData, Bits.ofBytes_take]

/-- Nothing is consumed by looking. -/
theorem Follows.look {s : BitReader} {n : Nat} {pts : List Point} {next : Option BitReader}
    (h : Kept start taken s) (hn : n ≤ s.nbits) (hpts : Follows start taken pts next) :
    Follows start taken (s.peekPoint n :: pts) next := by
  have hsame : Point.consume taken (s.peekPoint n) = taken := List.append_nil taken
  rw [Follows, Along, List.foldl_cons, hsame]
  exact ⟨⟨h.sound hn [], hpts.1⟩, hpts.2⟩

theorem Follows.nil {next : Option BitReader} (h : ∀ s, next = some s → Kept start taken s) :
    Follows start taken [] next :=
  ⟨trivial, h⟩

theorem Kept.here {s : BitReader} (h : Kept start taken s) :
    Follows start taken [s.here] (some s) :=
  .look h (Nat.zero_le _) (.nil fun s' hs' => by
    obtain rfl := Option.some.inj hs'
    exact h)

/-- A skip consumes the bits a peek sees. -/
theorem Follows.skip {s : BitReader} {n : Nat} (h : Kept start taken s) (hn : n ≤ s.nbits) :
    Follows start taken (s.skipPoints n) (some (s.skip n)) := by
  have hreads := BitReader.skip_reads h.ok hn
  have hbits : Bits.ofNat n (s.peek n) = s.bits.take n := by
    have hself := Bits.ofNat_toNat (s.bits.take n)
    rwa [List.length_take, Nat.min_eq_left hreads.le, ← BitReader.peek_eq h.ok hn] at hself
  have hhere := (h.reads hreads).here
  rw [BitReader.skipPoints, hbits]
  exact ⟨⟨h.sound hn _, hhere.1⟩, hhere.2⟩

/-! ## Refilling -/

theorem refillPoints_cons (n : Nat) (c : UInt8) (rest : List UInt8) (reservoir nbits : Nat) :
    refillPoints n (c :: rest) reservoir nbits =
      BitReader.here ⟨c :: rest, reservoir, nbits⟩ ::
        if nbits < n then refillPoints n (afterByte c rest) (pushByte reservoir c) (nbits + 8)
        else [] := by
  by_cases hz : c = 0xff ∧ ∃ rest', rest = 0x00 :: rest'
  · obtain ⟨rfl, rest', rfl⟩ := hz
    rfl
  · have hafter : afterByte c rest = rest := by
      unfold afterByte
      split
      next rest' => exact absurd ⟨rfl, rest', rfl⟩ hz
      · rfl
    rw [hafter, refillPoints.eq_3]
    intro rest' hc hrest
    exact hz ⟨hc, rest', hrest⟩

/-- The tests of a refill loop. -/
theorem refillPoints_follow {n : Nat} (hn : n ≤ 16) {pts : List Point} {next : Option BitReader} :
    ∀ (stream : List UInt8) (reservoir nbits : Nat), Kept start taken ⟨stream, reservoir, nbits⟩ →
      Follows start taken pts next →
      Follows start taken (refillPoints n stream reservoir nbits ++ pts) next := by
  intro stream
  induction hlen : stream.length using Nat.strong_induction_on generalizing stream with
  | _ len ih =>
    intro reservoir nbits h hpts
    match stream with
    | [] => exact .look h (Nat.zero_le _) hpts
    | c :: rest =>
        rw [refillPoints_cons, List.cons_append]
        refine .look h (Nat.zero_le _) ?_
        split
        next hlt =>
          have hle : (afterByte c rest).length < len := by
            rw [← hlen, List.length_cons]
            exact Nat.lt_succ_of_le (length_afterByte_le c rest)
          exact ih _ hle _ rfl _ _ (h.refilled (pushByte_reads h.ok (by omega))) hpts
        · exact hpts

/-- A refill and what follows it. -/
theorem afterRefill_follow {s : BitReader} {n : Nat} {pts : BitReader → List Point}
    {next : BitReader → Option BitReader} (hn : n ≤ 16) (h : Kept start taken s)
    (hpts : ∀ s₁, Kept start taken s₁ → n ≤ s₁.nbits → Follows start taken (pts s₁) (next s₁)) :
    Follows start taken (s.afterRefill n pts) ((s.refill n).bind next) := by
  refine refillPoints_follow hn s.stream s.reservoir s.nbits h ?_
  cases hs : s.refill n with
  | none => exact .nil nofun
  | some s₁ =>
      obtain ⟨hr, hge⟩ := BitReader.refill_reads hn h.ok hs
      exact hpts s₁ (h.refilled hr) hge

/-! ## Symbols and magnitudes -/

theorem slowSearch_next (table : HuffmanTable) (n : Nat) (ns : List Nat) (s : BitReader) :
    (slowSearch table (n :: ns) s).map Prod.snd = (s.refill n).bind fun s₁ =>
      (match (table.slowtable (n - huffmanHashNbits - 1)).find?
          (fun p : Nat × Nat => p.1 = s₁.peek n) with
        | some p => some (p.2, s₁.skip n)
        | none => slowSearch table ns s₁).map Prod.snd := by
  rw [slowSearch]
  cases s.refill n <;> rfl

theorem getNextHuffmanCode_next (table : HuffmanTable) (s : BitReader) :
    (getNextHuffmanCode table s).map Prod.snd = (s.refill huffmanHashNbits).bind fun s₁ =>
      (match table.lookup (s₁.peek huffmanHashNbits) with
        | some value => some (value, s₁.skip (table.codeSize value))
        | none => slowSearch table [10, 11, 12, 13, 14, 15, 16] s₁).map Prod.snd := by
  rw [getNextHuffmanCode]
  cases s.refill huffmanHashNbits <;> rfl

theorem getNbits_next (n : Nat) (s : BitReader) :
    (getNbits n s).map Prod.snd = (s.refill n).bind fun s₁ => some (s₁.skip n) := by
  rw [getNbits]
  cases s.refill n <;> rfl

theorem slowPoints_follow {table : HuffmanTable} {ns : List Nat} {s : BitReader}
    (hns : ∀ n ∈ ns, n ≤ 16) (h : Kept start taken s) :
    Follows start taken (slowPoints table ns s) ((slowSearch table ns s).map Prod.snd) := by
  induction ns generalizing s with
  | nil => exact h.here
  | cons n ns ih =>
      rw [slowSearch_next]
      refine afterRefill_follow (hns n (List.mem_cons_self ..)) h fun s₁ h₁ hge => .look h₁ hge ?_
      split
      · exact .skip h₁ hge
      · exact ih (fun m hm => hns m (List.mem_cons_of_mem _ hm)) h₁

theorem symbolPoints_follow {table : HuffmanTable} (ht : table.Safe) {s : BitReader}
    (h : Kept start taken s) :
    Follows start taken (symbolPoints table s) ((getNextHuffmanCode table s).map Prod.snd) := by
  rw [getNextHuffmanCode_next]
  refine afterRefill_follow (by decide) h fun s₁ h₁ hge => .look h₁ hge ?_
  split
  next value hv => exact .skip h₁ ((ht _ _ hv).2.trans hge)
  · exact slowPoints_follow (by decide) h₁

theorem nbitsPoints_follow {n : Nat} (hn : n ≤ 16) {s : BitReader} (h : Kept start taken s) :
    Follows start taken (nbitsPoints n s) ((getNbits n s).map Prod.snd) := by
  rw [getNbits_next]
  exact afterRefill_follow hn h fun s₁ h₁ hge => .look h₁ hge (.skip h₁ hge)

end

/-! ## Blocks -/

/-- A pass stops on a symbol or a magnitude. -/
def Hooks.Stops {σ : Type} (h : Hooks σ) (e : Stop) : Prop :=
  ∃ event o o', (h.event event).run o = .error e o'

section
variable {σ : Type}

/-- The judgment for the programs that decode: they stop at the end of the input or
where the pass does. -/
def Decodes {α : Type} (h : Hooks σ) (start : List UInt8) (P : Scan σ → Prop)
    (pts : Scan σ → List Point) (x : EStateM Stop (Scan σ) α) (Q : α → Scan σ → Prop) : Prop :=
  Tracks Point.consume (Point.Sound start) (fun taken s => Kept start taken s.reader) P pts x Q
    fun e => e = .eio ∨ h.Stops e

/-- No more than `n` bits are left. -/
def Left (n : Nat) (s : Scan σ) : Prop := s.reader.bits.length ≤ n

variable {h : Hooks σ} {start : List UInt8} {table : HuffmanTable}

/-- Reading leaves no more bits. -/
theorem left_of_reads {s s' : BitReader} {k n : Nat} (hr : Reads s k s') (hle : s.bits.length ≤ n) :
    s'.bits.length + k ≤ n := by
  have hk := hr.le
  rw [hr.bits, List.length_drop]
  omega

theorem nextSymbol_decodes (ht : table.Safe) (type n : Nat) :
    Decodes h start (Left n) (fun s => symbolPoints table s.reader) (nextSymbol h table type)
      fun v s => Left (if v = 0 then n else n - 1) s ∧ (v ≠ 0 → 1 ≤ n) ∧ table.Value v := by
  intro taken s hkept hleft
  obtain ⟨hpts, hnext⟩ := symbolPoints_follow ht hkept
  refine ⟨hpts, ?_⟩
  cases hr : getNextHuffmanCode table s.reader with
  | none =>
      exact Or.inr ⟨.eio, s, by rw [nextSymbol, bind_error (readBits_error hr)], Or.inl rfl⟩
  | some p =>
      obtain ⟨v, r⟩ := p
      obtain ⟨m, hreads, hm, hv⟩ := getNextHuffmanCode_safe ht hkept.ok hr
      have hle := left_of_reads hreads hleft
      rw [nextSymbol, bind_ok (readBits_ok hr)]
      cases ho : (h.symbol type v).run s.out with
      | error e o =>
          rw [bind_error (onOut_error (s := { s with reader := r }) ho)]
          exact Or.inr ⟨e, _, rfl, Or.inr ⟨.symbol type v, _, o, ho⟩⟩
      | ok u o =>
          rw [bind_ok (onOut_ok (s := { s with reader := r }) ho)]
          refine Or.inl ⟨v, _, rfl, hnext r (by rw [hr]; rfl), ?_, fun hne => ?_, hv⟩
          · change r.bits.length ≤ _
            split
            · omega
            next hne =>
              have := hm hne
              omega
          · have := hm hne
            omega

theorem nextMagnitude_decodes {m : Nat} (hm : m ≤ 16) (n : Nat) :
    Decodes h start (Left n) (fun s => nbitsPoints m s.reader) (nextMagnitude h m)
      fun _ s => Left n s := by
  intro taken s hkept hleft
  obtain ⟨hpts, hnext⟩ := nbitsPoints_follow hm hkept
  refine ⟨hpts, ?_⟩
  cases hr : getNbits m s.reader with
  | none =>
      exact Or.inr ⟨.eio, s, by rw [nextMagnitude, bind_error (readBits_error hr)], Or.inl rfl⟩
  | some p =>
      obtain ⟨value, r⟩ := p
      have hle := left_of_reads (getNbits_safe hm hkept.ok hr) hleft
      rw [nextMagnitude, bind_ok (readBits_ok hr), if_neg (by omega)]
      cases ho : (h.magnitude (magnitude m value)).run s.out with
      | error e o =>
          rw [bind_error (onOut_error (s := { s with reader := r }) ho)]
          exact Or.inr ⟨e, _, rfl, Or.inr ⟨.magnitude _, _, o, ho⟩⟩
      | ok u o =>
          rw [bind_ok (onOut_ok (s := { s with reader := r }) ho)]
          refine Or.inl ⟨_, _, rfl, hnext r (by rw [hr]; rfl), ?_⟩
          change r.bits.length ≤ n
          omega

/-- The AC loop ends before the fuel does: a round that goes on takes a bit. -/
theorem acLoop_decodes (ht : table.Safe) (type : Nat) : ∀ {fuel n : Nat} (j : Nat) (dct : List Int),
    n < fuel → Decodes h start (Left n) (acPoints h table type fuel j) (acLoop h table type fuel j dct)
      fun _ _ => True
  | 0, n, _, _, hfuel => by omega
  | fuel + 1, n, j, dct, hfuel => by
      rw [acLoop, acPoints]
      split
      · exact .pure fun _ _ => trivial
      · refine (nextSymbol_decodes ht type n).bind fun v => ?_
        by_cases hv : v = 0
        · subst hv
          exact .pure fun _ _ => trivial
        · refine .assume (fun s hs => hs.2.1 hv) fun hn => ?_
          have hstart : ∀ s : Scan σ, (Left (if v = 0 then n else n - 1) s ∧ (v ≠ 0 → 1 ≤ n) ∧
              table.Value v) → Left (n - 1) s := fun s hs => by simpa [hv] using hs.1
          refine Tracks.conseq (P := Left (n - 1)) ?_ hstart (fun _ _ hs => hs)
          dsimp only
          split
          · split
            · exact .pure fun _ _ => trivial
            · split
              · exact acLoop_decodes ht type _ _ (by omega)
              · exact acLoop_decodes ht type _ _ (by omega)
          · split
            · exact .pure fun _ _ => trivial
            · exact (nextMagnitude_decodes (by omega) (n - 1)).bind fun _ =>
                acLoop_decodes ht type _ _ (by omega)

theorem dcCoefficient_decodes (ht : table.Safe) (hsize : ∀ v, table.Value v → v ≤ 15)
    (component : Nat) :
    Decodes h start (fun _ => True) (dcPoints h table component) (dcCoefficient h table component)
      fun _ _ => True := by
  intro taken s hkept _
  refine Tracks.bind (nextSymbol_decodes ht (dcType component) s.reader.bits.length)
    (fun v => ?_) taken s hkept (Nat.le_refl _)
  refine .assume (fun s hs => hsize v hs.2.2) fun hv => ?_
  split
  · exact fun _ s hI _ => ⟨trivial, Or.inl ⟨_, s, rfl, hI, trivial⟩⟩
  · refine Tracks.conseq (P := Left s.reader.bits.length) (Q := fun _ _ => True) ?_
      (fun s' hs' => hs'.1.trans (Nat.sub_le ..)) fun _ _ _ => trivial
    exact (nextMagnitude_decodes (by omega) s.reader.bits.length).followed
      fun _ _ s hI _ => ⟨trivial, Or.inl ⟨_, _, rfl, hI, trivial⟩⟩

/-- Decoding a block. -/
theorem processHuffmanDataUnit_decodes {priv : JdecPrivate} {component : Nat}
    (hsafe : priv.Safe component) :
    Decodes h start (fun _ => True) (blockPoints h priv component)
      (processHuffmanDataUnit h priv component) fun _ _ => True := by
  obtain ⟨dcTable, hdcTable, hdc, hsize⟩ := hsafe.dcSafe
  obtain ⟨acTable, hacTable, hac⟩ := hsafe.acSafe
  have hderef : ∀ table : HuffmanTable, Decodes h start (fun _ => True) (fun _ => [])
      (deref (some table)) fun t _ => t = table :=
    fun _ _ s hI _ => ⟨trivial, Or.inl ⟨_, s, rfl, hI, rfl⟩⟩
  rw [processHuffmanDataUnit, blockPoints, hdcTable, hacTable]
  refine (hderef dcTable).bind fun table => .assume (fun _ hs => hs) fun htable => ?_
  subst htable
  refine ((dcCoefficient_decodes hdc hsize component).conseq (fun _ _ => trivial)
    fun _ _ hs => hs).bind fun dc => ?_
  refine (hderef acTable).bind fun table => .assume (fun _ hs => hs) fun htable => ?_
  subst htable
  exact fun taken s hI _ =>
    acLoop_decodes hac _ 1 _ s.reader.length_bits_lt_fuel taken s hI (Nat.le_refl _)

/-- Decoding a sequence of blocks. -/
theorem decodeMcu_decodes {priv : JdecPrivate} {components : List Nat}
    (hsafe : ∀ c ∈ components, priv.Safe c) :
    Decodes h start (fun _ => True) (decodePoints h priv components) (decodeMcu h priv components)
      fun _ _ => True := by
  induction components with
  | nil => exact fun _ s hI _ => ⟨hI.here.1, Or.inl ⟨_, s, rfl, hI.here.2 _ rfl, trivial⟩⟩
  | cons c cs ih =>
      refine (processHuffmanDataUnit_decodes (hsafe c (List.mem_cons_self ..))).bind fun _ => ?_
      exact Tracks.map (Q := fun _ _ => True) (ih fun c hc => hsafe c (List.mem_cons_of_mem _ hc))

/-! ## Tables -/

/-- The tables of a component: distinct symbols within the capacities of the tables, and no
DC symbol above fifteen. -/
structure JdecPrivate.Distinct (priv : JdecPrivate) (component : Nat) : Prop where
  /-- The DC table. -/
  dcTable : ∃ bits vals old table, ByteTable bits vals ∧
    buildHuffmanTable bits vals old = some table ∧ priv.dcTable component = some table ∧
    ∀ v ∈ vals, v ≤ 15
  /-- The AC table. -/
  acTable : ∃ bits vals old table, ByteTable bits vals ∧
    buildHuffmanTable bits vals old = some table ∧ priv.acTable component = some table

theorem JdecPrivate.Distinct.safe {priv : JdecPrivate} {component : Nat}
    (hc : priv.Distinct component) : priv.Safe component := by
  obtain ⟨dcBits, dcVals, dcOld, dcTable, hdc, hdcBuilt, hdcTable, hsize⟩ := hc.dcTable
  obtain ⟨acBits, acVals, acOld, acTable, hac, hacBuilt, hacTable⟩ := hc.acTable
  obtain ⟨hdcSafe, hvalue⟩ := hdc.safe hdcBuilt
  refine ⟨⟨dcTable, hdcTable, hdcSafe, fun v hv => ?_⟩, acTable, hacTable, (hac.safe hacBuilt).1⟩
  rcases hvalue v hv with rfl | hmem
  · exact Nat.zero_le _
  · exact hsize v hmem

/-- The tables of a component: prefix codes of distinct symbols within the capacities of
the tables, and no DC symbol above fifteen. -/
structure JdecPrivate.Conforming (priv : JdecPrivate) (component : Nat) : Prop where
  /-- The DC table. -/
  dcTable : ∃ bits vals old table, PrefixTable bits vals ∧
    buildHuffmanTable bits vals old = some table ∧ priv.dcTable component = some table ∧
    ∀ v ∈ vals, v ≤ 15
  /-- The AC table. -/
  acTable : ∃ bits vals old table, PrefixTable bits vals ∧
    buildHuffmanTable bits vals old = some table ∧ priv.acTable component = some table

theorem JdecPrivate.Conforming.distinct {priv : JdecPrivate} {component : Nat}
    (hc : priv.Conforming component) : priv.Distinct component where
  dcTable :=
    have ⟨bits, vals, old, table, hdc, hrest⟩ := hc.dcTable
    ⟨bits, vals, old, table, hdc.toByteTable, hrest⟩
  acTable :=
    have ⟨bits, vals, old, table, hac, hrest⟩ := hc.acTable
    ⟨bits, vals, old, table, hac.toByteTable, hrest⟩

/-- At every point of any sequence of blocks after a resync, in either pass, the
reservoir is in order, and with the bits consumed so far it makes up the data bytes in
front of the stream.  The blocks are decoded unless the input ends or the pass stops. -/
theorem reservoir_at_every_point (h : Hooks σ) {priv : JdecPrivate} {components : List Nat}
    (hc : ∀ c ∈ components, priv.Conforming c) (s : Scan σ) :
    (∀ before p after, decodePoints h priv components (resync priv s) = before ++ p :: after →
      p.Sound s.reader.stream (before.flatMap Point.taken)) ∧
    ∀ e s', (decodeMcu h priv components).run (resync priv s) = .error e s' →
      e = .eio ∨ h.Stops e := by
  have hdecodes : Decodes h s.reader.stream (fun _ => True) (decodePoints h priv components)
      (decodeMcu h priv components) fun _ _ => True :=
    decodeMcu_decodes fun c hmem => (hc c hmem).distinct.safe
  obtain ⟨hpts, hrun⟩ :=
    hdecodes [] (resync priv s) (Kept.initial s.reader.stream) trivial
  constructor
  · intro before p after heq
    rw [heq] at hpts
    rw [List.flatMap_eq_foldl]
    exact hpts.point
  · intro e s' he
    rcases hrun with ⟨a, s₁, hok, -⟩ | ⟨e₁, s₁, herr, hE⟩
    · rw [hok] at he
      cases he
    · rw [herr] at he
      obtain ⟨rfl, -⟩ := EStateM.Result.error.inj he
      exact hE

theorem smallImage_conforming (c : Nat) : smallImage.Conforming c where
  dcTable :=
    have ⟨old, hold⟩ := smallDc_fits.built
    ⟨_, _, old, _, smallDc_fits.prefixTable, hold, rfl, by decide⟩
  acTable :=
    have ⟨old, hold⟩ := smallAc_fits.built
    ⟨_, _, old, _, smallAc_fits.prefixTable, hold, rfl⟩

/-- The first pass over the one MCU of the small image. -/
theorem reservoir_at_every_point_small :
    (∀ before p after, decodePoints countHooks smallImage [0, 1, 2]
        (resync smallImage (Scan.start smallImage fun _ _ => 0)) = before ++ p :: after →
      p.Sound smallImage.stream (before.flatMap Point.taken)) ∧
    ∀ e s', (decodeMcu countHooks smallImage [0, 1, 2]).run
        (resync smallImage (Scan.start smallImage fun _ _ => 0)) = .error e s' →
      e = .eio ∨ countHooks.Stops e :=
  reservoir_at_every_point countHooks (fun c _ => smallImage_conforming c)
    (Scan.start smallImage fun _ _ => 0)

end

end Recode
