import JpegStorage.Lib.Run
import JpegStorage.Recode.BitReader

/-!
# Decoding one block

`process_Huffman_data_unit` and its copy for the second pass read a block in the
same way and differ in what they do with a symbol and a magnitude on the way.
They are one function with the difference as `Hooks`.

`processHuffmanDataUnit_coded` is the specification on a block of a coded scan:
the reader gives up exactly the bits of the block, the coefficients are the
usual ones, and the hooks run on the events of the block in order.
`processHuffmanDataUnit_safe` holds on any input, damaged ones included.
-/

namespace Recode

open Canonical Stuffing Baseline Run

/-! ## The decoder object -/

/-- `COMPONENTS`. -/
def componentCount : Nat := 3

/-- `HUFFMAN_TABLES`. -/
def huffmanTables : Nat := 4

/-- `struct component`, as far as the header fills it in. -/
structure Component where
  /-- `Hfactor`. -/
  hfactor : Nat
  /-- `Vfactor`. -/
  vfactor : Nat
  /-- `DC_table`, as an index of `HTDC`; `none` is the null pointer. -/
  dcTable : Option Nat
  /-- `AC_table`, as an index of `HTAC`. -/
  acTable : Option Nat
deriving DecidableEq, Repr

/-- `struct jdec_private`, as far as the header fills it in. -/
structure JdecPrivate where
  /-- The bytes from `stream_begin` to `stream_end`. -/
  buffer : List UInt8
  /-- `stream` after the header: the bytes from it to `stream_end`. -/
  stream : List UInt8
  /-- `width`. -/
  width : Nat
  /-- `height`. -/
  height : Nat
  /-- `component_infos`. -/
  componentInfos : Nat → Component
  /-- `HTDC`. -/
  htdc : Nat → HuffmanTable
  /-- `HTAC`. -/
  htac : Nat → HuffmanTable
  /-- `restart_interval`. -/
  restartInterval : Nat

/-- The table a component points to, if it points into the array. -/
def tableAt (tables : Nat → HuffmanTable) (index : Option Nat) : Option HuffmanTable :=
  match index with
  | none => none
  | some i => if i < huffmanTables then some (tables i) else none

/-- `*c->DC_table`. -/
def JdecPrivate.dcTable (priv : JdecPrivate) (component : Nat) : Option HuffmanTable :=
  tableAt priv.htdc (priv.componentInfos component).dcTable

/-- `*c->AC_table`. -/
def JdecPrivate.acTable (priv : JdecPrivate) (component : Nat) : Option HuffmanTable :=
  tableAt priv.htac (priv.componentInfos component).acTable

/-! ## Runs -/

/-- How a run can stop short. -/
inductive Stop where
  /-- `longjmp(priv->jump_state, -EIO)`. -/
  | eio
  /-- `exit`. -/
  | exit
  /-- Undefined behaviour. -/
  | undefined
  /-- A loop ran for longer than the model follows it. -/
  | stuck
deriving DecidableEq, Repr

/-- What decoding changes: the fields of `struct jdec_private` that are used
after the header, and whatever the pass keeps outside of it. -/
structure Scan (σ : Type) where
  /-- `stream`, `reservoir` and `nbits_in_reservoir`. -/
  reader : BitReader
  /-- `previous_DC` of the components. -/
  previousDC : Nat → Int
  /-- `restarts_to_go`. -/
  restartsToGo : Int
  /-- `last_rst_marker_seen`. -/
  lastRst : Nat
  /-- The state of the pass. -/
  out : σ

/-- What a pass does while it decodes. -/
structure Hooks (σ : Type) where
  /-- On a symbol of a table: 0 and 1 are DC0 and DC1, 2 and 3 are AC0 and AC1. -/
  symbol : Nat → Nat → EStateM Stop σ Unit
  /-- On a magnitude. -/
  magnitude : Int → EStateM Stop σ Unit
  /-- On the restart marker with this number. -/
  rst : Nat → EStateM Stop σ Unit

section
variable {σ : Type}

/-- A step of the bit reader.  Nothing looks at the reader after a `longjmp`. -/
def readBits {α : Type} (f : BitReader → Option (α × BitReader)) : EStateM Stop (Scan σ) α :=
  fun s =>
    match f s.reader with
    | none => .error .eio s
    | some (a, reader) => .ok a { s with reader := reader }

/-- A step of the pass. -/
def onOut (x : EStateM Stop σ Unit) : EStateM Stop (Scan σ) Unit := fun s =>
  match x s.out with
  | .ok _ out => .ok () { s with out := out }
  | .error e out => .error e { s with out := out }

/-- A dereferenced pointer. -/
def deref {α : Type} (x : Option α) : EStateM Stop (Scan σ) α := fun s =>
  match x with
  | none => .error .undefined s
  | some a => .ok a s

/-! ## Blocks -/

/-- The table of DC codes counted and written for a component. -/
def dcType (component : Nat) : Nat := if component = 0 then 0 else 1

/-- The table of AC codes counted and written for a component. -/
def acType (component : Nat) : Nat := if component = 0 then 2 else 3

/-- Decode a symbol and hand it to the pass. -/
def nextSymbol (h : Hooks σ) (table : HuffmanTable) (type : Nat) : EStateM Stop (Scan σ) Nat := do
  let huffCode ← readBits (getNextHuffmanCode table)
  onOut (h.symbol type huffCode)
  pure huffCode

/-- Read a magnitude of `n` bits and hand it to the pass.  Shifting an
`unsigned long` by 64 or more is undefined. -/
def nextMagnitude (h : Hooks σ) (n : Nat) : EStateM Stop (Scan σ) Int := do
  let value ← readBits (getNbits n)
  if 64 ≤ n then throw .undefined
  else do
    onOut (h.magnitude (magnitude n value))
    pure (magnitude n value)

/-- The loop over the AC coefficients.  `j` is an `unsigned char`. -/
def acLoop (h : Hooks σ) (table : HuffmanTable) (type : Nat) :
    Nat → Nat → List Int → EStateM Stop (Scan σ) (List Int)
  | 0, _, _ => throw .stuck
  | fuel + 1, j, dct =>
      if 64 ≤ j then pure dct
      else do
        let huffCode ← nextSymbol h table type
        let sizeVal := huffCode % 16
        let count0 := huffCode / 16
        if sizeVal = 0 then
          if count0 = 0 then pure dct
          else if count0 = 15 then acLoop h table type fuel ((j + 16) % 256) dct
          else acLoop h table type fuel j dct
        else
          let j := (j + count0) % 256
          -- bad data ends the block; the magnitude of the symbol stays unread
          if 64 ≤ j then pure dct
          else do
            let value ← nextMagnitude h sizeVal
            acLoop h table type fuel (j + 1) (dct.set j value)

/-- A bound on the rounds of `acLoop`: every round but the last takes a bit. -/
def BitReader.fuel (s : BitReader) : Nat := s.nbits + 8 * s.stream.length + 1

/-- The AC coefficients of a block. -/
def acCoefficients (h : Hooks σ) (table : HuffmanTable) (type : Nat) (dct : List Int) :
    EStateM Stop (Scan σ) (List Int) := fun s =>
  acLoop h table type s.reader.fuel 1 dct s

/-- `DCT[0] += c->previous_DC; c->previous_DC = DCT[0]`. -/
def addPreviousDC (component : Nat) (diff : Int) : EStateM Stop (Scan σ) Int := fun s =>
  let dct := int16 (diff + s.previousDC component)
  .ok dct { s with previousDC := Function.update s.previousDC component dct }

/-- `DCT[0] = c->previous_DC`. -/
def keepPreviousDC (component : Nat) : EStateM Stop (Scan σ) Int := fun s =>
  .ok (s.previousDC component) s

/-- The DC coefficient of a block. -/
def dcCoefficient (h : Hooks σ) (table : HuffmanTable) (component : Nat) :
    EStateM Stop (Scan σ) Int := do
  let huffCode ← nextSymbol h table (dcType component)
  if huffCode = 0 then keepPreviousDC component
  else do
    let diff ← nextMagnitude h huffCode
    addPreviousDC component diff

/-- `process_Huffman_data_unit` and `WriteNewData_process_Huffman_data_unit`.
The result is the block stored in `c->DCT`. -/
def processHuffmanDataUnit (h : Hooks σ) (priv : JdecPrivate) (component : Nat) :
    EStateM Stop (Scan σ) (List Int) := do
  let dcTable ← deref (priv.dcTable component)
  let dc ← dcCoefficient h dcTable component
  let acTable ← deref (priv.acTable component)
  acCoefficients h acTable (acType component) ((List.replicate 64 0).set 0 dc)

/-! ## Events -/

/-- What decoding a coded block shows to the pass. -/
inductive Event where
  /-- A symbol of a table. -/
  | symbol (type code : Nat)
  /-- A magnitude. -/
  | magnitude (value : Int)
deriving DecidableEq, Repr

/-- The hook of an event. -/
def Hooks.event (h : Hooks σ) : Event → EStateM Stop σ Unit
  | .symbol type code => h.symbol type code
  | .magnitude value => h.magnitude value

/-- The hooks of events in order. -/
def Hooks.events (h : Hooks σ) : List Event → EStateM Stop σ Unit
  | [] => pure ()
  | e :: es => do
      h.event e
      h.events es

/-- The events of a token of a table. -/
def tokenEvents (size : Nat → Nat) (type : Nat) (t : Token) : List Event :=
  .symbol type t.symbol :: (if size t.symbol = 0 then [] else [.magnitude (extend t.extra)])

/-- The events of a block of a component. -/
def blockEvents (component : Nat) (b : BlockCode) : List Event :=
  tokenEvents dcSize (dcType component) b.dc ++
    b.ac.flatMap (tokenEvents acSize (acType component))

theorem Hooks.events_cons_ok {h : Hooks σ} {e : Event} {es : List Event} {o o' : σ}
    (hrun : (h.events (e :: es)).run o = .ok () o') :
    ∃ o₁, (h.event e).run o = .ok () o₁ ∧ (h.events es).run o₁ = .ok () o' := by
  rw [Hooks.events] at hrun
  cases he : (h.event e).run o with
  | ok a o₁ =>
      rw [bind_ok he] at hrun
      exact ⟨o₁, rfl, hrun⟩
  | error e o₁ =>
      rw [bind_error he] at hrun
      cases hrun

theorem Hooks.events_append_ok {h : Hooks σ} : ∀ {es es' : List Event} {o o' : σ},
    (h.events (es ++ es')).run o = .ok () o' →
    ∃ o₁, (h.events es).run o = .ok () o₁ ∧ (h.events es').run o₁ = .ok () o'
  | [], _, o, _, hrun => ⟨o, rfl, hrun⟩
  | e :: es, _, _, _, hrun => by
      obtain ⟨o₁, he, hes⟩ := Hooks.events_cons_ok hrun
      obtain ⟨o₂, hes₁, hes₂⟩ := Hooks.events_append_ok hes
      exact ⟨o₂, by rw [Hooks.events, bind_ok he]; exact hes₁, hes₂⟩

/-! ## Coded blocks -/

theorem readBits_ok {α : Type} {f : BitReader → Option (α × BitReader)} {s : Scan σ} {a : α}
    {r : BitReader} (h : f s.reader = some (a, r)) :
    (readBits f).run s = .ok a { s with reader := r } := by
  rw [EStateM.run, readBits, h]

theorem readBits_error {α : Type} {f : BitReader → Option (α × BitReader)} {s : Scan σ}
    (h : f s.reader = none) : (readBits f).run s = .error .eio s := by
  rw [EStateM.run, readBits, h]

theorem onOut_ok {x : EStateM Stop σ Unit} {s : Scan σ} {o : σ} (h : x.run s.out = .ok () o) :
    (onOut x).run s = .ok () { s with out := o } := by
  rw [EStateM.run] at h
  rw [EStateM.run, onOut, h]

theorem onOut_error {x : EStateM Stop σ Unit} {s : Scan σ} {e : Stop} {o : σ}
    (h : x.run s.out = .error e o) : (onOut x).run s = .error e { s with out := o } := by
  rw [EStateM.run] at h
  rw [EStateM.run, onOut, h]

theorem deref_some {α : Type} (a : α) (s : Scan σ) : (deref (some a)).run s = .ok a s := rfl

theorem length_unstuff_le : ∀ l : List UInt8, (unstuff l).length ≤ l.length
  | [] => Nat.le_refl _
  | c :: rest => by
      have ih := length_unstuff_le (afterByte c rest)
      have _ := length_afterByte_le c rest
      rw [unstuff_cons, List.length_cons, List.length_cons]
      omega
termination_by l => l.length
decreasing_by
  have hle := length_afterByte_le c rest
  rw [List.length_cons]
  omega

theorem BitReader.length_bits_lt_fuel (s : BitReader) : s.bits.length < s.fuel := by
  have hle := length_unstuff_le s.stream
  simp only [BitReader.bits, BitReader.fuel, List.length_append, Bits.length_ofNat,
    Bits.length_ofBytes]
  omega

/-- Decoding the symbol of a coded token. -/
theorem nextSymbol_coded {h : Hooks σ} {table : HuffmanTable} {tbl : Table Nat}
    (hh : table.Holds tbl) {type v : Nat} {c rest : List Bool} (hc : (v, c) ∈ tbl) {s : Scan σ}
    {o : σ} (hok : s.reader.Ok) (hbits : s.reader.bits = c ++ rest) (hlen : 8 ≤ rest.length)
    (hout : (h.symbol type v).run s.out = .ok () o) :
    ∃ r, (nextSymbol h table type).run s = .ok v { s with reader := r, out := o } ∧
      Reads s.reader c.length r ∧ r.bits = rest := by
  have hpos := (hh.length hc).1
  have hav : huffmanHashNbits ≤ s.reader.bits.length := by
    rw [hbits, List.length_append, huffmanHashNbits]
    omega
  obtain ⟨r, hr, hreads⟩ := getNextHuffmanCode_spec hh hc hok ⟨rest, hbits.symm⟩ hav
  refine ⟨r, ?_, hreads, by rw [hreads.bits, hbits, List.drop_left]⟩
  rw [nextSymbol, bind_ok (readBits_ok hr), bind_ok (onOut_ok (s := { s with reader := r }) hout),
    pure_run]

/-- Reading the magnitude of a coded token. -/
theorem nextMagnitude_coded {h : Hooks σ} {extra rest : List Bool} {s : Scan σ} {o : σ}
    (hok : s.reader.Ok) (hbits : s.reader.bits = extra ++ rest) (h0 : extra ≠ [])
    (h15 : extra.length ≤ 15) (hout : (h.magnitude (extend extra)).run s.out = .ok () o) :
    ∃ r, (nextMagnitude h extra.length).run s =
        .ok (extend extra) { s with reader := r, out := o } ∧
      Reads s.reader extra.length r ∧ r.bits = rest := by
  have hav : extra.length ≤ s.reader.bits.length := by
    rw [hbits, List.length_append]
    omega
  obtain ⟨r, hr, hreads⟩ := getNbits_spec (by omega) hok hav
  rw [hbits, List.take_left] at hr
  refine ⟨r, ?_, hreads, by rw [hreads.bits, hbits, List.drop_left]⟩
  rw [nextMagnitude, bind_ok (readBits_ok hr), if_neg (by omega), magnitude_eq h0 h15,
    bind_ok (onOut_ok (s := { s with reader := r }) hout), pure_run]

/-- A round of the AC loop on a coded token. -/
theorem acLoop_token {h : Hooks σ} {table : HuffmanTable} {tbl : Table Nat}
    (hh : table.Holds tbl) (type : Nat) {fuel k k' : Nat} {s : Scan σ} {t : Token}
    {bits : List Bool} {o : σ} (dct : List Int) (hok : s.reader.Ok) (hk : k < 64)
    (ht : readToken acSize tbl s.reader.bits = some (t, bits))
    (hk' : acNext k t.symbol = some k') (hlen : 8 ≤ bits.length) (hfuel : 0 < fuel)
    (hev : (h.events (tokenEvents acSize type t)).run s.out = .ok () o) :
    ∃ r m, (acLoop h table type (fuel + 1) k dct).run s =
        (acLoop h table type fuel k'
          (if acSize t.symbol = 0 then dct
           else dct.set (k + acRun t.symbol) (extend t.extra))).run
          { s with reader := r, out := o } ∧
      Reads s.reader m r ∧ r.bits = bits := by
  obtain ⟨c, hc, hbits, hextra⟩ := readToken_sound ht
  rw [List.append_assoc] at hbits
  obtain ⟨o₁, hsym, hmag⟩ := Hooks.events_cons_ok hev
  obtain ⟨r₁, hr₁, hreads₁, hb₁⟩ := nextSymbol_coded hh hc hok hbits
    (by simp only [List.length_append]; omega) hsym
  have hmod : t.symbol % 16 = acSize t.symbol := rfl
  have hdiv : t.symbol / 16 = acRun t.symbol := rfl
  rw [acLoop, if_neg (Nat.not_le_of_lt hk), bind_ok hr₁]
  simp only [hmod, hdiv]
  by_cases hsize : acSize t.symbol = 0
  · rw [hsize, List.length_eq_zero_iff] at hextra
    rw [hextra, List.nil_append] at hb₁
    simp only [hsize, if_true, Hooks.events, pure_run, EStateM.Result.ok.injEq] at hmag
    obtain ⟨-, rfl⟩ := hmag
    rw [if_pos hsize, if_pos hsize]
    refine ⟨r₁, _, ?_, hreads₁, hb₁⟩
    rcases acNext_zero hsize hk' with ⟨hrun, rfl⟩ | ⟨hrun, rfl⟩
    · -- the end of the block: the loop would stop in the next round
      obtain ⟨fuel, rfl⟩ := Nat.exists_eq_succ_of_ne_zero hfuel.ne'
      rw [if_pos hrun, acLoop, if_pos (Nat.le_refl 64)]
    · rw [if_neg (by omega), if_pos hrun, Nat.mod_eq_of_lt (by omega)]
  · have hlen15 : t.extra.length ≤ 15 := by
      rw [hextra, acSize]
      omega
    have hne : t.extra ≠ [] := by
      intro h0
      rw [h0] at hextra
      exact hsize hextra.symm
    rw [if_neg hsize] at hmag
    obtain ⟨o₂, hmag₁, hmag₂⟩ := Hooks.events_cons_ok hmag
    simp only [Hooks.events, pure_run, EStateM.Result.ok.injEq] at hmag₂
    obtain ⟨-, rfl⟩ := hmag₂
    obtain ⟨hin, rfl⟩ := acNext_coefficient hsize hk'
    obtain ⟨r₂, hr₂, hreads₂, hb₂⟩ := nextMagnitude_coded
      (s := { s with reader := r₁, out := o₁ }) hreads₁.ok hb₁ hne hlen15 hmag₁
    rw [hextra] at hr₂
    rw [if_neg hsize, if_neg hsize, Nat.mod_eq_of_lt (by omega), if_neg (by omega), bind_ok hr₂]
    exact ⟨r₂, _, rfl, hreads₁.trans hreads₂, hb₂⟩

/-- The AC loop on coded tokens. -/
theorem acLoop_coded {h : Hooks σ} {table : HuffmanTable} {tbl : Table Nat}
    (hh : table.Holds tbl) (type : Nat) : ∀ {n fuel k : Nat} {s : Scan σ} {ts : List Token}
      {rest : List Bool} {o : σ} (dct : List Int), s.reader.Ok →
      readAC tbl n k s.reader.bits = some (ts, rest) → 8 ≤ rest.length →
      s.reader.bits.length < fuel →
      (h.events (ts.flatMap (tokenEvents acSize type))).run s.out = .ok () o →
      ∃ r m, (acLoop h table type fuel k dct).run s =
          .ok (acCoeffs k dct ts) { s with reader := r, out := o } ∧
        Reads s.reader m r ∧ r.bits = rest
  | 0, _, _, _, _, _, _, _, _, hread, _, _, _ => by simp [readAC] at hread
  | n + 1, 0, _, _, _, _, _, _, _, _, _, hfuel, _ => by simp at hfuel
  | n + 1, fuel + 1, k, s, ts, rest, o, dct, hok, hread, hlen, hfuel, hev => by
      rcases readAC_succ_iff.mp hread with
        ⟨hk, rfl, rfl⟩ | ⟨hk, t, bits, k', ts₁, ht, hk', hts, rfl⟩
      · simp only [List.flatMap_nil, Hooks.events, pure_run, EStateM.Result.ok.injEq] at hev
        rw [acLoop, if_pos hk, ← hev.2]
        exact ⟨s.reader, 0, rfl, .refl hok, rfl⟩
      · obtain ⟨c, hc, hbits, _⟩ := readToken_sound ht
        have hpos := (hh.length hc).1
        have hle := readAC_length_le hts
        have hfuel₁ : bits.length < fuel := by
          rw [hbits] at hfuel
          simp only [List.length_append] at hfuel
          omega
        rw [List.flatMap_cons] at hev
        obtain ⟨o₁, hev₁, hev₂⟩ := Hooks.events_append_ok hev
        obtain ⟨r₁, m₁, hrun₁, hreads₁, rfl⟩ := acLoop_token hh type dct hok hk ht hk'
          (hlen.trans hle) (Nat.zero_lt_of_lt hfuel₁) hev₁
        obtain ⟨r, m, hrun, hreads, hb⟩ := acLoop_coded hh type
          (s := { s with reader := r₁, out := o₁ }) _ hreads₁.ok hts hlen hfuel₁ hev₂
        rw [acCoeffs, hk', Option.getD_some, hrun₁, hrun]
        exact ⟨r, _, rfl, hreads₁.trans hreads, hb⟩

/-- The DC coefficient of a coded block. -/
theorem dcCoefficient_coded {h : Hooks σ} {table : HuffmanTable} {tbl : Table Nat}
    (hh : table.Holds tbl) (hsize : ∀ v c, (v, c) ∈ tbl → v ≤ 15) {component : Nat} {s : Scan σ}
    {b : BlockCode} {bits₁ : List Bool} {o : σ} (hok : s.reader.Ok)
    (hpred : int16 (s.previousDC component) = s.previousDC component)
    (hread : readToken dcSize tbl s.reader.bits = some (b.dc, bits₁)) (hlen : 8 ≤ bits₁.length)
    (hev : (h.events (tokenEvents dcSize (dcType component) b.dc)).run s.out = .ok () o) :
    ∃ r m, (dcCoefficient h table component).run s =
        .ok (int16 (s.previousDC component + b.diff))
          { s with reader := r, previousDC := nextPred s.previousDC component b, out := o } ∧
      Reads s.reader m r ∧ r.bits = bits₁ := by
  obtain ⟨c, hc, hbits, hextra⟩ := readToken_sound hread
  rw [List.append_assoc] at hbits
  obtain ⟨o₂, hsym, hmag⟩ := Hooks.events_cons_ok hev
  obtain ⟨r₁, hr₁, hreads₁, hb₁⟩ := nextSymbol_coded hh hc hok hbits
    (by simp only [List.length_append]; omega) hsym
  have h15 := hsize _ _ hc
  rw [dcCoefficient, bind_ok hr₁, nextPred, BlockCode.diff]
  rw [dcSize] at hextra hmag
  by_cases h0 : b.dc.symbol = 0
  · rw [h0, List.length_eq_zero_iff] at hextra
    rw [hextra, List.nil_append] at hb₁
    simp only [h0, if_true, Hooks.events, pure_run, EStateM.Result.ok.injEq] at hmag
    obtain ⟨-, rfl⟩ := hmag
    rw [if_pos h0, if_pos h0, Int.add_zero, hpred, Function.update_eq_self]
    exact ⟨r₁, _, rfl, hreads₁, hb₁⟩
  · have hne : b.dc.extra ≠ [] := by
      intro hnil
      rw [hnil] at hextra
      exact h0 hextra.symm
    rw [if_neg h0] at hmag
    obtain ⟨o₃, hmag₁, hmag₂⟩ := Hooks.events_cons_ok hmag
    simp only [Hooks.events, pure_run, EStateM.Result.ok.injEq] at hmag₂
    obtain ⟨-, rfl⟩ := hmag₂
    obtain ⟨r₂, hr₂, hreads₂, hb₂⟩ := nextMagnitude_coded
      (s := { s with reader := r₁, out := o₂ }) hreads₁.ok hb₁ hne (hextra ▸ h15) hmag₁
    rw [hextra] at hr₂
    rw [if_neg h0, if_neg h0, bind_ok hr₂, Int.add_comm (s.previousDC component)]
    exact ⟨r₂, _, rfl, hreads₁.trans hreads₂, hb₂⟩

/-- What a component needs to decode coded blocks: its tables answer for the
codes, and no DC magnitude is longer than fifteen bits. -/
structure JdecPrivate.Codes (priv : JdecPrivate) (component : Nat) (dc ac : Table Nat) : Prop where
  /-- The DC table. -/
  dcHolds : ∃ table, priv.dcTable component = some table ∧ table.Holds dc
  /-- The AC table. -/
  acHolds : ∃ table, priv.acTable component = some table ∧ table.Holds ac
  /-- The DC symbols. -/
  size : ∀ v c, (v, c) ∈ dc → v ≤ 15

/-- Decoding a coded block. -/
theorem processHuffmanDataUnit_coded {h : Hooks σ} {priv : JdecPrivate} {component : Nat}
    {dc ac : Table Nat} (hcodes : priv.Codes component dc ac) {s : Scan σ} {b : BlockCode}
    {rest : List Bool} {o : σ} (hok : s.reader.Ok)
    (hpred : int16 (s.previousDC component) = s.previousDC component)
    (hread : readBlock dc ac s.reader.bits = some (b, rest)) (hlen : 8 ≤ rest.length)
    (hev : (h.events (blockEvents component b)).run s.out = .ok () o) :
    ∃ r m, (processHuffmanDataUnit h priv component).run s =
        .ok (b.coeffs (s.previousDC component))
          { s with reader := r, previousDC := nextPred s.previousDC component b, out := o } ∧
      Reads s.reader m r ∧ r.bits = rest := by
  obtain ⟨dcTable, hdcTable, hdc⟩ := hcodes.dcHolds
  obtain ⟨acTable, hacTable, hac⟩ := hcodes.acHolds
  obtain ⟨bits₁, ht, hts⟩ := readBlock_iff.mp hread
  obtain ⟨o₁, hev₁, hev₂⟩ := Hooks.events_append_ok hev
  have hle := readAC_length_le hts
  obtain ⟨r₁, m₁, hr₁, hreads₁, rfl⟩ :=
    dcCoefficient_coded hdc hcodes.size hok hpred ht (hlen.trans hle) hev₁
  obtain ⟨r₂, m₂, hr₂, hreads₂, hb₂⟩ := acLoop_coded hac (acType component)
    (s := { s with reader := r₁, previousDC := nextPred s.previousDC component b, out := o₁ })
    ((List.replicate 64 0).set 0 (int16 (s.previousDC component + b.diff)))
    hreads₁.ok hts hlen r₁.length_bits_lt_fuel hev₂
  refine ⟨r₂, _, ?_, hreads₁.trans hreads₂, hb₂⟩
  rw [processHuffmanDataUnit, hdcTable, bind_ok (deref_some _ _), bind_ok hr₁, hacTable,
    bind_ok (deref_some _ _)]
  exact hr₂

/-! ## Any input -/

/-- A pass that never stops decoding and keeps `I`. -/
structure Hooks.Keep (h : Hooks σ) (I : σ → Prop) : Prop where
  /-- On symbols. -/
  symbol : ∀ type code o, I o → ∃ o', (h.symbol type code).run o = .ok () o' ∧ I o'
  /-- On magnitudes. -/
  magnitude : ∀ value o, I o → ∃ o', (h.magnitude value).run o = .ok () o' ∧ I o'

/-- What is known where decoding goes on: the reader is in order, no more than
`n` bits are left, `k` MCUs are to go, and the pass keeps `I`. -/
structure Going (I : σ → Prop) (k : Int) (n : Nat) (s : Scan σ) : Prop where
  /-- The reader. -/
  ok : s.reader.Ok
  /-- The bits left. -/
  le : s.reader.bits.length ≤ n
  /-- The MCUs to go in the interval. -/
  toGo : s.restartsToGo = k
  /-- The pass. -/
  out : I s.out

/-- What is known where it stops: the input has ended. -/
def Ended (I : σ → Prop) (e : Stop) (s : Scan σ) : Prop := e = .eio ∧ I s.out

theorem Going.mono {I : σ → Prop} {k : Int} {m n : Nat} {s : Scan σ} (h : Going I k m s)
    (hle : m ≤ n) : Going I k n s := ⟨h.ok, h.le.trans hle, h.toGo, h.out⟩

section
variable {k : Int}

theorem nextSymbol_safe {h : Hooks σ} {I : σ → Prop} (hI : h.Keep I) {table : HuffmanTable}
    (ht : table.Safe) (type n : Nat) :
    Triple (Going I k n) (nextSymbol h table type)
      (fun v s => Going I k (if v = 0 then n else n - 1) s ∧ (v ≠ 0 → 1 ≤ n) ∧ table.Value v)
      (Ended I) := by
  rintro s ⟨hok, hle, hto, hs⟩
  cases hr : getNextHuffmanCode table s.reader with
  | none =>
      exact Or.inr ⟨.eio, s, by rw [nextSymbol, bind_error (readBits_error hr)], rfl, hs⟩
  | some p =>
      obtain ⟨v, r⟩ := p
      obtain ⟨m, hreads, hm, hv⟩ := getNextHuffmanCode_safe ht hok hr
      obtain ⟨o, ho, hIo⟩ := hI.symbol type v s.out hs
      have hlen : r.bits.length + m = s.reader.bits.length := by
        have hmle := hreads.le
        rw [hreads.bits, List.length_drop]
        omega
      refine Or.inl ⟨v, { s with reader := r, out := o }, ?_, ⟨hreads.ok, ?_, hto, hIo⟩, ?_, hv⟩
      · rw [nextSymbol, bind_ok (readBits_ok hr),
          bind_ok (onOut_ok (s := { s with reader := r }) ho), pure_run]
      · change r.bits.length ≤ _
        split
        · omega
        next hne =>
          have := hm hne
          omega
      · intro hne
        have := hm hne
        omega

theorem nextMagnitude_safe {h : Hooks σ} {I : σ → Prop} (hI : h.Keep I) {m : Nat} (hm : m ≤ 16)
    (n : Nat) : Triple (Going I k n) (nextMagnitude h m) (fun _ s => Going I k n s) (Ended I) := by
  rintro s ⟨hok, hle, hto, hs⟩
  cases hr : getNbits m s.reader with
  | none =>
      exact Or.inr ⟨.eio, s, by rw [nextMagnitude, bind_error (readBits_error hr)], rfl, hs⟩
  | some p =>
      obtain ⟨value, r⟩ := p
      have hreads := getNbits_safe hm hok hr
      obtain ⟨o, ho, hIo⟩ := hI.magnitude (magnitude m value) s.out hs
      refine Or.inl ⟨magnitude m value, { s with reader := r, out := o }, ?_, hreads.ok, ?_, hto,
        hIo⟩
      · rw [nextMagnitude, bind_ok (readBits_ok hr), if_neg (by omega),
          bind_ok (onOut_ok (s := { s with reader := r }) ho), pure_run]
      · change r.bits.length ≤ _
        rw [hreads.bits, List.length_drop]
        omega

/-- The AC loop ends on any input: a round that goes on takes a bit. -/
theorem acLoop_safe {h : Hooks σ} {I : σ → Prop} (hI : h.Keep I) {table : HuffmanTable}
    (ht : table.Safe) (type : Nat) : ∀ {fuel n : Nat} (j : Nat) (dct : List Int), n < fuel →
      Triple (Going I k n) (acLoop h table type fuel j dct) (fun _ s => Going I k n s) (Ended I)
  | 0, n, _, _, hfuel => by omega
  | fuel + 1, n, j, dct, hfuel => by
      rw [acLoop]
      split
      · exact .pure fun _ hs => hs
      · refine (nextSymbol_safe hI ht type n).bind fun v => ?_
        by_cases hv : v = 0
        · subst hv
          exact .pure fun s hs => hs.1
        · refine .assume (fun s hs => hs.2.1 hv) fun hn => ?_
          have hrest : ∀ j dct, Triple (Going I k (n - 1)) (acLoop h table type fuel j dct)
              (fun _ s => Going I k n s) (Ended I) := fun j dct =>
            (acLoop_safe hI ht type j dct (by omega)).conseq (fun _ hs => hs)
              (fun _ _ hs => hs.mono (by omega)) (fun _ _ he => he)
          have hstart : ∀ s, (Going I k (if v = 0 then n else n - 1) s ∧ (v ≠ 0 → 1 ≤ n) ∧
              table.Value v) → Going I k (n - 1) s := fun s hs => by simpa [hv] using hs.1
          refine Triple.conseq (P := Going I k (n - 1)) ?_ hstart (fun _ _ hs => hs)
            (fun _ _ he => he)
          dsimp only
          split
          · split
            · exact .pure fun s hs => hs.mono (by omega)
            · split
              · exact hrest _ _
              · exact hrest _ _
          · split
            · exact .pure fun s hs => hs.mono (by omega)
            · exact (nextMagnitude_safe hI (by omega) (n - 1)).bind fun _ => hrest _ _

theorem acCoefficients_safe {h : Hooks σ} {I : σ → Prop} (hI : h.Keep I) {table : HuffmanTable}
    (ht : table.Safe) (type n : Nat) (dct : List Int) :
    Triple (Going I k n) (acCoefficients h table type dct) (fun _ s => Going I k n s) (Ended I) := by
  intro s hs
  have hrun := acLoop_safe hI ht type 1 dct s.reader.length_bits_lt_fuel s
    ⟨hs.ok, Nat.le_refl _, hs.toGo, hs.out⟩
  rcases hrun with ⟨a, s', hr, hg⟩ | he
  · exact Or.inl ⟨a, s', hr, hg.mono hs.le⟩
  · exact Or.inr he

theorem dcCoefficient_safe {h : Hooks σ} {I : σ → Prop} (hI : h.Keep I) {table : HuffmanTable}
    (ht : table.Safe) (hsize : ∀ v, table.Value v → v ≤ 15) (component n : Nat) :
    Triple (Going I k n) (dcCoefficient h table component) (fun _ s => Going I k n s) (Ended I) := by
  refine (nextSymbol_safe hI ht (dcType component) n).bind fun v => ?_
  refine .assume (fun s hs => hsize v hs.2.2) fun hv => ?_
  have hstart : ∀ s, (Going I k (if v = 0 then n else n - 1) s ∧ (v ≠ 0 → 1 ≤ n) ∧
      table.Value v) → Going I k n s := fun s hs => hs.1.mono (by split <;> omega)
  refine Triple.conseq (P := Going I k n) ?_ hstart (fun _ _ hs => hs) (fun _ _ he => he)
  split
  · exact fun s hs => Or.inl ⟨_, s, rfl, hs⟩
  · refine (nextMagnitude_safe hI (by omega) n).bind fun diff => ?_
    exact fun s hs => Or.inl ⟨_, _, rfl, hs.ok, hs.le, hs.toGo, hs.out⟩

/-- What a component needs to decode anything: its tables are safe, and no DC
symbol is above fifteen. -/
structure JdecPrivate.Safe (priv : JdecPrivate) (component : Nat) : Prop where
  /-- The DC table. -/
  dcSafe : ∃ table, priv.dcTable component = some table ∧ table.Safe ∧
    ∀ v, table.Value v → v ≤ 15
  /-- The AC table. -/
  acSafe : ∃ table, priv.acTable component = some table ∧ table.Safe

/-- Decoding a block of any input ends, with a block or at the end of the input. -/
theorem processHuffmanDataUnit_safe {h : Hooks σ} {I : σ → Prop} (hI : h.Keep I)
    {priv : JdecPrivate} {component : Nat} (hsafe : priv.Safe component) (n : Nat) :
    Triple (Going I k n) (processHuffmanDataUnit h priv component) (fun _ s => Going I k n s)
      (Ended I) := by
  obtain ⟨dcTable, hdcTable, hdc, hsize⟩ := hsafe.dcSafe
  obtain ⟨acTable, hacTable, hac⟩ := hsafe.acSafe
  rw [processHuffmanDataUnit, hdcTable, hacTable]
  refine Triple.bind (R := fun table s => table = dcTable ∧ Going I k n s)
    (fun s hs => Or.inl ⟨_, _, rfl, rfl, hs⟩) fun table => ?_
  refine .assume (fun s hs => hs.1) fun htable => ?_
  subst htable
  refine Triple.bind (R := fun _ s => Going I k n s)
    ((dcCoefficient_safe hI hdc hsize component n).conseq (fun _ hs => hs.2) (fun _ _ hs => hs)
      (fun _ _ he => he)) fun dc => ?_
  refine Triple.bind (R := fun table s => table = acTable ∧ Going I k n s)
    (fun s hs => Or.inl ⟨_, _, rfl, rfl, hs⟩) fun table => ?_
  refine .assume (fun s hs => hs.1) fun htable => ?_
  subst htable
  exact (acCoefficients_safe hI hac _ n _).conseq (fun _ hs => hs.2) (fun _ _ hs => hs)
    (fun _ _ he => he)

end

end

end Recode
