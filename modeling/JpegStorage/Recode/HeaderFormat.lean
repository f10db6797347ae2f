import JpegStorage.Recode.HeaderCopy
import JpegStorage.Recode.TableRecord

/-!
# The format of a header

`ImageHeader` is what a header says, segment by segment and in any order: restart
intervals, frame headers, tables, and segments that the parser skips.  `file` writes it
down with its fill bytes, and `header_read` is the way back.  The parser gets through
exactly when the lists of components and the tables stay inside of its arrays, each table
has one of the four types, and the record of the tables has room for their codes.  What
it has read then is the latest of each thing the header says (`ReadAs`).

The headers described here are closed: every segment is as long as its length says.
-/

namespace Recode

open Segments

/-! ## What a header says -/

/-- A component of a frame header. -/
structure FrameComponent where
  /-- `cid`. -/
  cid : UInt8
  /-- The horizontal factor in the high half, and the vertical one. -/
  samplingFactor : UInt8
  /-- `Q_table`. -/
  qTable : UInt8

/-- A frame header. -/
structure FrameHeader where
  /-- The bits of a sample, which the parser skips. -/
  precision : UInt8
  /-- `height`. -/
  height : Nat
  /-- `width`. -/
  width : Nat
  /-- The components. -/
  components : List FrameComponent
  /-- The height has two bytes. -/
  height_lt : height < 2 ^ 16
  /-- The width has two bytes. -/
  width_lt : width < 2 ^ 16
  /-- The number of components is a byte. -/
  components_lt : components.length < 256

/-- What a segment in front of the scan says. -/
inductive HeaderItem where
  | interval (n : Nat) (lt : n < 2 ^ 16)
  | frame (f : FrameHeader)
  | tables (ts : List (UInt8 × DhtTable))
  | other (marker : UInt8) (payload : List UInt8) (ne : marker ≠ 0xff)
      (skipped : marker ∉ [StdMarkers.dri, StdMarkers.sof, StdMarkers.dht, StdMarkers.sos])

/-- A scan header. -/
structure ScanHeader where
  /-- The identifiers and the numbers of the tables. -/
  components : List (UInt8 × UInt8)
  /-- The spectral selection and the approximation, which the parser skips. -/
  selection : UInt8 × UInt8 × UInt8
  /-- The number of components is a byte. -/
  components_lt : components.length < 256

/-! ## How it is written -/

/-- The counts and the values of a table. -/
def DhtTable.bytes (c : DhtTable) : List UInt8 := (c.bits ++ c.vals).map UInt8.ofNat

/-- The three bytes of a component. -/
def FrameComponent.bytes (c : FrameComponent) : List UInt8 := [c.cid, c.samplingFactor, c.qTable]

namespace HeaderItem

/-- The marker of the segment. -/
def marker : HeaderItem → UInt8
  | .interval .. => StdMarkers.dri
  | .frame _ => StdMarkers.sof
  | .tables _ => StdMarkers.dht
  | .other marker .. => marker

/-- The payload of the segment. -/
def payload : HeaderItem → List UInt8
  | .interval n _ => be16Bytes n
  | .frame f =>
      f.precision :: (be16Bytes f.height ++ (be16Bytes f.width ++
        UInt8.ofNat f.components.length ::
          f.components.flatMap FrameComponent.bytes))
  | .tables ts => ts.flatMap fun t => t.1 :: t.2.bytes
  | .other _ payload .. => payload

/-- The tables of the segment. -/
def tablesOf : HeaderItem → List (UInt8 × DhtTable)
  | .tables ts => ts
  | _ => []

theorem marker_ne (item : HeaderItem) : item.marker ≠ 0xff := by
  cases item with
  | interval => exact (by decide : StdMarkers.dri ≠ 0xff)
  | frame => exact (by decide : StdMarkers.sof ≠ 0xff)
  | tables => exact (by decide : StdMarkers.dht ≠ 0xff)
  | other m payload ne skipped => exact ne

theorem marker_ne_sos (item : HeaderItem) : item.marker ≠ StdMarkers.sos := by
  cases item with
  | interval => exact (by decide : StdMarkers.dri ≠ StdMarkers.sos)
  | frame => exact (by decide : StdMarkers.sof ≠ StdMarkers.sos)
  | tables => exact (by decide : StdMarkers.dht ≠ StdMarkers.sos)
  | other m payload ne skipped =>
      intro h
      refine skipped ?_
      rw [show m = StdMarkers.sos from h]
      decide

end HeaderItem

/-- A segment with the fill bytes in front of it. -/
structure HeaderPiece where
  /-- The number of fill bytes. -/
  fill : Nat
  /-- What the segment says. -/
  item : HeaderItem
  /-- The length has two bytes. -/
  fits : item.payload.length + 2 < 2 ^ 16

/-- The segment. -/
def HeaderPiece.segment (p : HeaderPiece) : Segment :=
  ⟨p.item.marker, p.item.payload, p.item.marker_ne, p.fits⟩

/-- The scan header behind its marker. -/
def ScanHeader.bytes (s : ScanHeader) : List UInt8 :=
  be16Bytes (6 + 2 * s.components.length) ++ UInt8.ofNat s.components.length ::
    (s.components.flatMap (fun c => [c.1, c.2]) ++
      [s.selection.1, s.selection.2.1, s.selection.2.2])

/-- A header up to the scan. -/
structure ImageHeader where
  /-- The segments in front of the scan header. -/
  pieces : List HeaderPiece
  /-- The number of fill bytes in front of the scan header. -/
  fill : Nat
  /-- The scan header. -/
  scan : ScanHeader

namespace ImageHeader

/-- What the segments say. -/
def items (h : ImageHeader) : List HeaderItem := h.pieces.map HeaderPiece.item

/-- The tables with their indices. -/
def tables (h : ImageHeader) : List (UInt8 × DhtTable) := h.items.flatMap HeaderItem.tablesOf

/-- A file with this header in front of its scan. -/
def file (h : ImageHeader) (data : List UInt8) : List UInt8 :=
  0xff :: StdMarkers.soi :: spell (h.pieces.map fun p => (p.fill, p.segment))
    (Segments.fill (h.fill + 1) ++ StdMarkers.sos :: (h.scan.bytes ++ data))

end ImageHeader

/-! ## What it means -/

section
variable {α β : Type}

/-- The latest thing of a kind that a list says. -/
def latest (kind : α → Option β) : List α → Option β
  | [] => none
  | a :: as => (latest kind as).or (kind a)

theorem latest_append (kind : α → Option β) (as as' : List α) :
    latest kind (as ++ as') = (latest kind as').or (latest kind as) := by
  induction as with
  | nil => exact (Option.or_none).symm
  | cons a as ih => rw [List.cons_append, latest, latest, ih, Option.or_assoc]

end

/-- The index of a table names this slot. -/
def Names (index : UInt8) (ac : Bool) (id : Nat) : Prop :=
  (index &&& 0xf0 ≠ 0 ↔ ac = true) ∧ (index &&& 0xf).toNat = id

instance (index : UInt8) (ac : Bool) (id : Nat) : Decidable (Names index ac id) :=
  inferInstanceAs (Decidable (_ ∧ _))

namespace HeaderItem

/-- A restart interval. -/
def intervalOf : HeaderItem → Option Nat
  | .interval n _ => some n
  | _ => none

/-- A frame header. -/
def frameOf : HeaderItem → Option FrameHeader
  | .frame f => some f
  | _ => none

/-- The sampling factors of a component. -/
def factorsOf (c : Nat) (item : HeaderItem) : Option (Nat × Nat) :=
  item.frameOf.bind fun f => f.components[c]?.map fun i =>
    (i.samplingFactor.toNat >>> 4, i.samplingFactor.toNat &&& 0xf)

/-- The last table of the segment for a slot. -/
def tableOf (ac : Bool) (id : Nat) : HeaderItem → Option DhtTable
  | .tables ts => latest (fun t => if Names t.1 ac id then some t.2 else none) ts
  | _ => none

end HeaderItem

/-- `HTAC` or `HTDC`. -/
def JdecPrivate.slot (priv : JdecPrivate) (ac : Bool) (id : Nat) : HuffmanTable :=
  if ac then priv.htac id else priv.htdc id

/-- A table in memory behind the latest definition, when there is one. -/
def TableRead : Option DhtTable → HuffmanTable → HuffmanTable → Prop
  | none, old, new => new = old
  | some c, _, new => ∃ old, buildHuffmanTable c.bits c.vals old = some new

/-- What a decoder has read of a file with this header. -/
structure ImageHeader.ReadAs (h : ImageHeader) (data : List UInt8) (priv : JdecPrivate) : Prop where
  /-- `restart_interval`. -/
  restartInterval : priv.restartInterval = (latest HeaderItem.intervalOf h.items).getD 0
  /-- `width`. -/
  width : priv.width = ((latest HeaderItem.frameOf h.items).map FrameHeader.width).getD 0
  /-- `height`. -/
  height : priv.height = ((latest HeaderItem.frameOf h.items).map FrameHeader.height).getD 0
  /-- `Hfactor` and `Vfactor`. -/
  factors : ∀ c, ((priv.componentInfos c).hfactor, (priv.componentInfos c).vfactor) =
    (latest (HeaderItem.factorsOf c) h.items).getD (0, 0)
  /-- `AC_table`, by the place in the scan header. -/
  acTable : ∀ c, (priv.componentInfos c).acTable =
    h.scan.components[c]?.map fun p => p.2.toNat &&& 0xf
  /-- `DC_table`. -/
  dcTable : ∀ c, (priv.componentInfos c).dcTable =
    h.scan.components[c]?.map fun p => p.2.toNat >>> 4
  /-- The tables. -/
  slot : ∀ ac id, TableRead (latest (HeaderItem.tableOf ac id) h.items) .zero (priv.slot ac id)
  /-- The scan. -/
  stream : priv.stream = data
  /-- `stream_begin`. -/
  buffer : priv.buffer = (h.file data).drop 2

/-! ## What fits the arrays -/

/-- Building the table stays inside of the arrays. -/
structure DhtTable.InArrays (c : DhtTable) : Prop where
  /-- There are no more codes than the arrays of the codes hold. -/
  count : c.bits.sum ≤ huffmanBitsSize
  /-- Codes of up to nine bits fit their size. -/
  placed : ∀ e ∈ c.entries, e.Placed
  /-- A longer code comes behind at most 126 pairs of its row. -/
  room : ∀ pre e post, c.entries = pre ++ e :: post → 9 < e.codeSize →
    (slowRow pre (e.codeSize - 10)).length ≤ 126

/-- What a segment says fits the arrays. -/
def HeaderItem.InArrays : HeaderItem → Prop
  | .frame f => f.components.length ≤ componentCount
  | .tables ts => ∀ t ∈ ts, (t.1 &&& 0xf).toNat < huffmanTables ∧ t.2.InArrays
  | _ => True

/-- A header that fits the arrays of the parser, and the record of the image `workon`. -/
structure ImageHeader.InArrays (h : ImageHeader) (workon : Nat) (r : DirRecord) : Prop where
  /-- The segments. -/
  items : ∀ item ∈ h.items, item.InArrays
  /-- The components of the scan. -/
  scan : h.scan.components.length ≤ componentCount
  /-- The `type` of each table is initialised. -/
  typed : ∀ t ∈ h.tables, (tableType t.1).isSome
  /-- `huff_table` has room for the codes of each type. -/
  huffTable : ∀ type,
    r.num workon type + typeCount (h.tables.map tableCount) type ≤ huffTableCapacity
  /-- `dir_huff` has a place for the image, when there are codes of a type. -/
  dirHuff : ∀ type, 0 < typeCount (h.tables.map tableCount) type → workon < dirHuffCapacity

/-! ## Lists of components -/

section
variable {α : Type}

/-- Both loops over components change one component after another. -/
def updateFrom (change : α → Component → Component) :
    Nat → List α → (Nat → Component) → Nat → Component
  | _, [], infos => infos
  | i, a :: as, infos =>
      updateFrom change (i + 1) as (Function.update infos i (change a (infos i)))

theorem updateFrom_apply (change : α → Component → Component) (as : List α) (c : Nat) :
    ∀ (i : Nat) (infos : Nat → Component), updateFrom change i as infos c =
      if c < i then infos c else (as[c - i]?.map fun a => change a (infos c)).getD (infos c) := by
  induction as with
  | nil => intro i infos; simp [updateFrom]
  | cons a as ih =>
      intro i infos
      rw [updateFrom, ih]
      rcases Nat.lt_trichotomy c i with hlt | rfl | hlt
      · rw [if_pos (by omega), if_pos hlt, Function.update_of_ne (by omega)]
      · rw [if_pos (by omega), if_neg (Nat.lt_irrefl _), Function.update_self, Nat.sub_self]
        rfl
      · rw [if_neg (by omega), if_neg (by omega), Function.update_of_ne (by omega),
          show c - i = c - (i + 1) + 1 by omega, List.getElem?_cons_succ]

end

/-- What a frame header says of a component. -/
def FrameComponent.change (f : FrameComponent) (c : Component) : Component :=
  { c with vfactor := f.samplingFactor.toNat &&& 0xf, hfactor := f.samplingFactor.toNat >>> 4 }

/-- What a scan header says of a component. -/
def selectTables (p : UInt8 × UInt8) (c : Component) : Component :=
  { c with acTable := some (p.2.toNat &&& 0xf), dcTable := some (p.2.toNat >>> 4) }

theorem sofComponents_eq (cs : List FrameComponent) (rest : List UInt8) :
    ∀ (i : Nat) (infos : Nat → Component), i ≤ componentCount →
      sofComponents cs.length i infos
          (cs.flatMap FrameComponent.bytes ++ rest) =
        if i + cs.length ≤ componentCount then some (updateFrom FrameComponent.change i cs infos)
        else none := by
  induction cs with
  | nil =>
      intro i infos hi
      rw [if_pos (by simpa using hi)]
      rfl
  | cons c cs ih =>
      intro i infos hi
      rw [List.flatMap_cons, List.append_assoc, List.length_cons]
      by_cases hfull : componentCount ≤ i
      · rw [if_neg (by omega)]
        exact if_pos hfull
      · refine (if_neg hfull).trans ((ih _ _ (by omega)).trans ?_)
        rw [show i + 1 + cs.length = i + (cs.length + 1) by omega]
        rfl

theorem sosComponents_eq (cs : List (UInt8 × UInt8)) (rest : List UInt8) :
    ∀ (i : Nat) (infos : Nat → Component), i ≤ componentCount →
      sosComponents cs.length i infos (cs.flatMap (fun c => [c.1, c.2]) ++ rest) =
        if i + cs.length ≤ componentCount then some (updateFrom selectTables i cs infos, rest)
        else none := by
  induction cs with
  | nil =>
      intro i infos hi
      rw [if_pos (by simpa using hi)]
      rfl
  | cons c cs ih =>
      intro i infos hi
      rw [List.flatMap_cons, List.append_assoc, List.length_cons]
      by_cases hfull : componentCount ≤ i
      · rw [if_neg (by omega)]
        exact if_pos hfull
      · refine (if_neg hfull).trans ((ih _ _ (by omega)).trans ?_)
        rw [show i + 1 + cs.length = i + (cs.length + 1) by omega]
        rfl

/-! ## Tables -/

theorem DhtTable.built_iff_inArrays (c : DhtTable) (old : HuffmanTable) :
    (∃ t, buildHuffmanTable c.bits c.vals old = some t) ↔ c.InArrays := by
  rw [c.built_iff old]
  exact ⟨fun ⟨hcount, hplaced, hroom⟩ => ⟨hcount, hplaced, hroom⟩,
    fun h => ⟨h.count, h.placed, h.room⟩⟩

/-- A table is stored when its number is one of four and it fits the arrays. -/
theorem DhtTable.stored_iff (c : DhtTable) (priv : JdecPrivate) (index : UInt8) :
    (∃ priv', priv.storeTable index c.bits c.vals = some priv') ↔
      (index &&& 0xf).toNat < huffmanTables ∧ c.InArrays := by
  simp only [JdecPrivate.storeTable]
  by_cases hid : huffmanTables ≤ (index &&& 0xf).toNat
  · rw [if_pos hid]
    constructor
    · rintro ⟨priv', h⟩
      cases h
    · exact fun h => absurd h.1 (Nat.not_lt.mpr hid)
  · rw [if_neg hid, and_iff_right (Nat.lt_of_not_le hid)]
    split
    · rw [← c.built_iff_inArrays (priv.htac (index &&& 0xf).toNat)]
      cases buildHuffmanTable c.bits c.vals (priv.htac (index &&& 0xf).toNat) <;> simp
    · rw [← c.built_iff_inArrays (priv.htdc (index &&& 0xf).toNat)]
      cases buildHuffmanTable c.bits c.vals (priv.htdc (index &&& 0xf).toNat) <;> simp

/-- A table as the segment spells it. -/
theorem DhtTable.read_bytes (c : DhtTable) (rest : List UInt8) :
    DhtTable.read (c.bytes ++ rest) = some c ∧
      (c.bytes ++ rest).drop (16 + c.bits.sum) = rest := by
  have hcounts : (c.bits.map UInt8.ofNat).length = 16 := by rw [List.length_map, c.length_bits]
  have hvals : (c.vals.map UInt8.ofNat).length = c.bits.sum := by
    rw [List.length_map, c.length_vals]
  have hbits := map_toNat_ofNat c.count_lt
  have hbytes := map_toNat_ofNat c.byte
  rw [DhtTable.bytes, List.map_append, List.append_assoc]
  refine ⟨?_, by rw [← List.drop_drop, List.drop_left' hcounts, List.drop_left' hvals]⟩
  have hroom : ¬ (c.bits.map UInt8.ofNat ++ (c.vals.map UInt8.ofNat ++ rest)).length <
      16 + c.bits.sum := by
    rw [List.length_append, List.length_append]
    omega
  rw [DhtTable.read]
  simp only [List.take_left' hcounts, List.drop_left' hcounts, hbits, List.take_left' hvals,
    hbytes]
  rw [dif_neg hroom]

/-- Store the tables of a segment one after another. -/
def storeAll : List (UInt8 × DhtTable) → JdecPrivate → Option JdecPrivate
  | [], priv => some priv
  | t :: ts, priv => (priv.storeTable t.1 t.2.bits t.2.vals).bind (storeAll ts)

theorem length_tables (ts : List (UInt8 × DhtTable)) :
    (ts.flatMap fun t => t.1 :: t.2.bytes).length = (ts.map fun t => 17 + t.2.bits.sum).sum := by
  induction ts with
  | nil => rfl
  | cons t ts ih =>
      rw [List.flatMap_cons, List.length_append, ih, List.map_cons, List.sum_cons, List.length_cons,
        DhtTable.bytes, List.length_map, List.length_append, t.2.length_bits, t.2.length_vals]
      omega

/-- The loop of `parse_DHT` over tables that are spelt one after another. -/
theorem parseTables_spelt {ts : List (UInt8 × DhtTable)} {fuel : Nat} {length : Int}
    (priv : JdecPrivate) (rest : List UInt8)
    (hlength : length = ((ts.map fun t => 17 + t.2.bits.sum).sum : Nat)) (hfuel : length ≤ fuel) :
    parseTables fuel length priv (ts.flatMap (fun t => t.1 :: t.2.bytes) ++ rest) =
      match storeAll ts priv with
      | none => .error .undefined
      | some priv => .ok (priv, rest) := by
  induction ts generalizing fuel length priv with
  | nil =>
      rw [List.map_nil, List.sum_nil] at hlength
      have hdone : length ≤ 0 := by omega
      cases fuel <;> rw [parseTables, if_pos hdone] <;> rfl
  | cons t ts ih =>
      rw [List.map_cons, List.sum_cons] at hlength
      obtain ⟨fuel, rfl⟩ : ∃ n, fuel = n + 1 := Nat.exists_eq_succ_of_ne_zero (by omega)
      obtain ⟨hread, hdrop⟩ := t.2.read_bytes (ts.flatMap (fun t => t.1 :: t.2.bytes) ++ rest)
      rw [parseTables, if_neg (by omega), List.flatMap_cons, List.append_assoc, List.cons_append,
        parseTable_cons, hread, Option.bind_some, hdrop, storeAll]
      cases hstore : priv.storeTable t.1 t.2.bits t.2.vals with
      | none => rfl
      | some priv₁ =>
          rw [Option.map_some, Option.bind_some]
          exact ih priv₁ (by omega) (by omega)

/-- Tables are stored one after another when each of them can be. -/
theorem storeAll_iff {ts : List (UInt8 × DhtTable)} (priv : JdecPrivate) :
    (∃ priv', storeAll ts priv = some priv') ↔ (HeaderItem.tables ts).InArrays := by
  induction ts generalizing priv with
  | nil => exact ⟨fun _ t ht => absurd ht List.not_mem_nil, fun _ => ⟨priv, rfl⟩⟩
  | cons t ts ih =>
      have hsplit : (HeaderItem.tables (t :: ts)).InArrays ↔
          ((t.1 &&& 0xf).toNat < huffmanTables ∧ t.2.InArrays) ∧ (HeaderItem.tables ts).InArrays :=
        List.forall_mem_cons
      rw [hsplit, ← t.2.stored_iff priv, storeAll]
      cases hstore : priv.storeTable t.1 t.2.bits t.2.vals with
      | none => simp
      | some priv₁ =>
          rw [Option.bind_some, ih priv₁]
          simp

/-! ## Reading one thing after another -/

/-- What reading these segments makes of the decoder. -/
structure ItemsRead (items : List HeaderItem) (p q : JdecPrivate) : Prop where
  /-- `restart_interval`. -/
  restartInterval : q.restartInterval =
    (latest HeaderItem.intervalOf items).getD p.restartInterval
  /-- `width`. -/
  width : q.width = ((latest HeaderItem.frameOf items).map FrameHeader.width).getD p.width
  /-- `height`. -/
  height : q.height = ((latest HeaderItem.frameOf items).map FrameHeader.height).getD p.height
  /-- `Hfactor` and `Vfactor`. -/
  factors : ∀ c, ((q.componentInfos c).hfactor, (q.componentInfos c).vfactor) =
    (latest (HeaderItem.factorsOf c) items).getD
      ((p.componentInfos c).hfactor, (p.componentInfos c).vfactor)
  /-- `AC_table` and `DC_table` wait for the scan header. -/
  selected : ∀ c, (q.componentInfos c).acTable = (p.componentInfos c).acTable ∧
    (q.componentInfos c).dcTable = (p.componentInfos c).dcTable
  /-- The tables. -/
  slot : ∀ ac id, TableRead (latest (HeaderItem.tableOf ac id) items) (p.slot ac id) (q.slot ac id)

/-- A table that is stored is found in the slot that its index names. -/
theorem storeTable_slot {priv priv' : JdecPrivate} {index : UInt8} {bits vals : List Nat}
    (h : priv.storeTable index bits vals = some priv') :
    ∃ old table, buildHuffmanTable bits vals old = some table ∧ ∀ ac id,
      priv'.slot ac id = if Names index ac id then table else priv.slot ac id := by
  obtain ⟨old, table, hbuild, rfl⟩ := storeTable_filled h
  refine ⟨old, table, hbuild, fun ac id => ?_⟩
  by_cases hac : index &&& 0xf0 ≠ 0
  · cases ac with
    | true => simp [JdecPrivate.slot, Names, hac, Function.update_apply, eq_comm]
    | false => simp [JdecPrivate.slot, Names, hac]
  · cases ac with
    | true => simp [JdecPrivate.slot, Names, Decidable.not_not.mp hac]
    | false =>
        simp [JdecPrivate.slot, Names, Decidable.not_not.mp hac, Function.update_apply, eq_comm]

theorem TableRead.append {c c' : Option DhtTable} {t t' t'' : HuffmanTable} (h : TableRead c t t')
    (h' : TableRead c' t' t'') : TableRead (c'.or c) t t'' := by
  cases c' with
  | none => exact (h' : t'' = t') ▸ h
  | some c' => exact h'

namespace ItemsRead

theorem refl (p : JdecPrivate) : ItemsRead [] p p :=
  ⟨rfl, rfl, rfl, fun _ => rfl, fun _ => ⟨rfl, rfl⟩, fun _ _ => rfl⟩

/-- The latest of two parts is that of the second one, when it has any. -/
theorem append {items items' : List HeaderItem} {p q r : JdecPrivate} (h : ItemsRead items p q)
    (h' : ItemsRead items' q r) : ItemsRead (items ++ items') p r where
  restartInterval := by
    rw [latest_append, Option.getD_or, ← h.restartInterval, h'.restartInterval]
  width := by rw [latest_append, Option.map_or, Option.getD_or, ← h.width, h'.width]
  height := by rw [latest_append, Option.map_or, Option.getD_or, ← h.height, h'.height]
  factors c := by rw [latest_append, Option.getD_or, ← h.factors c, h'.factors c]
  selected c := ⟨(h'.selected c).1.trans (h.selected c).1, (h'.selected c).2.trans (h.selected c).2⟩
  slot ac id := by
    rw [latest_append]
    exact (h.slot ac id).append (h'.slot ac id)

/-- A table changes its own slot only. -/
theorem table {t : UInt8 × DhtTable} {p q : JdecPrivate}
    (h : p.storeTable t.1 t.2.bits t.2.vals = some q) : ItemsRead [.tables [t]] p q := by
  obtain ⟨old, table, hbuild, hslot⟩ := storeTable_slot h
  have hread : ∀ ac id, TableRead (if Names t.1 ac id then some t.2 else none) (p.slot ac id)
      (q.slot ac id) := by
    intro ac id
    rw [hslot ac id]
    split
    · exact ⟨old, hbuild⟩
    · rfl
  obtain ⟨_, _, _, rfl⟩ := storeTable_filled h
  by_cases hac : t.1 &&& 0xf0 ≠ 0
  · simp only [if_pos hac] at hread ⊢
    exact ⟨rfl, rfl, rfl, fun _ => rfl, fun _ => ⟨rfl, rfl⟩, hread⟩
  · simp only [if_neg hac] at hread ⊢
    exact ⟨rfl, rfl, rfl, fun _ => rfl, fun _ => ⟨rfl, rfl⟩, hread⟩

/-- The tables of a segment are read like segments of one table each. -/
theorem tables {ts : List (UInt8 × DhtTable)} {p q : JdecPrivate} (h : storeAll ts p = some q) :
    ItemsRead [.tables ts] p q := by
  induction ts generalizing p with
  | nil =>
      cases h
      exact ⟨rfl, rfl, rfl, fun _ => rfl, fun _ => ⟨rfl, rfl⟩, fun _ _ => rfl⟩
  | cons t ts ih =>
      rw [storeAll] at h
      cases hstore : p.storeTable t.1 t.2.bits t.2.vals with
      | none =>
          rw [hstore] at h
          cases h
      | some p₁ =>
          rw [hstore, Option.bind_some] at h
          have hboth := (table hstore).append (ih h)
          refine ⟨hboth.restartInterval, hboth.width, hboth.height, hboth.factors, hboth.selected,
            fun ac id => ?_⟩
          have hslot := hboth.slot ac id
          simpa [latest, HeaderItem.tableOf] using hslot

/-- A frame header. -/
theorem frame (f : FrameHeader) (p : JdecPrivate) : ItemsRead [.frame f] p
    { p with componentInfos := updateFrom FrameComponent.change 0 f.components p.componentInfos,
             width := f.width, height := f.height } where
  restartInterval := rfl
  width := rfl
  height := rfl
  factors c := by
    dsimp only [latest, HeaderItem.factorsOf, HeaderItem.frameOf]
    rw [Option.none_or, Option.bind_some, updateFrom_apply, if_neg (Nat.not_lt_zero c),
      Nat.sub_zero]
    cases f.components[c]? <;> rfl
  selected c := by
    dsimp only
    rw [updateFrom_apply, if_neg (Nat.not_lt_zero c), Nat.sub_zero]
    cases f.components[c]? <;> exact ⟨rfl, rfl⟩
  slot _ _ := rfl

end ItemsRead

/-! ## The parser -/

/-- A part of the parser gets through exactly when it stays inside of the arrays. -/
structure Parses (x : Except Stop JdecPrivate) (inside : Prop) (post : JdecPrivate → Prop) :
    Prop where
  /-- Inside of the arrays the part reads what it should. -/
  ok : inside → ∃ q, x = .ok q ∧ post q
  /-- Outside the behaviour is undefined. -/
  undefined : ¬ inside → x = .error .undefined

theorem Parses.bind {x : Except Stop JdecPrivate} {f : JdecPrivate → Except Stop JdecPrivate}
    {inside inside' : Prop} {post post' : JdecPrivate → Prop} (h : Parses x inside post)
    (h' : ∀ q, post q → Parses (f q) inside' post') :
    Parses (x.bind f) (inside ∧ inside') post' where
  ok hboth := by
    obtain ⟨q, rfl, hq⟩ := h.ok hboth.1
    exact (h' q hq).ok hboth.2
  undefined hout := by
    by_cases hin : inside
    · obtain ⟨q, rfl, hq⟩ := h.ok hin
      exact (h' q hq).undefined fun hin' => hout ⟨hin, hin'⟩
    · rw [h.undefined hin]
      rfl

theorem Parses.imp {x : Except Stop JdecPrivate} {inside : Prop} {post post' : JdecPrivate → Prop}
    (h : Parses x inside post) (hpost : ∀ q, post q → post' q) : Parses x inside post' where
  ok hin := by
    obtain ⟨q, hq, hread⟩ := h.ok hin
    exact ⟨q, hq, hpost q hread⟩
  undefined := h.undefined

theorem be16ToCpu_be16Bytes {n : Nat} (h : n < 2 ^ 16) (rest : List UInt8) :
    be16ToCpu (be16Bytes n ++ rest) = some n := by
  rw [be16Bytes, List.cons_append, List.cons_append, be16ToCpu_cons, be16_ofNat h]

theorem toNat_ofNat_byte {n : Nat} (h : n < 256) : (UInt8.ofNat n).toNat = n := by
  rw [UInt8.toNat_ofNat', Nat.mod_eq_of_lt h]

theorem parseDRI_spelt {n : Nat} (h : n < 2 ^ 16) (len : Nat) (priv : JdecPrivate)
    (tail : List UInt8) : parseDRI priv (be16Bytes len ++ be16Bytes n ++ tail) =
      some { priv with restartInterval := n } := by
  rw [parseDRI, show (be16Bytes len ++ be16Bytes n ++ tail).drop 2 = be16Bytes n ++ tail from rfl,
    be16ToCpu_be16Bytes h]

theorem parseSOF_spelt (f : FrameHeader) (len : Nat) (priv : JdecPrivate) (tail : List UInt8) :
    parseSOF priv (be16Bytes len ++ (HeaderItem.frame f).payload ++ tail) =
      if f.components.length ≤ componentCount then
        some { priv with
          componentInfos := updateFrom FrameComponent.change 0 f.components priv.componentInfos,
          width := f.width, height := f.height }
      else none := by
  generalize hstream : be16Bytes len ++ (HeaderItem.frame f).payload ++ tail = stream
  have hcount : stream.drop 7 = UInt8.ofNat f.components.length ::
      (f.components.flatMap FrameComponent.bytes ++ tail) := by
    rw [← hstream]
    rfl
  have hheight : be16ToCpu (stream.drop 3) = some f.height := by
    rw [← hstream]
    exact be16ToCpu_be16Bytes f.height_lt _
  have hwidth : be16ToCpu (stream.drop 5) = some f.width := by
    rw [← hstream]
    exact be16ToCpu_be16Bytes f.width_lt _
  rw [parseSOF, hheight, hwidth, hcount]
  dsimp only
  rw [toNat_ofNat_byte f.components_lt, sofComponents_eq f.components tail 0 _ (Nat.zero_le _),
    Nat.zero_add]
  by_cases hle : f.components.length ≤ componentCount
  · rw [if_pos hle, if_pos hle]
  · rw [if_neg hle, if_neg hle]

theorem parseSOS_spelt (s : ScanHeader) (priv : JdecPrivate) (data : List UInt8) :
    parseSOS priv (s.bytes ++ data) =
      if s.components.length ≤ componentCount then
        some { priv with
          componentInfos := updateFrom selectTables 0 s.components priv.componentInfos,
          stream := data }
      else none := by
  have hcount : (s.bytes ++ data).drop 2 = UInt8.ofNat s.components.length ::
      (s.components.flatMap (fun c => [c.1, c.2]) ++
        ([s.selection.1, s.selection.2.1, s.selection.2.2] ++ data)) := by
    rw [← List.append_assoc]
    rfl
  rw [parseSOS, hcount]
  dsimp only
  rw [toNat_ofNat_byte s.components_lt, sosComponents_eq s.components _ 0 _ (Nat.zero_le _),
    Nat.zero_add]
  by_cases hle : s.components.length ≤ componentCount
  · rw [if_pos hle, if_pos hle]
    rfl
  · rw [if_neg hle, if_neg hle]

theorem parseDHT_spelt {ts : List (UInt8 × DhtTable)}
    (fits : (HeaderItem.tables ts).payload.length + 2 < 2 ^ 16) (priv : JdecPrivate)
    (tail : List UInt8) :
    parseDHT priv (be16Bytes ((HeaderItem.tables ts).payload.length + 2) ++
        (HeaderItem.tables ts).payload ++ tail) =
      match storeAll ts priv with
      | none => .error .undefined
      | some priv => .ok (priv, tail) := by
  have hlen : (HeaderItem.tables ts).payload.length = (ts.map fun t => 17 + t.2.bits.sum).sum :=
    length_tables ts
  rw [parseDHT, List.append_assoc, be16ToCpu_be16Bytes fits]
  exact parseTables_spelt priv tail (by omega) (by omega)

/-- A segment is read. -/
theorem HeaderPiece.parses (p : HeaderPiece) (priv : JdecPrivate) (tail : List UInt8) :
    Parses (parseMarker p.segment.marker priv (p.segment.body ++ tail)) p.item.InArrays
      (ItemsRead [p.item] priv) := by
  obtain ⟨n, item, fits⟩ := p
  cases item with
  | interval n lt =>
      have hread : parseMarker StdMarkers.dri priv
          (be16Bytes ((be16Bytes n).length + 2) ++ be16Bytes n ++ tail) =
            .ok { priv with restartInterval := n } := by
        rw [parseMarker, if_pos rfl, parseDRI_spelt lt]
        rfl
      refine ⟨fun _ => ⟨_, hread, ?_⟩, fun h => absurd trivial h⟩
      exact ⟨rfl, rfl, rfl, fun _ => rfl, fun _ => ⟨rfl, rfl⟩, fun _ _ => rfl⟩
  | frame f =>
      have hread := parseSOF_spelt f ((HeaderItem.frame f).payload.length + 2) priv tail
      constructor
      · exact fun hle => ⟨_, congrArg orUndef (hread.trans (if_pos hle)), .frame f priv⟩
      · exact fun hgt => congrArg orUndef (hread.trans (if_neg hgt))
  | tables ts =>
      have hread := parseDHT_spelt fits priv tail
      have hiff : (∃ q, storeAll ts priv = some q) ↔ (HeaderItem.tables ts).InArrays :=
        storeAll_iff priv
      cases hstore : storeAll ts priv with
      | none =>
          rw [hstore] at hread hiff
          constructor
          · intro hin
            obtain ⟨q, hq⟩ := hiff.mpr hin
            cases hq
          · exact fun _ => congrArg (Except.map Prod.fst) hread
      | some q =>
          rw [hstore] at hread hiff
          constructor
          · exact fun _ => ⟨q, congrArg (Except.map Prod.fst) hread, .tables hstore⟩
          · exact fun hout => absurd (hiff.mp ⟨q, rfl⟩) hout
  | other m payload ne skipped =>
      have hread : parseMarker m priv
          (be16Bytes (payload.length + 2) ++ payload ++ tail) = .ok priv := by
        simp only [List.mem_cons, List.not_mem_nil, or_false, not_or] at skipped
        rw [parseMarker, if_neg skipped.1, if_neg skipped.2.1, if_neg skipped.2.2.1,
          if_neg skipped.2.2.2]
      refine ⟨fun _ => ⟨priv, hread, ?_⟩, fun h => absurd trivial h⟩
      exact ⟨rfl, rfl, rfl, fun _ => rfl, fun _ => ⟨rfl, rfl⟩, fun _ _ => rfl⟩

/-- The segments in front of the scan header are read one after another. -/
theorem parseSegments_parses (pieces : List HeaderPiece) (tail : List UInt8) :
    ∀ priv, Parses (parseSegments (pieces.map fun p => (p.fill, p.segment)) tail priv)
      (∀ item ∈ pieces.map HeaderPiece.item, item.InArrays)
      (ItemsRead (pieces.map HeaderPiece.item) priv) := by
  induction pieces with
  | nil =>
      exact fun priv => ⟨fun _ => ⟨priv, rfl, .refl priv⟩,
        fun h => absurd (fun _ hitem => absurd hitem List.not_mem_nil) h⟩
  | cons p pieces ih =>
      intro priv
      have hfirst := p.parses priv (spell (pieces.map fun p => (p.fill, p.segment)) tail)
      have hall := hfirst.bind fun q hq => (ih q).imp fun r hr => hq.append hr
      rw [List.map_cons, List.map_cons, List.forall_mem_cons]
      rw [parseSegments]
      generalize parseMarker p.segment.marker priv _ = run at hall ⊢
      cases run <;> exact hall

/-- The scan header ends the walk. -/
theorem parseSOS_parses (s : ScanHeader) (m fuel : Nat) (data : List UInt8) (priv : JdecPrivate) :
    Parses (parseJFIF (fuel + 1) priv (fill (m + 1) ++ StdMarkers.sos :: (s.bytes ++ data)))
      (s.components.length ≤ componentCount) fun q => q = { priv with
        componentInfos := updateFrom selectTables 0 s.components priv.componentInfos,
        stream := data } := by
  have hlt := s.components_lt
  have hlen : be16ToCpu (s.bytes ++ data) = some (6 + 2 * s.components.length) := by
    rw [ScanHeader.bytes, List.append_assoc]
    exact be16ToCpu_be16Bytes (by omega) _
  rw [parseJFIF_marker (by decide) m fuel priv hlen, parseMarker_sos, parseSOS_spelt]
  constructor
  · intro hle
    rw [if_pos hle]
    exact ⟨_, rfl, rfl⟩
  · intro hgt
    rw [if_neg hgt]
    rfl

/-- What is read up to the scan header, and the scan header. -/
theorem ItemsRead.readAs {h : ImageHeader} {data : List UInt8} {p : JdecPrivate}
    (hp : ItemsRead h.items tinyjpegInit p) : h.ReadAs data { p with
      componentInfos := updateFrom selectTables 0 h.scan.components p.componentInfos,
      stream := data, buffer := (h.file data).drop 2 } where
  restartInterval := hp.restartInterval
  width := hp.width
  height := hp.height
  factors c := by
    refine Eq.trans ?_ (hp.factors c)
    dsimp only
    rw [updateFrom_apply, if_neg (Nat.not_lt_zero c), Nat.sub_zero]
    cases h.scan.components[c]? <;> rfl
  acTable c := by
    dsimp only
    rw [updateFrom_apply, if_neg (Nat.not_lt_zero c), Nat.sub_zero]
    cases h.scan.components[c]? with
    | none => exact (hp.selected c).1
    | some p => rfl
  dcTable c := by
    dsimp only
    rw [updateFrom_apply, if_neg (Nat.not_lt_zero c), Nat.sub_zero]
    cases h.scan.components[c]? with
    | none => exact (hp.selected c).2
    | some p => rfl
  slot ac id := by
    have hslot := hp.slot ac id
    have hzero : tinyjpegInit.slot ac id = .zero := by cases ac <;> rfl
    rwa [hzero] at hslot
  stream := rfl
  buffer := rfl

theorem ImageHeader.pieces_ne_sos (h : ImageHeader) :
    ∀ p ∈ h.pieces.map fun p => (p.fill, p.segment), p.2.marker ≠ StdMarkers.sos := by
  intro p hp
  obtain ⟨piece, _, rfl⟩ := List.mem_map.mp hp
  exact piece.item.marker_ne_sos

/-- The parser gets through a closed header exactly when it fits the arrays of the decoder, and
then it has read the latest of each thing the header says. -/
theorem parseHeader_parses (h : ImageHeader) (data : List UInt8) :
    Parses (tinyjpegParseHeader (h.file data))
      ((∀ item ∈ h.items, item.InArrays) ∧ h.scan.components.length ≤ componentCount)
      (h.ReadAs data) := by
  have hsos := h.pieces_ne_sos
  let tail := fill (h.fill + 1) ++ StdMarkers.sos :: (h.scan.bytes ++ data)
  let pre := h.pieces.map fun p => (p.fill, p.segment)
  have htail : 0 < tail.length := by
    rw [List.length_append, List.length_cons]
    omega
  obtain ⟨fuel, hfuel⟩ : ∃ fuel, (h.file data).length = fuel + 1 + pre.length := by
    have hle := length_spell pre tail
    refine ⟨(h.file data).length - 1 - pre.length, ?_⟩
    have hlen : (h.file data).length = (spell pre tail).length + 1 + 1 := rfl
    omega
  have hwalk : parseJFIF (h.file data).length tinyjpegInit ((h.file data).drop 2) =
      (parseSegments pre tail tinyjpegInit).bind fun p => parseJFIF (fuel + 1) p tail := by
    rw [hfuel]
    refine (parseJFIF_spell hsos (fuel + 1) tail tinyjpegInit).trans ?_
    cases parseSegments pre tail tinyjpegInit <;> rfl
  have hscan : ∀ p, ItemsRead h.items tinyjpegInit p →
      Parses (parseJFIF (fuel + 1) p tail) (h.scan.components.length ≤ componentCount) fun q =>
        h.ReadAs data { q with buffer := (h.file data).drop 2 } := by
    intro p hp
    refine (parseSOS_parses h.scan h.fill fuel data p).imp fun q hq => ?_
    rw [hq]
    exact hp.readAs
  have hparses := (parseSegments_parses h.pieces tail tinyjpegInit).bind hscan
  rw [← hwalk] at hparses
  have hlong : ¬ (h.file data).length < 2 := Nat.not_lt.mpr (Nat.le_add_left 2 _)
  rw [tinyjpegParseHeader, if_neg hlong]
  constructor
  · intro hin
    obtain ⟨q, hq, hread⟩ := hparses.ok hin
    rw [hq]
    exact ⟨_, rfl, hread⟩
  · intro hout
    rw [hparses.undefined hout]

/-! ## The record -/

/-- The tables of a segment are counted one after another. -/
theorem dhtTables_spelt {ts : List (UInt8 × DhtTable)} {fuel : Nat} {length : Int}
    (rest : List UInt8) (hlength : length = ((ts.map fun t => 17 + t.2.bits.sum).sum : Nat))
    (hfuel : length ≤ fuel) :
    dhtTables fuel length (ts.flatMap (fun t => t.1 :: t.2.bytes) ++ rest) =
      ts.map tableCount := by
  induction ts generalizing fuel length with
  | nil =>
      rw [List.map_nil, List.sum_nil] at hlength
      have hdone : length ≤ 0 := by omega
      rw [List.map_nil, List.flatMap_nil, List.nil_append]
      cases fuel with
      | zero => rfl
      | succ fuel =>
          cases rest with
          | nil => rfl
          | cons index rest => rw [dhtTables, if_pos hdone]
  | cons t ts ih =>
      rw [List.map_cons, List.sum_cons] at hlength
      obtain ⟨fuel, rfl⟩ : ∃ n, fuel = n + 1 := Nat.exists_eq_succ_of_ne_zero (by omega)
      obtain ⟨hread, hdrop⟩ := t.2.read_bytes (ts.flatMap (fun t => t.1 :: t.2.bytes) ++ rest)
      rw [List.flatMap_cons, List.append_assoc, List.cons_append, dhtTables, if_neg (by omega),
        ← DhtTable.read_some hread]
      dsimp only
      rw [hdrop, ih (by omega) (by omega)]
      rfl

/-- A round of the walk over the tables. -/
theorem jfifTables_marker {m : UInt8} (hm : m ≠ 0xff) (n fuel : Nat) {stream : List UInt8}
    {len : Nat} (hlen : be16ToCpu stream = some len) :
    jfifTables (fuel + 1) (fill (n + 1) ++ m :: stream) =
      if m = StdMarkers.sos then []
      else if m = StdMarkers.dht then
        dhtTables len ((len : Int) - 2) (stream.drop 2) ++ jfifTables fuel (stream.drop len)
      else jfifTables fuel (stream.drop len) := by
  change jfifTables (fuel + 1) (0xff :: (fill n ++ m :: stream)) = _
  rw [jfifTables, skipFill_fill hm]
  simp only [hlen]

/-- The tables of a segment, and those behind it. -/
theorem HeaderPiece.jfifTables_segment (p : HeaderPiece) (fuel : Nat) (tail : List UInt8) :
    jfifTables (fuel + 1)
        (Segments.fill (p.fill + 1) ++ p.segment.marker :: (p.segment.body ++ tail)) =
      p.item.tablesOf.map tableCount ++ jfifTables fuel tail := by
  have hsos : p.segment.marker ≠ StdMarkers.sos := p.item.marker_ne_sos
  rw [jfifTables_marker p.segment.marker_ne p.fill fuel (be16ToCpu_body p.segment tail),
    if_neg hsos, List.drop_left]
  obtain ⟨n, item, fits⟩ := p
  cases item with
  | interval n lt => exact if_neg (by decide : StdMarkers.dri ≠ StdMarkers.dht)
  | frame f => exact if_neg (by decide : StdMarkers.sof ≠ StdMarkers.dht)
  | tables ts =>
      refine (if_pos rfl).trans (congrArg (· ++ jfifTables fuel tail) ?_)
      have hlen : (HeaderItem.tables ts).payload.length + 2 =
          (ts.map fun t => 17 + t.2.bits.sum).sum + 2 := congrArg (· + 2) (length_tables ts)
      rw [Segment.length_body]
      change dhtTables ((HeaderItem.tables ts).payload.length + 2)
        ((((HeaderItem.tables ts).payload.length + 2 : Nat) : Int) - 2) _ = _
      rw [hlen]
      exact dhtTables_spelt tail (by omega) (by omega)
  | other m payload ne skipped =>
      refine if_neg fun hdht => skipped ?_
      rw [show m = StdMarkers.dht from hdht]
      decide

/-- The walk over the segments in front of the scan header. -/
theorem jfifTables_spell (pieces : List HeaderPiece) (fuel : Nat) (tail : List UInt8) :
    jfifTables (fuel + pieces.length) (spell (pieces.map fun p => (p.fill, p.segment)) tail) =
      ((pieces.map HeaderPiece.item).flatMap HeaderItem.tablesOf).map tableCount ++
        jfifTables fuel tail := by
  induction pieces with
  | nil => rfl
  | cons p pieces ih =>
      rw [List.map_cons, List.map_cons, List.flatMap_cons, List.map_append, spell,
        List.length_cons, ← Nat.add_assoc, p.jfifTables_segment, ih, List.append_assoc]

/-- The tables that are counted are those the header says. -/
theorem ImageHeader.headerTables_file (h : ImageHeader) (data : List UInt8) :
    headerTables (h.file data) = h.tables.map tableCount := by
  let tail := Segments.fill (h.fill + 1) ++ StdMarkers.sos :: (h.scan.bytes ++ data)
  let pre := h.pieces.map fun p => (p.fill, p.segment)
  have hlen : be16ToCpu (h.scan.bytes ++ data) = some (6 + 2 * h.scan.components.length) := by
    have hlt := h.scan.components_lt
    rw [ScanHeader.bytes, List.append_assoc]
    exact be16ToCpu_be16Bytes (by omega) _
  obtain ⟨fuel, hfuel⟩ : ∃ fuel, (h.file data).length = fuel + 1 + h.pieces.length := by
    have hle := length_spell pre tail
    have hfile : (h.file data).length = (spell pre tail).length + 1 + 1 := rfl
    rw [List.length_map] at hle
    exact ⟨(h.file data).length - 1 - h.pieces.length, by omega⟩
  rw [headerTables, hfuel]
  change jfifTables _ (spell pre tail) = _
  rw [jfifTables_spell, jfifTables_marker (by decide) h.fill fuel hlen, if_pos rfl,
    List.append_nil]
  rfl

/-- Behind tables the record is outside of its arrays when one of them has no type, or the
number of the image or of the codes is too large. -/
theorem DirRecord.outside_addTables {r : DirRecord} (hr : ¬ r.Outside) (workon : Nat)
    (tables : List (UInt8 × Nat)) :
    (r.addTables workon tables).Outside ↔ (∃ table ∈ tables, tableType table.1 = none) ∨
      ∃ type, huffTableCapacity < r.num workon type + typeCount tables type ∨
        (dirHuffCapacity ≤ workon ∧ 0 < typeCount tables type) := by
  rw [DirRecord.Outside, not_or] at hr
  obtain ⟨hno, hin⟩ := hr
  push Not at hin
  rw [DirRecord.Outside, DirRecord.addTables_untyped]
  simp only [hno, DirRecord.addTables_num, Bool.false_eq_true, false_or]
  refine or_congr_right ⟨?_, ?_⟩
  · rintro ⟨j, type, hout⟩
    have hold := hin j type
    refine ⟨type, ?_⟩
    split at hout
    · next hj =>
      subst hj
      omega
    · omega
  · rintro ⟨type, hout⟩
    refine ⟨workon, type, ?_⟩
    rw [if_pos rfl]
    omega

/-- What the record asks of the header. -/
theorem ImageHeader.inside_iff (h : ImageHeader) (data : List UInt8) (workon : Nat)
    {r : DirRecord} (hr : ¬ r.Outside) :
    ¬ (r.addTables workon (headerTables (h.file data))).Outside ↔
      (∀ t ∈ h.tables, (tableType t.1).isSome) ∧ ∀ type,
        r.num workon type + typeCount (h.tables.map tableCount) type ≤ huffTableCapacity ∧
          (0 < typeCount (h.tables.map tableCount) type → workon < dirHuffCapacity) := by
  rw [h.headerTables_file, DirRecord.outside_addTables hr, not_or]
  refine and_congr ?_ ?_
  · simp [tableCount, Option.isSome_iff_ne_none]
  · rw [not_exists]
    refine forall_congr' fun type => ?_
    omega

/-- From a record inside of its arrays the parser gets through a closed header exactly when the
header fits the arrays and the record, and then it has read the latest of each thing the
header says.  Otherwise it leaves an array, or it uses a `type` that is not initialised. -/
theorem header_read (h : ImageHeader) (data : List UInt8) (workon : Nat) {r : DirRecord}
    (hr : ¬ r.Outside) :
    (h.InArrays workon r →
      (∃ priv, tinyjpegParseHeader (h.file data) = .ok priv ∧ h.ReadAs data priv) ∧
        ¬ (r.addTables workon (headerTables (h.file data))).Outside) ∧
    (¬ h.InArrays workon r → tinyjpegParseHeader (h.file data) = .error .undefined ∨
      (r.addTables workon (headerTables (h.file data))).Outside) := by
  have hparses := parseHeader_parses h data
  have hrecord := h.inside_iff data workon hr
  constructor
  · intro hin
    exact ⟨hparses.ok ⟨hin.items, hin.scan⟩,
      hrecord.mpr ⟨hin.typed, fun type => ⟨hin.huffTable type, hin.dirHuff type⟩⟩⟩
  · intro hout
    rw [or_iff_not_imp_right]
    intro hinside
    obtain ⟨htyped, hroom⟩ := hrecord.mp hinside
    refine hparses.undefined fun hin => hout ?_
    exact ⟨hin.1, hin.2, htyped, fun type => (hroom type).1, fun type => (hroom type).2⟩

/-! ## A header that says things twice -/

/-- A table with one code. -/
def oneCode (value : UInt8) : DhtTable where
  bits := 1 :: List.replicate 15 0
  vals := [value.toNat]
  length_bits := rfl
  count_lt := by decide
  length_vals := rfl
  byte := by simpa using value.toNat_lt

theorem oneCode_inArrays (value : UInt8) : (oneCode value).InArrays :=
  ((oneCode value).built_iff_inArrays .zero).mp ⟨_, rfl⟩

/-- Eight by eight pixels and three components. -/
def eightByEight : FrameHeader where
  precision := 8
  height := 8
  width := 8
  components := [⟨0, 0x11, 0⟩, ⟨1, 0x11, 0⟩, ⟨2, 0x11, 0⟩]
  height_lt := by decide
  width_lt := by decide
  components_lt := by decide

/-- The first table of a slot and the first restart interval are said again. -/
def saidTwice : ImageHeader where
  pieces :=
    [⟨0, .tables [(0x00, oneCode 1), (0x10, oneCode 2)], by decide⟩,
      ⟨2, .interval 4 (by decide), by decide⟩, ⟨0, .frame eightByEight, by decide⟩,
      ⟨1, .tables [(0x00, oneCode 3)], by decide⟩, ⟨0, .interval 5 (by decide), by decide⟩]
  fill := 0
  scan := ⟨[(0, 0x00), (1, 0x00), (2, 0x00)], (0, 63, 0), by decide⟩

/-- The record before the first image. -/
def emptyRecord : DirRecord := ⟨fun _ _ => 0, false⟩

theorem header_read_twice : ∃ priv, tinyjpegParseHeader (saidTwice.file [0xff, 0xd9]) = .ok priv ∧
    priv.restartInterval = 5 ∧ priv.width = 8 ∧ priv.stream = [0xff, 0xd9] ∧
      (∃ old, buildHuffmanTable (oneCode 3).bits (oneCode 3).vals old = some (priv.htdc 0)) ∧
        ¬ (emptyRecord.addTables 0 (headerTables (saidTwice.file [0xff, 0xd9]))).Outside := by
  have hfirst : (HeaderItem.tables [(0x00, oneCode 1), (0x10, oneCode 2)]).InArrays := by
    intro t ht
    rcases List.mem_pair.mp ht with rfl | rfl
    · exact ⟨by decide, oneCode_inArrays 1⟩
    · exact ⟨by decide, oneCode_inArrays 2⟩
  have hagain : (HeaderItem.tables [(0x00, oneCode 3)]).InArrays := by
    intro t ht
    rw [List.mem_singleton.mp ht]
    exact ⟨by decide, oneCode_inArrays 3⟩
  have hframe : (HeaderItem.frame eightByEight).InArrays := Nat.le_refl 3
  have hinterval : ∀ n lt, (HeaderItem.interval n lt).InArrays := fun _ _ => trivial
  have hcounts : saidTwice.tables.map tableCount = [(0x00, 1), (0x10, 1), (0x00, 1)] := rfl
  have hfew (type : Nat) : typeCount (saidTwice.tables.map tableCount) type ≤ 3 := by
    rw [hcounts, typeCount_cons, typeCount_cons, typeCount_cons, typeCount, List.map_nil,
      List.sum_nil]
    split <;> split <;> omega
  have hitems : ∀ item ∈ saidTwice.items, item.InArrays := by
    simp [saidTwice, ImageHeader.items, hfirst, hagain, hframe, hinterval]
  have hin : saidTwice.InArrays 0 emptyRecord :=
    ⟨hitems, by decide, by decide, fun type => (Nat.add_le_add_left (hfew type) 0).trans (by decide),
      fun _ _ => by decide⟩
  have hempty : ¬ emptyRecord.Outside := by
    rintro (h | ⟨workon, type, h | ⟨_, h⟩⟩)
    · cases h
    · exact absurd h (Nat.not_lt_zero _)
    · exact absurd h (Nat.lt_irrefl 0)
  obtain ⟨⟨priv, hparse, hread⟩, hinside⟩ := (header_read saidTwice [0xff, 0xd9] 0 hempty).1 hin
  exact ⟨priv, hparse, hread.restartInterval, hread.width, hread.stream, hread.slot false 0,
    hinside⟩

end Recode
