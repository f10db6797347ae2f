import JpegStorage.Lib.Journal
import JpegStorage.Recode.Directory
import JpegStorage.Recode.MalformedTables

/-!
# The entries of the record

`build_huffman_table` appends the entries of every table to `Dir_Record`, under the
number of the file and the type of the table.  `headerContents` are the tables a header
comes to, and `mainWrites` is everything the two loops of `main` append, also when the
program stops.

The first loop has a number for each file, and a file with valid tables has at most 256
entries of a type.  In the second loop the headers are parsed again, but `workon` is
where the first loop left it, so all files share the number behind the last one.

The entries are as many as the numbers of `DirRecord` say (`main_record`).  The record
holds what it should exactly when the files the second loop finds do not have more than
1024 entries of a type together (`record_kept_iff`).  In a run to the end these are the
listed files, unless one of them is the output of another (`secondReads_eq`).
-/

namespace Recode

open Journal Segments

/-! ## What a header records -/

/-- The tables of a segment of `parse_DHT`, up to where it stops. -/
def dhtContents : Nat → Int → JdecPrivate → List UInt8 → List (UInt8 × DhtTable)
  | fuel + 1, length, priv, index :: stream =>
      if length ≤ 0 then []
      else
        match DhtTable.read stream with
        | none => []
        | some c =>
            (index, c) ::
              match priv.storeTable index c.bits c.vals with
              | none => []
              | some priv =>
                  dhtContents fuel (length - 1 - 16 - c.bits.sum) priv
                    (stream.drop (16 + c.bits.sum))
  | _, _, _, _ => []

/-- The tables of a segment. -/
def segmentContents (marker : UInt8) (priv : JdecPrivate) (stream : List UInt8) :
    List (UInt8 × DhtTable) :=
  if marker = StdMarkers.dht then
    match be16ToCpu stream with
    | none => []
    | some length => dhtContents length ((length : Int) - 2) priv (stream.drop 2)
  else []

/-- The tables `parse_JFIF` comes to. -/
def jfifContents : Nat → JdecPrivate → List UInt8 → List (UInt8 × DhtTable)
  | fuel + 1, priv, c :: stream =>
      if c ≠ 0xff then []
      else
        match skipFill stream with
        | [] => []
        | marker :: stream =>
            match be16ToCpu stream with
            | none => []
            | some chuckLen =>
                segmentContents marker priv stream ++
                  match parseMarker marker priv stream with
                  | .error _ => []
                  | .ok priv =>
                      if marker = StdMarkers.sos then []
                      else jfifContents fuel priv (stream.drop chuckLen)
  | _, _, _ => []

/-- The tables `tinyjpeg_parse_header` comes to. -/
def headerContents (buf : List UInt8) : List (UInt8 × DhtTable) :=
  if buf.length < 2 then [] else jfifContents buf.length tinyjpegInit (buf.drop 2)

/-- An entry that is appended. -/
structure RecordWrite where
  /-- `workon`. -/
  workon : Nat
  /-- `type`, when it has a value. -/
  type : Option Nat
  /-- The value, the code and its size. -/
  entry : OneHuff
deriving DecidableEq

/-- Where it is appended: `dir_huff[workon].jpeg_huff[type]`. -/
def RecordWrite.key (w : RecordWrite) : Nat × Option Nat := (w.workon, w.type)

/-- What `build_huffman_table` appends for a table. -/
def tableWrites (workon : Nat) (t : UInt8 × DhtTable) : List RecordWrite :=
  t.2.entries.map fun e => ⟨workon, tableType t.1, e⟩

/-- What the parser of a header appends. -/
def headerWrites (workon : Nat) (buf : List UInt8) : List RecordWrite :=
  (headerContents buf).flatMap (tableWrites workon)

/-! ## What the program records -/

/-- The headers the first loop of `main` parses, and under which numbers. -/
def countReads : Nat → List Path → Tool → List (Nat × List UInt8)
  | _, [], _ => []
  | workon, path :: paths, s =>
      match s.disk path with
      | none => []
      | some buf =>
          (workon, buf) ::
            match convertOneImage workon path s with
            | .error _ => []
            | .ok s => countReads (workon + 1) paths s

/-- The headers the second loop parses. -/
def recodeReads (u : HuffValUseful) (workon : Nat) : List Path → Tool → List (List UInt8)
  | [], _ => []
  | path :: paths, s =>
      match s.disk path with
      | none => []
      | some buf =>
          buf ::
            match writeOneImage u workon path s with
            | .error _ => []
            | .ok s => recodeReads u workon paths s

/-- The headers the second loop parses with the trees, when there are any. -/
def readsWith (names : List Path) (s : Tool) :
    Except Stop (HuffValUseful × CharBuf) → List (List UInt8)
  | .error _ => []
  | .ok trees => recodeReads trees.1 names.length names s

/-- The files as the second loop of `main` finds them. -/
def secondReads (disk : Disk) (names : List Path) (buf : CharBuf) : List (List UInt8) :=
  match countAll 0 names (.start disk) with
  | .error _ => []
  | .ok s => readsWith names s (buildTrees (buildHuffValUseful s.huffVal) buf)

/-- Everything `main` records, in its order.  In the second loop `workon` is the number of
files. -/
def mainWrites (disk : Disk) (names : List Path) (buf : CharBuf) : List RecordWrite :=
  (countReads 0 names (.start disk)).flatMap (fun r => headerWrites r.1 r.2) ++
    (secondReads disk names buf).flatMap (headerWrites names.length)

/-! ## What should hold -/

/-- The bytes of the four types, by class and id. -/
def typeIndices : List UInt8 := [0x00, 0x01, 0x10, 0x11]

/-- Tables as they should be: known classes and ids, each table once, and distinct
symbols. -/
structure ValidTables (ts : List (UInt8 × DhtTable)) : Prop where
  /-- The classes and ids are 0 or 1. -/
  typed : ∀ t ∈ ts, t.1 ∈ typeIndices
  /-- Each table is defined once. -/
  once : (ts.map Prod.fst).Nodup
  /-- The symbols are distinct. -/
  distinct : ∀ t ∈ ts, t.2.vals.Nodup

/-- The entries of a type in the tables. -/
def typeEntries (ts : List (UInt8 × DhtTable)) (type : Nat) : List OneHuff :=
  ts.flatMap fun t => if tableType t.1 = some type then t.2.entries else []

/-- The record is in order in a run of `main`. -/
structure RecordKept (disk : Disk) (names : List Path) (buf : CharBuf) : Prop where
  /-- Every slot is one of the arrays: `one_huff_num` is the number of entries before. -/
  inRange : ∀ before w after, mainWrites disk names buf = before ++ w :: after →
    w.workon < dirHuffCapacity ∧ (∃ type < 4, w.type = some type) ∧
      (held RecordWrite.key w.key before).length < huffTableCapacity
  /-- In the end the record of a file is its own entries. -/
  own : ∀ u s, main disk names buf = .ok (u, s) → ∀ i path, names[i]? = some path →
    ∀ type < 4, (held RecordWrite.key (i, some type) (mainWrites disk names buf)).map
      RecordWrite.entry = typeEntries (headerContents ((disk path).getD [])) type

/-- The files that share a number have room together. -/
structure Shared (bufs : List (List UInt8)) : Prop where
  /-- A table with entries has one of the types. -/
  typed : ∀ buf ∈ bufs, ∀ t ∈ headerContents buf, t.2.bits.sum ≠ 0 → (tableType t.1).isSome
  /-- No type has more entries than slots. -/
  room : ∀ type, (bufs.map fun buf => (typeEntries (headerContents buf) type).length).sum ≤
    huffTableCapacity

/-- The listed files have room together: their tables of a type have no more codes than there
are slots. -/
def RoomTogether (disk : Disk) (names : List Path) : Prop :=
  ∀ type < 4, (names.map fun path =>
    (typeEntries (headerContents ((disk path).getD [])) type).length).sum ≤ huffTableCapacity

/-! ## Entries of a header -/

theorem DhtTable.length_entries (c : DhtTable) : c.entries.length = c.bits.sum := by
  rw [← c.length_vals, ← map_val_huffEntries c.length_vals, List.length_map, entries]

/-- The types are the positions of the bytes. -/
theorem typeIndices_get {index : UInt8} {type : Nat} (h : tableType index = some type) :
    typeIndices[type]? = some index := by
  rw [tableType] at h
  split_ifs at h with h₀ h₁ h₂ h₃
  · obtain rfl := Option.some.inj h
    rw [h₀]
    rfl
  · obtain rfl := Option.some.inj h
    rw [h₁]
    rfl
  · obtain rfl := Option.some.inj h
    rw [h₂]
    rfl
  · obtain rfl := Option.some.inj h
    rw [h₃]
    rfl

theorem tableType_lt {index : UInt8} {type : Nat} (h : tableType index = some type) : type < 4 :=
  (List.getElem?_eq_some_iff.mp (typeIndices_get h)).1

theorem exists_tableType {index : UInt8} (h : (tableType index).isSome) :
    ∃ type < 4, tableType index = some type := by
  obtain ⟨type, htype⟩ := Option.isSome_iff_exists.mp h
  exact ⟨type, tableType_lt htype, htype⟩

theorem tableType_inj {index index' : UInt8} {type : Nat} (h : tableType index = some type)
    (h' : tableType index' = some type) : index = index' :=
  Option.some.inj ((typeIndices_get h).symm.trans (typeIndices_get h'))

theorem ValidTables.tableType_isSome {ts : List (UInt8 × DhtTable)} (h : ValidTables ts)
    {t : UInt8 × DhtTable} (ht : t ∈ ts) : (tableType t.1).isSome := by
  have hall : typeIndices.all (fun index => (tableType index).isSome) = true := by decide
  exact List.all_eq_true.mp hall t.1 (h.typed t ht)

@[simp] theorem typeEntries_cons (t : UInt8 × DhtTable) (ts : List (UInt8 × DhtTable))
    (type : Nat) : typeEntries (t :: ts) type =
      (if tableType t.1 = some type then t.2.entries else []) ++ typeEntries ts type :=
  List.flatMap_cons

/-- A type has one table, with a symbol for each entry. -/
theorem ValidTables.length_le {ts : List (UInt8 × DhtTable)} (h : ValidTables ts) (type : Nat) :
    (typeEntries ts type).length ≤ 256 := by
  induction ts with
  | nil => exact Nat.zero_le _
  | cons t ts ih =>
      have honce := List.nodup_cons.mp h.once
      have hrest := ih ⟨fun t' ht' => h.typed t' (List.mem_cons_of_mem _ ht'), honce.2,
        fun t' ht' => h.distinct t' (List.mem_cons_of_mem _ ht')⟩
      rw [typeEntries_cons, List.length_append]
      split
      next htype =>
        have hnone : typeEntries ts type = [] := by
          refine List.flatMap_eq_nil_iff.mpr fun t' ht' => if_neg fun htype' => honce.1 ?_
          exact tableType_inj htype htype' ▸ List.mem_map_of_mem ht'
        have hbyte : ByteTable t.2.bits t.2.vals :=
          ⟨t.2.length_bits, t.2.length_vals, t.2.byte, h.distinct t (List.mem_cons_self ..)⟩
        rw [hnone, List.length_nil, Nat.add_zero, DhtTable.length_entries]
        exact hbyte.sum_le
      · rwa [List.length_nil, Nat.zero_add]

theorem typeEntries_eq_nil {type : Nat} (h : ¬ type < 4) (ts : List (UInt8 × DhtTable)) :
    typeEntries ts type = [] :=
  List.flatMap_eq_nil_iff.mpr fun _ _ => if_neg fun htype => h (tableType_lt htype)

theorem tableWrites_key {workon : Nat} {t : UInt8 × DhtTable} {w : RecordWrite}
    (h : w ∈ tableWrites workon t) : w.key = (workon, tableType t.1) := by
  obtain ⟨e, _, rfl⟩ := List.mem_map.mp h
  rfl

/-- An entry comes from a table that has one. -/
theorem mem_headerWrites {workon : Nat} {buf : List UInt8} {w : RecordWrite}
    (h : w ∈ headerWrites workon buf) : w.workon = workon ∧
      ∃ t ∈ headerContents buf, t.2.bits.sum ≠ 0 ∧ w.type = tableType t.1 := by
  obtain ⟨t, ht, hw⟩ := List.mem_flatMap.mp h
  obtain ⟨e, he, rfl⟩ := List.mem_map.mp hw
  have hpos := List.length_pos_of_mem he
  rw [DhtTable.length_entries] at hpos
  exact ⟨rfl, t, ht, hpos.ne', rfl⟩

/-- The entries a header adds under a number and a type. -/
theorem held_headerWrites (workon : Nat) (buf : List UInt8) (type : Nat) :
    (held RecordWrite.key (workon, some type) (headerWrites workon buf)).map RecordWrite.entry =
      typeEntries (headerContents buf) type := by
  rw [headerWrites, held_flatMap, List.map_flatMap, typeEntries]
  refine congrArg (List.flatMap · _) (funext fun t => ?_)
  split
  next htype =>
    have hkey : ∀ w ∈ tableWrites workon t, w.key = (workon, some type) := fun w hw =>
      (tableWrites_key hw).trans (by rw [htype])
    rw [held_eq_self hkey, tableWrites, List.map_map]
    exact List.map_id _
  next htype =>
    rw [held_eq_nil fun w hw hkey => htype ?_, List.map_nil]
    exact congrArg Prod.snd ((tableWrites_key hw).symm.trans hkey)

theorem held_headerWrites_ne {workon j : Nat} (hj : workon ≠ j) (buf : List UInt8)
    (type : Option Nat) : held RecordWrite.key (j, type) (headerWrites workon buf) = [] :=
  held_eq_nil fun _ hw hkey => hj ((mem_headerWrites hw).1.symm.trans (congrArg Prod.fst hkey))

theorem length_held_headerWrites (workon : Nat) (buf : List UInt8) (type : Nat) :
    (held RecordWrite.key (workon, some type) (headerWrites workon buf)).length =
      (typeEntries (headerContents buf) type).length := by
  rw [← held_headerWrites workon, List.length_map]

/-! ## The numbers of a header -/

theorem DhtTable.read_some {stream : List UInt8} {c : DhtTable}
    (h : DhtTable.read stream = some c) : c.bits = (stream.take 16).map UInt8.toNat := by
  rw [DhtTable.read] at h
  dsimp only at h
  split at h
  · cases h
  · exact congrArg DhtTable.bits (Option.some.inj h).symm

/-- The index and the number of entries of a table. -/
def tableCount (t : UInt8 × DhtTable) : UInt8 × Nat := (t.1, t.2.bits.sum)

theorem dhtContents_counts {fuel : Nat} : ∀ {length : Int} {priv : JdecPrivate}
    {stream : List UInt8} {p : JdecPrivate × List UInt8},
    parseTables fuel length priv stream = .ok p →
      (dhtContents fuel length priv stream).map tableCount = dhtTables fuel length stream := by
  induction fuel with
  | zero => exact fun _ => rfl
  | succ fuel ih =>
      intro length priv stream p h
      rw [parseTables] at h
      cases stream with
      | nil => rfl
      | cons index stream =>
          rw [dhtContents, dhtTables]
          by_cases hlength : length ≤ 0
          · rw [if_pos hlength, if_pos hlength, List.map_nil]
          · rw [if_neg hlength] at h
            rw [if_neg hlength, if_neg hlength]
            simp only [parseTable_cons] at h
            cases hread : DhtTable.read stream with
            | none =>
                rw [hread] at h
                cases h
            | some c =>
                rw [hread, Option.bind_some] at h
                dsimp only
                cases hstore : priv.storeTable index c.bits c.vals with
                | none =>
                    rw [hstore] at h
                    cases h
                | some priv' =>
                    rw [hstore] at h
                    rw [List.map_cons, ← DhtTable.read_some hread]
                    exact congrArg _ (ih h)

theorem segmentContents_counts {marker : UInt8} {priv priv' : JdecPrivate} {stream : List UInt8}
    {len : Nat} (hlen : be16ToCpu stream = some len)
    (h : parseMarker marker priv stream = .ok priv') :
    (segmentContents marker priv stream).map tableCount =
      if marker = StdMarkers.dht then dhtTables len ((len : Int) - 2) (stream.drop 2) else [] := by
  rw [segmentContents]
  split
  next hdht =>
    subst hdht
    rw [parseMarker, if_neg (by decide), if_neg (by decide), if_pos rfl, parseDHT, hlen] at h
    rw [hlen]
    dsimp only at h ⊢
    cases htables : parseTables len ((len : Int) - 2) priv (stream.drop 2) with
    | error e =>
        rw [htables] at h
        cases h
    | ok p => exact dhtContents_counts htables
  · rfl

theorem jfifContents_counts {fuel : Nat} : ∀ {priv priv' : JdecPrivate} {bytes : List UInt8},
    parseJFIF fuel priv bytes = .ok priv' →
      (jfifContents fuel priv bytes).map tableCount = jfifTables fuel bytes := by
  induction fuel with
  | zero => exact fun h => nomatch h
  | succ fuel ih =>
      intro priv priv' bytes h
      obtain ⟨fuel₁, n, m, stream, len, priv₁, hfuel, rfl, hm, hlen, hmarker, hround⟩ :=
        parseJFIF_cases h
      obtain rfl : fuel = fuel₁ := by omega
      change (jfifContents (fuel + 1) priv (0xff :: (fill n ++ m :: stream))).map tableCount =
        jfifTables (fuel + 1) (0xff :: (fill n ++ m :: stream))
      rw [jfifContents, jfifTables, if_neg (by decide), skipFill_fill hm]
      simp only [hlen, hmarker, List.map_append, segmentContents_counts hlen hmarker]
      rcases hround with ⟨rfl, -⟩ | ⟨hne, hrun⟩
      · rfl
      · rw [if_neg hne, if_neg hne, ih hrun]
        split
        · rfl
        · rw [List.nil_append]

/-- A header that is accepted has these tables. -/
theorem headerContents_counts {buf : List UInt8} {jdec : JdecPrivate}
    (h : tinyjpegParseHeader buf = .ok jdec) :
    (headerContents buf).map tableCount = headerTables buf := by
  obtain ⟨hlen, p, hrun, -⟩ := tinyjpegParseHeader_ok h
  rw [headerContents, if_neg (Nat.not_lt.mpr hlen), headerTables, jfifContents_counts hrun]

theorem typeCount_map (ts : List (UInt8 × DhtTable)) (type : Nat) :
    typeCount (ts.map tableCount) type = (typeEntries ts type).length := by
  induction ts with
  | nil => rfl
  | cons t ts ih =>
      rw [List.map_cons, typeCount_cons, ih, typeEntries_cons, List.length_append, tableCount]
      split
      · rw [DhtTable.length_entries]
      · rfl

/-- The numbers behind a header are those of what it adds. -/
theorem num_headerTables {buf : List UInt8} {jdec : JdecPrivate}
    (h : tinyjpegParseHeader buf = .ok jdec) (workon : Nat) (r : DirRecord) (j type : Nat) :
    (r.addTables workon (headerTables buf)).num j type =
      r.num j type + (held RecordWrite.key (j, some type) (headerWrites workon buf)).length := by
  rw [DirRecord.addTables_num, ← headerContents_counts h, typeCount_map]
  by_cases hj : j = workon
  · rw [if_pos hj, hj, length_held_headerWrites]
  · rw [if_neg hj, held_headerWrites_ne (Ne.symm hj), List.length_nil]

/-- What a round of a loop adds, in front of what the later rounds add. -/
theorem num_round {buf : List UInt8} {jdec : JdecPrivate}
    (h : tinyjpegParseHeader buf = .ok jdec) {workon : Nat} {r r' : DirRecord}
    (hr : r' = r.addTables workon (headerTables buf)) (j type : Nat) (later : List RecordWrite) :
    r'.num j type + (held RecordWrite.key (j, some type) later).length = r.num j type +
      (held RecordWrite.key (j, some type) (headerWrites workon buf ++ later)).length := by
  rw [hr, num_headerTables h, held_append, List.length_append, Nat.add_assoc]

/-! ## The first loop -/

/-- A round of the first loop parses a header of the disk, which stays as it is. -/
theorem convertOneImage_inv {workon : Nat} {path : Path} {s s' : Tool}
    (h : convertOneImage workon path s = .ok s') :
    ∃ buf jdec, s.disk path = some buf ∧ tinyjpegParseHeader buf = .ok jdec ∧
      s'.disk = s.disk ∧ s'.record = s.record.addTables workon (headerTables buf) := by
  rw [convertOneImage] at h
  cases hbuf : s.disk path with
  | none =>
      rw [hbuf] at h
      cases h
  | some buf =>
      rw [hbuf] at h
      obtain ⟨jdec, hparse, h⟩ := Run.except_bind_eq_ok.mp h
      obtain ⟨v, -, h⟩ := Run.except_bind_eq_ok.mp h
      obtain rfl := Except.ok.inj h
      exact ⟨buf, jdec, rfl, hparse, rfl, rfl⟩

theorem convertOneImage_disk {workon : Nat} {path : Path} {s s' : Tool}
    (h : convertOneImage workon path s = .ok s') : s'.disk = s.disk := by
  obtain ⟨_, _, _, _, hdisk, _⟩ := convertOneImage_inv h
  exact hdisk

theorem countReads_cons {workon : Nat} {path : Path} {names : List Path} {s s' : Tool}
    {buf : List UInt8} (hbuf : s.disk path = some buf)
    (h : convertOneImage workon path s = .ok s') :
    countReads workon (path :: names) s = (workon, buf) :: countReads (workon + 1) names s' := by
  rw [countReads, hbuf]
  dsimp only
  rw [h]

theorem countAll_disk {names : List Path} : ∀ {workon : Nat} {s s' : Tool},
    countAll workon names s = .ok s' → s'.disk = s.disk := by
  induction names with
  | nil => exact fun h => (Except.ok.inj h) ▸ rfl
  | cons path names ih =>
      intro workon s s' h
      rw [countAll] at h
      obtain ⟨s₁, hrun, h⟩ := Run.except_bind_eq_ok.mp h
      exact (ih h).trans (convertOneImage_disk hrun)

theorem countAll_record {names : List Path} : ∀ {workon : Nat} {s s' : Tool},
    countAll workon names s = .ok s' → ∀ j type,
      s'.record.num j type = s.record.num j type + (held RecordWrite.key (j, some type)
        ((countReads workon names s).flatMap fun r => headerWrites r.1 r.2)).length := by
  induction names with
  | nil =>
      intro workon s s' h j type
      obtain rfl := Except.ok.inj h
      rfl
  | cons path names ih =>
      intro workon s s' h j type
      rw [countAll] at h
      obtain ⟨s₁, hrun, h⟩ := Run.except_bind_eq_ok.mp h
      obtain ⟨buf, jdec, hbuf, hparse, -, hrecord⟩ := convertOneImage_inv hrun
      rw [ih h j type, countReads_cons hbuf hrun, List.flatMap_cons]
      exact num_round hparse hrecord j type _

/-- Every file of the first loop has its own number, and its header is the one on the disk. -/
theorem countReads_spec (names : List Path) : ∀ (workon : Nat) (s : Tool),
    (countReads workon names s).Pairwise (fun r r' => r.1 < r'.1) ∧
      ∀ r ∈ countReads workon names s, workon ≤ r.1 ∧ r.1 < workon + names.length ∧
        ∃ path ∈ names, s.disk path = some r.2 := by
  induction names with
  | nil => exact fun _ _ => ⟨.nil, nofun⟩
  | cons path names ih =>
      intro workon s
      rw [countReads, List.length_cons]
      cases hbuf : s.disk path with
      | none => exact ⟨.nil, nofun⟩
      | some buf =>
          have hhere : workon ≤ workon ∧ workon < workon + (names.length + 1) ∧
              ∃ p ∈ path :: names, s.disk p = some buf :=
            ⟨Nat.le_refl _, by omega, path, List.mem_cons_self .., hbuf⟩
          dsimp only
          cases hrun : convertOneImage workon path s with
          | error e => exact ⟨List.pairwise_singleton .., List.forall_mem_singleton.mpr hhere⟩
          | ok s' =>
              obtain ⟨hpairwise, hrest⟩ := ih (workon + 1) s'
              dsimp only
              rw [List.pairwise_cons, List.forall_mem_cons]
              refine ⟨⟨fun r hr => (hrest r hr).1, hpairwise⟩, hhere, fun r hr => ?_⟩
              obtain ⟨hlow, hhigh, p, hp, hdisk⟩ := hrest r hr
              rw [convertOneImage_disk hrun] at hdisk
              exact ⟨by omega, by omega, p, List.mem_cons_of_mem _ hp, hdisk⟩

/-- A loop that gets through has parsed every header. -/
theorem countReads_ok {names : List Path} : ∀ {workon : Nat} {s s' : Tool},
    countAll workon names s = .ok s' → ∀ {i : Nat} {path : Path}, names[i]? = some path →
      ∃ buf, s.disk path = some buf ∧ (workon + i, buf) ∈ countReads workon names s := by
  induction names with
  | nil => exact fun _ _ _ h => nomatch h
  | cons path names ih =>
      intro workon s s' h i p hi
      rw [countAll] at h
      obtain ⟨s₁, hrun, h⟩ := Run.except_bind_eq_ok.mp h
      obtain ⟨buf, jdec, hbuf, -, hdisk, -⟩ := convertOneImage_inv hrun
      rw [countReads_cons hbuf hrun]
      cases i with
      | zero =>
          obtain rfl := Option.some.inj hi
          exact ⟨buf, hbuf, List.mem_cons_self ..⟩
      | succ i =>
          obtain ⟨buf', hbuf', hmem⟩ := ih h hi
          rw [hdisk] at hbuf'
          refine ⟨buf', hbuf', List.mem_cons_of_mem _ ?_⟩
          rwa [show workon + (i + 1) = workon + 1 + i by omega]

section
variable {reads : List (Nat × List UInt8)}

/-- What headers with different numbers add under one of them. -/
theorem held_reads (hnumbers : reads.Pairwise fun r r' => r.1 < r'.1) {j : Nat} {buf : List UInt8}
    (hmem : (j, buf) ∈ reads) (type : Nat) :
    held RecordWrite.key (j, some type) (reads.flatMap fun r => headerWrites r.1 r.2) =
      held RecordWrite.key (j, some type) (headerWrites j buf) := by
  induction reads with
  | nil => cases hmem
  | cons r reads ih =>
      obtain ⟨hfirst, hrest⟩ := List.pairwise_cons.mp hnumbers
      rw [List.flatMap_cons, held_append]
      cases List.mem_cons.mp hmem with
      | inl heq =>
          have hlater : held RecordWrite.key (j, some type)
              (reads.flatMap fun r => headerWrites r.1 r.2) = [] := by
            rw [held_flatMap]
            refine List.flatMap_eq_nil_iff.mpr fun r' hr' => held_headerWrites_ne ?_ ..
            have hlt := hfirst r' hr'
            rw [← heq] at hlt
            exact (Nat.ne_of_lt hlt).symm
          rw [hlater, List.append_nil, ← heq]
      | inr hlater =>
          rw [held_headerWrites_ne (Nat.ne_of_lt (hfirst _ hlater)), List.nil_append]
          exact ih hrest hlater

theorem held_reads_none {j : Nat} (hne : ∀ r ∈ reads, r.1 ≠ j) (type : Option Nat) :
    held RecordWrite.key (j, type) (reads.flatMap fun r => headerWrites r.1 r.2) = [] := by
  rw [held_flatMap]
  exact List.flatMap_eq_nil_iff.mpr fun r hr => held_headerWrites_ne (hne r hr) ..

end

/-! ## The second loop -/

/-- A round of the second loop parses a header of the disk and writes the output. -/
theorem writeOneImage_inv {u : HuffValUseful} {workon : Nat} {path : Path} {s s' : Tool}
    (h : writeOneImage u workon path s = .ok s') :
    ∃ buf jdec out, s.disk path = some buf ∧ tinyjpegParseHeader buf = .ok jdec ∧
      s'.disk = Function.update s.disk (outputPath path) out ∧
      s'.record = s.record.addTables workon (headerTables buf) := by
  rw [writeOneImage] at h
  cases hbuf : s.disk path with
  | none =>
      rw [hbuf] at h
      cases h
  | some buf =>
      rw [hbuf] at h
      obtain ⟨w, hscan, h⟩ := Run.except_bind_eq_ok.mp h
      obtain ⟨files, -, h⟩ := Run.except_bind_eq_ok.mp h
      obtain ⟨jdec, hparse, -⟩ := Run.except_bind_eq_ok.mp hscan
      obtain rfl := Except.ok.inj h
      exact ⟨buf, jdec, _, rfl, hparse, rfl, rfl⟩

theorem recodeReads_cons {u : HuffValUseful} {workon : Nat} {path : Path} {names : List Path}
    {s s' : Tool} {buf : List UInt8} (hbuf : s.disk path = some buf)
    (h : writeOneImage u workon path s = .ok s') :
    recodeReads u workon (path :: names) s = buf :: recodeReads u workon names s' := by
  rw [recodeReads, hbuf]
  dsimp only
  rw [h]

theorem recodeAll_record {u : HuffValUseful} {workon : Nat} {names : List Path} :
    ∀ {s s' : Tool}, recodeAll u workon names s = .ok s' → ∀ j type,
      s'.record.num j type = s.record.num j type + (held RecordWrite.key (j, some type)
        ((recodeReads u workon names s).flatMap (headerWrites workon))).length := by
  induction names with
  | nil =>
      intro s s' h j type
      obtain rfl := Except.ok.inj h
      rfl
  | cons path names ih =>
      intro s s' h j type
      rw [recodeAll] at h
      obtain ⟨s₁, hrun, h⟩ := Run.except_bind_eq_ok.mp h
      obtain ⟨buf, jdec, out, hbuf, hparse, -, hrecord⟩ := writeOneImage_inv hrun
      rw [ih h j type, recodeReads_cons hbuf hrun, List.flatMap_cons]
      exact num_round hparse hrecord j type _

/-- A second loop that gets through and does not write over a listed file finds what the
disk had. -/
theorem recodeReads_ok {u : HuffValUseful} {workon : Nat} {disk : Disk} {names : List Path} :
    ∀ {s s' : Tool}, recodeAll u workon names s = .ok s' →
      (∀ path ∈ names, s.disk path = disk path) →
      (∀ p ∈ names, ∀ q ∈ names, q ≠ outputPath p) →
      recodeReads u workon names s = names.map fun path => (disk path).getD [] := by
  induction names with
  | nil => exact fun _ _ _ => rfl
  | cons path names ih =>
      intro s s' h hdisk hfree
      rw [recodeAll] at h
      obtain ⟨s₁, hrun, h⟩ := Run.except_bind_eq_ok.mp h
      obtain ⟨buf, jdec, out, hbuf, -, hwritten, -⟩ := writeOneImage_inv hrun
      have hhere := hdisk path (List.mem_cons_self ..)
      rw [recodeReads_cons hbuf hrun, List.map_cons, ← hhere, hbuf, Option.getD_some]
      refine congrArg (buf :: ·) (ih h (fun q hq => ?_) fun p hp q hq =>
        hfree p (List.mem_cons_of_mem _ hp) q (List.mem_cons_of_mem _ hq))
      have hne := hfree path (List.mem_cons_self ..) q (List.mem_cons_of_mem _ hq)
      rw [hwritten, Function.update_of_ne hne]
      exact hdisk q (List.mem_cons_of_mem _ hq)

/-! ## The whole run -/

section
variable {disk : Disk} {names : List Path} {buf : CharBuf}

/-- A run to the end: both loops, and the trees between them. -/
theorem main_inv {u : HuffValUseful} {s : Tool} (h : main disk names buf = .ok (u, s)) :
    ∃ s₁ cbuf, countAll 0 names (.start disk) = .ok s₁ ∧
      buildTrees (buildHuffValUseful s₁.huffVal) buf = .ok (u, cbuf) ∧
      recodeAll u names.length names s₁ = .ok s := by
  rw [main] at h
  obtain ⟨s₁, hcount, h⟩ := Run.except_bind_eq_ok.mp h
  obtain ⟨⟨u', cbuf⟩, htrees, h⟩ := Run.except_bind_eq_ok.mp h
  obtain ⟨s₂, hrecode, h⟩ := Run.except_bind_eq_ok.mp h
  injection h with h
  injection h with hu hs
  subst hu hs
  exact ⟨s₁, cbuf, hcount, htrees, hrecode⟩

/-- What the second loop adds is under the number behind the files. -/
theorem held_secondReads_ne {j : Nat} (hj : names.length ≠ j) (type : Option Nat) :
    held RecordWrite.key (j, type)
      ((secondReads disk names buf).flatMap (headerWrites names.length)) = [] := by
  rw [held_flatMap]
  exact List.flatMap_eq_nil_iff.mpr fun _ _ => held_headerWrites_ne hj ..

theorem length_held_shared (workon : Nat) (bufs : List (List UInt8)) (type : Nat) :
    (held RecordWrite.key (workon, some type) (bufs.flatMap (headerWrites workon))).length =
      (bufs.map fun buf => (typeEntries (headerContents buf) type).length).sum := by
  rw [held_flatMap, List.length_flatMap]
  exact congrArg (fun f => (bufs.map f).sum)
    (funext fun buf => length_held_headerWrites workon buf type)

/-- In a run to the end in which no listed file is the output of another, all the files
share the number. -/
theorem secondReads_eq {u : HuffValUseful} {s : Tool} (h : main disk names buf = .ok (u, s))
    (hfree : ∀ p ∈ names, ∀ q ∈ names, q ≠ outputPath p) :
    secondReads disk names buf = names.map fun path => (disk path).getD [] := by
  obtain ⟨s₁, cbuf, hcount, htrees, hrecode⟩ := main_inv h
  have hdisk : s₁.disk = disk := countAll_disk hcount
  have hreads := recodeReads_ok hrecode (fun path _ => congrFun hdisk path) hfree
  rw [secondReads, hcount]
  dsimp only
  rw [htrees, readsWith, hreads]

/-- The numbers of the record are the numbers of entries. -/
theorem main_record {u : HuffValUseful} {s : Tool} (h : main disk names buf = .ok (u, s))
    (j type : Nat) :
    s.record.num j type =
      (held RecordWrite.key (j, some type) (mainWrites disk names buf)).length := by
  obtain ⟨s₁, cbuf, hcount, htrees, hrecode⟩ := main_inv h
  have hfirst := countAll_record hcount j type
  have hsecond := recodeAll_record hrecode j type
  rw [mainWrites, held_append, List.length_append, secondReads, hcount]
  dsimp only
  rw [htrees, readsWith, hsecond, hfirst]
  exact congrArg (· + _) (Nat.zero_add _)

/-- The entries of a file are those of its own tables. -/
theorem own_entries {u : HuffValUseful} {s : Tool} (h : main disk names buf = .ok (u, s)) {i : Nat}
    {path : Path} (hi : names[i]? = some path) (type : Nat) :
    (held RecordWrite.key (i, some type) (mainWrites disk names buf)).map RecordWrite.entry =
      typeEntries (headerContents ((disk path).getD [])) type := by
  obtain ⟨s', -, hcount, -⟩ := main_inv h
  obtain ⟨bytes, hbytes, hmem⟩ := countReads_ok hcount hi
  have hlt : i < names.length := (List.getElem?_eq_some_iff.mp hi).1
  have hdisk : disk path = some bytes := hbytes
  rw [Nat.zero_add] at hmem
  rw [mainWrites, held_append, held_secondReads_ne (Nat.ne_of_gt hlt), List.append_nil,
    held_reads (countReads_spec names 0 _).1 hmem, held_headerWrites, hdisk, Option.getD_some]

/-- A file of the first loop has few entries. -/
theorem length_held_first (hvalid : ∀ path ∈ names, ∀ bytes, disk path = some bytes →
    ValidTables (headerContents bytes)) (j type : Nat) :
    (held RecordWrite.key (j, some type) ((countReads 0 names (.start disk)).flatMap
      fun r => headerWrites r.1 r.2)).length ≤ 256 := by
  obtain ⟨hnumbers, hreads⟩ := countReads_spec names 0 (.start disk)
  by_cases hj : ∃ bytes, (j, bytes) ∈ countReads 0 names (.start disk)
  · obtain ⟨bytes, hmem⟩ := hj
    obtain ⟨-, -, path, hpath, hdisk⟩ := hreads _ hmem
    rw [held_reads hnumbers hmem, length_held_headerWrites]
    exact (hvalid path hpath bytes hdisk).length_le type
  · have hne : ∀ r ∈ countReads 0 names (.start disk), r.1 ≠ j := by
      rintro ⟨_, bytes⟩ hmem rfl
      exact hj ⟨bytes, hmem⟩
    rw [held_reads_none hne]
    exact Nat.zero_le _

/-- In the first loop nothing is added under the number behind the files. -/
theorem held_first_behind (type : Option Nat) : held RecordWrite.key (names.length, type)
    ((countReads 0 names (.start disk)).flatMap fun r => headerWrites r.1 r.2) = [] := by
  refine held_reads_none (fun r hr => ?_) type
  have hlt := ((countReads_spec names 0 (.start disk)).2 r hr).2.1
  omega

/-- When the files have room under that number, there is room under every number. -/
theorem Shared.length_held (h : Shared (secondReads disk names buf))
    (hvalid : ∀ path ∈ names, ∀ bytes, disk path = some bytes →
      ValidTables (headerContents bytes)) (j type : Nat) :
    (held RecordWrite.key (j, some type) (mainWrites disk names buf)).length ≤
      huffTableCapacity := by
  rw [mainWrites, held_append]
  by_cases hj : names.length = j
  · rw [← hj, held_first_behind, List.nil_append, length_held_shared]
    exact h.room type
  · rw [held_secondReads_ne hj, List.append_nil]
    exact (length_held_first hvalid j type).trans (by decide)

/-- Then every entry has a number of `main` and a type. -/
theorem Shared.typed_of_mem (h : Shared (secondReads disk names buf))
    (hvalid : ∀ path ∈ names, ∀ bytes, disk path = some bytes →
      ValidTables (headerContents bytes)) {w : RecordWrite} (hw : w ∈ mainWrites disk names buf) :
    w.workon ≤ names.length ∧ ∃ type < 4, w.type = some type := by
  rcases List.mem_append.mp hw with hw | hw
  · obtain ⟨r, hr, hw⟩ := List.mem_flatMap.mp hw
    obtain ⟨hworkon, t, ht, -, htype⟩ := mem_headerWrites hw
    obtain ⟨-, hlt, path, hpath, hdisk⟩ := (countReads_spec names 0 (.start disk)).2 r hr
    rw [htype]
    exact ⟨by omega, exists_tableType ((hvalid path hpath r.2 hdisk).tableType_isSome ht)⟩
  · obtain ⟨bytes, hbytes, hw⟩ := List.mem_flatMap.mp hw
    obtain ⟨hworkon, t, ht, hentries, htype⟩ := mem_headerWrites hw
    rw [htype]
    exact ⟨hworkon.le, exists_tableType (h.typed bytes hbytes t ht hentries)⟩

/-- The listed files share a number when they have room together. -/
theorem shared_iff_roomTogether (hvalid : ∀ path ∈ names, ∀ bytes, disk path = some bytes →
    ValidTables (headerContents bytes)) :
    Shared (names.map fun path => (disk path).getD []) ↔ RoomTogether disk names := by
  constructor
  · intro h type _
    have hroom := h.room type
    rw [List.map_map] at hroom
    exact hroom
  · intro h
    refine ⟨List.forall_mem_map.mpr fun path hpath t ht _ => ?_, fun type => ?_⟩
    · cases hdisk : disk path with
      | none =>
          rw [hdisk] at ht
          cases ht
      | some bytes =>
          rw [hdisk] at ht
          exact (hvalid path hpath bytes hdisk).tableType_isSome ht
    · rw [List.map_map]
      by_cases htype : type < 4
      · exact h type htype
      · have hnone : (names.map fun path =>
            (typeEntries (headerContents ((disk path).getD [])) type).length).sum = 0 := by
          simp [typeEntries_eq_nil htype]
        exact hnone.le.trans (Nat.zero_le _)

theorem recordKept_iff_shared (hlen : names.length ≤ 32766)
    (hvalid : ∀ path ∈ names, ∀ bytes, disk path = some bytes →
      ValidTables (headerContents bytes)) :
    RecordKept disk names buf ↔ Shared (secondReads disk names buf) := by
  constructor
  · intro h
    refine ⟨fun bytes hbytes t ht hentries => ?_, fun type => ?_⟩
    · obtain ⟨e, he⟩ := List.exists_mem_of_ne_nil t.2.entries fun hnil => hentries (by
        rw [← t.2.length_entries, hnil, List.length_nil])
      have hw : ⟨names.length, tableType t.1, e⟩ ∈ mainWrites disk names buf :=
        List.mem_append_right _ (List.mem_flatMap.mpr ⟨bytes, hbytes,
          List.mem_flatMap.mpr ⟨t, ht, List.mem_map_of_mem he⟩⟩)
      obtain ⟨before, after, hsplit⟩ := List.append_of_mem hw
      obtain ⟨-, ⟨type, -, htype⟩, -⟩ := h.inRange before _ after hsplit
      exact Option.isSome_iff_exists.mpr ⟨type, htype⟩
    · rw [← length_held_shared names.length]
      have hplaces : (held RecordWrite.key (names.length, some type)
          (mainWrites disk names buf)).length ≤ huffTableCapacity :=
        places_lt_iff.mp fun before w after hsplit hkey => by
          rw [← hkey]
          exact (h.inRange before w after hsplit).2.2
      rwa [mainWrites, held_append, held_first_behind, List.nil_append] at hplaces
  · intro h
    refine ⟨fun before w after hsplit => ?_, fun u s hrun i path hi type _ =>
      own_entries hrun hi type⟩
    have hw : w ∈ mainWrites disk names buf := by
      rw [hsplit]
      simp
    obtain ⟨hworkon, type, hlt, htype⟩ := h.typed_of_mem hvalid hw
    have hkey : w.key = (w.workon, some type) := by rw [RecordWrite.key, htype]
    refine ⟨?_, ⟨type, hlt, htype⟩, ?_⟩
    · rw [dirHuffCapacity]
      omega
    · rw [hkey]
      exact places_lt_iff.mpr (h.length_held hvalid w.workon type) before w after hsplit hkey

/-- The record is in order exactly when the files the second loop finds have room under
the one number they share.  In a run to the end in which no listed file is the output of
another, these are the listed files. -/
theorem record_kept_iff (hlen : names.length ≤ 32766)
    (hvalid : ∀ path ∈ names, ∀ bytes, disk path = some bytes →
      ValidTables (headerContents bytes)) (buf : CharBuf) :
    (RecordKept disk names buf ↔ Shared (secondReads disk names buf)) ∧
      ((∀ p ∈ names, ∀ q ∈ names, q ≠ outputPath p) →
        (∃ u s, main disk names buf = .ok (u, s)) →
          (RecordKept disk names buf ↔ RoomTogether disk names)) := by
  refine ⟨recordKept_iff_shared hlen hvalid, fun hfree hrun => ?_⟩
  obtain ⟨u, s, hrun⟩ := hrun
  rw [recordKept_iff_shared hlen hvalid, secondReads_eq hrun hfree]
  exact shared_iff_roomTogether hvalid

end

/-- The tables of an image in a directory of its own. -/
theorem record_kept_whole : RecordKept (fun _ => some wholeFile) [someName] fun _ => '0' := by
  have hvalid : ValidTables (headerContents wholeFile) :=
    ⟨by decide +kernel, by decide +kernel, by decide +kernel⟩
  have hok : (main (fun _ => some wholeFile) [someName] fun _ => '0').isOk = true := by
    decide +kernel
  refine ((record_kept_iff (by decide) (fun _ _ bytes hbytes => ?_) _).2 (by decide) ?_).mpr
    fun type _ => ?_
  · rwa [← Option.some.inj hbytes]
  · cases hrun : main (fun _ => some wholeFile) [someName] fun _ => '0' with
    | error e =>
        rw [hrun] at hok
        cases hok
    | ok p => exact ⟨p.1, p.2, rfl⟩
  · have hle := hvalid.length_le type
    rw [List.map_singleton, List.sum_singleton, huffTableCapacity, Option.getD_some]
    omega

/-! ## Seven images -/

/-- A table of one DC code and one of 162 AC codes. -/
def manyCodes : Segment where
  marker := StdMarkers.dht
  payload := 0x00 :: 1 :: List.replicate 15 0 ++ [0] ++
    0x10 :: [1, 0, 0, 0, 0, 0, 0, 0, 161, 0, 0, 0, 0, 0, 0, 0] ++
      (List.range 162).map UInt8.ofNat
  marker_ne := smallTable.marker_ne
  fits := by decide +kernel

/-- An image with these tables. -/
def manyCodesFile : List UInt8 := headerFile [smallFrame 0 1 2, manyCodes] ++ [0x03, 0xff, 0xd9]

/-- The names `a.jpg` to `g.jpg`. -/
def sevenNames : List Path := ['a', 'b', 'c', 'd', 'e', 'f', 'g'].map fun c => c :: outputPath []

/-- A directory of seven copies. -/
def sevenFiles : Disk := fun path => if path ∈ sevenNames then some manyCodesFile else none

theorem sevenFiles_some {path : Path} {bytes : List UInt8} (h : sevenFiles path = some bytes) :
    bytes = manyCodesFile := by
  rw [sevenFiles] at h
  split at h
  · exact (Option.some.inj h).symm
  · cases h

/-- Valid tables of 162 AC codes are too many for seven files: together they are 1134. -/
theorem seven_overflow : sevenNames.length ≤ 32766 ∧
    (∀ path ∈ sevenNames, ∀ bytes, sevenFiles path = some bytes →
      ValidTables (headerContents bytes)) ∧
    ¬ RecordKept sevenFiles sevenNames fun _ => '0' := by
  refine ⟨by decide, fun path _ bytes hbytes => ?_, fun h => ?_⟩
  · rw [sevenFiles_some hbytes]
    exact ⟨by decide +kernel, by decide +kernel, by decide +kernel⟩
  · have hmany : huffTableCapacity < (held RecordWrite.key (7, some 2)
        (mainWrites sevenFiles sevenNames fun _ => '0')).length := by
      decide +kernel
    refine Nat.not_le_of_lt hmany (places_lt_iff.mp fun before w after hsplit hkey => ?_)
    rw [← hkey]
    exact (h.inRange before w after hsplit).2.2

end Recode
