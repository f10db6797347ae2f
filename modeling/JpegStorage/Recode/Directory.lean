import JpegStorage.Recode.OutputFile
import JpegStorage.Recode.PassState

/-!
# The order of the files

`main` lists the images of a directory, counts the symbols of all of them, makes the
new tables and recodes one image after the other.  The counts, the bits that wait, the
handles and the record of the tables are globals.

What an image adds to the counts does not depend on the counts, and no bits wait when
the next image is recoded, even if the end of the input stopped the last one.  So the
order does not matter as long as no image is the output file of another
(`recoding_order_irrelevant`).  The output file of `a.jpg` is `a.jpg.jpg`, and its name
makes it an image.
-/

namespace Recode

open Run Segments

/-! ## Files -/

/-- A `FullPathName`. -/
abbrev Path := List Char

/-- The bytes of the files. -/
abbrev Disk := Path → Option (List UInt8)

/-- `strcat(path,".jpg")`. -/
def outputPath (path : Path) : Path := path ++ ['.', 'j', 'p', 'g']

/-! ## The record of the tables -/

/-- The capacity of `huff_table`. -/
def huffTableCapacity : Nat := 1024

/-- The capacity of `dir_huff`. -/
def dirHuffCapacity : Nat := 32767

/-- `Dir_Record`.  Nothing reads the entries, so there is only their number. -/
structure DirRecord where
  /-- `one_huff_num` of a file and a type. -/
  num : Nat → Nat → Nat
  /-- A table of none of the four types was recorded.  Its `type` is not initialised. -/
  untyped : Bool

/-- The `type` of `parse_DHT`. -/
def tableType (index : UInt8) : Option Nat :=
  if index = 0x00 then some 0
  else if index = 0x01 then some 1
  else if index = 0x10 then some 2
  else if index = 0x11 then some 3
  else none

/-- `build_huffman_table` records the codes of a table with this index and number of
codes under `workon`. -/
def DirRecord.addTable (workon : Nat) (r : DirRecord) (table : UInt8 × Nat) : DirRecord :=
  match tableType table.1 with
  | none => { r with untyped := true }
  | some type =>
      { r with num := Function.update r.num workon
                 (Function.update (r.num workon) type (r.num workon type + table.2)) }

/-- The tables of a file. -/
def DirRecord.addTables (workon : Nat) (tables : List (UInt8 × Nat)) (r : DirRecord) : DirRecord :=
  tables.foldl (DirRecord.addTable workon) r

/-- An entry was written outside of the arrays.  An entry goes behind those there are,
so the numbers tell. -/
def DirRecord.Outside (r : DirRecord) : Prop :=
  r.untyped = true ∨ ∃ workon type, huffTableCapacity < r.num workon type ∨
    (dirHuffCapacity ≤ workon ∧ 0 < r.num workon type)

/-- The index and the number of codes of each table `parse_DHT` reads. -/
def dhtTables : Nat → Int → List UInt8 → List (UInt8 × Nat)
  | fuel + 1, length, index :: stream =>
      if length ≤ 0 then []
      else
        let count := ((stream.take 16).map UInt8.toNat).sum
        (index, count) :: dhtTables fuel (length - 1 - 16 - count) (stream.drop (16 + count))
  | _, _, _ => []

/-- The tables `parse_JFIF` comes to. -/
def jfifTables : Nat → List UInt8 → List (UInt8 × Nat)
  | fuel + 1, _ :: stream =>
      match skipFill stream with
      | [] => []
      | marker :: stream =>
          match be16ToCpu stream with
          | none => []
          | some chuckLen =>
              if marker = StdMarkers.sos then []
              else if marker = StdMarkers.dht then
                dhtTables chuckLen ((chuckLen : Int) - 2) (stream.drop 2) ++
                  jfifTables fuel (stream.drop chuckLen)
              else jfifTables fuel (stream.drop chuckLen)
  | _, _ => []

/-- The tables of a file. -/
def headerTables (buf : List UInt8) : List (UInt8 × Nat) := jfifTables buf.length (buf.drop 2)

/-! ## The program -/

/-- The globals, and the files. -/
structure Tool where
  /-- The files. -/
  disk : Disk
  /-- `huff_val`. -/
  huffVal : HuffVal
  /-- `Dir_Record`. -/
  record : DirRecord
  /-- The handles and the bits that wait. -/
  files : Files
  /-- What follows the scan of each image: the padded byte and the end of image, which
  go to a closed handle. -/
  ends : Path → List Nat

/-- The start of the program. -/
def Tool.start (disk : Disk) : Tool where
  disk := disk
  huffVal := fun _ _ => 0
  record := ⟨fun _ _ => 0, false⟩
  files := .start
  ends := fun _ => []

/-- `convert_one_image`. -/
def convertOneImage (workon : Nat) (path : Path) (s : Tool) : Except Stop Tool :=
  match s.disk path with
  | none => .error .exit
  | some buf => do
      let jdec ← tinyjpegParseHeader buf
      let huffVal ← passOneImage jdec s.huffVal
      .ok { s with huffVal := huffVal, record := s.record.addTables workon (headerTables buf) }

/-- The first loop of `main`. -/
def countAll : Nat → List Path → Tool → Except Stop Tool
  | _, [], s => .ok s
  | workon, path :: paths, s => do
      let s ← convertOneImage workon path s
      countAll (workon + 1) paths s

/-- A round of the second loop of `main`.  All of its images have the type 0.  The header
is parsed again, and `workon` is what the first loop left. -/
def writeOneImage (u : HuffValUseful) (workon : Nat) (path : Path) (s : Tool) : Except Stop Tool :=
  match s.disk path with
  | none => .error .exit
  | some buf => do
      let w ← recodedScan buf 0 u s.files.stream s.files.bits
      let files ← writeNewDataConvertOneImage (some buf) 0 u s.files
      .ok { s with disk := Function.update s.disk (outputPath path) (some files.fpdat.bytes),
                   record := s.record.addTables workon (headerTables buf), files := files,
                   ends := Function.update s.ends path (w.finalBytes ++ [0xff, 0xd9]) }

/-- The second loop of `main`. -/
def recodeAll (u : HuffValUseful) (workon : Nat) : List Path → Tool → Except Stop Tool
  | [], s => .ok s
  | path :: paths, s => do
      let s ← writeOneImage u workon path s
      recodeAll u workon paths s

/-- `main`, with the names in the order they are listed. -/
def main (disk : Disk) (names : List Path) (buf : CharBuf) :
    Except Stop (HuffValUseful × Tool) := do
  let s ← countAll 0 names (.start disk)
  let trees ← buildTrees (buildHuffValUseful s.huffVal) buf
  let s ← recodeAll trees.1 names.length names s
  .ok (trees.1, s)

/-- Two runs stop, or they make the same tables and write the same: every output file
and what follows its scan.  An entry of the record goes outside in both or in none. -/
inductive SameRecoding :
    Except Stop (HuffValUseful × Tool) → Except Stop (HuffValUseful × Tool) → Prop where
  | stops {e e' : Stop} : SameRecoding (.error e) (.error e')
  | done {u : HuffValUseful} {s s' : Tool} (disk : s.disk = s'.disk) (ends : s.ends = s'.ends)
      (outside : s.record.Outside ↔ s'.record.Outside) : SameRecoding (.ok (u, s)) (.ok (u, s'))

/-! ## The first pass -/

/-- The sum of two counts. -/
def HuffVal.add (v w : HuffVal) : HuffVal := fun type code => v type code + w type code

theorem tinyjpegDecode_related {R : HuffVal → HuffVal → Prop} (hR : HooksRel R countHooks countHooks)
    (priv : JdecPrivate) :
    Related (ScanRel R) (tinyjpegDecode priv) (tinyjpegDecode priv) := by
  rw [tinyjpegDecode]
  split
  · exact Related.bind (fun _ _ hs => .ok (hs.resync priv)) fun _ => mcuLoop_related hR priv _ _
  · exact .throw _

/-- Counting goes on from any counts as it does from others. -/
theorem countHooks_add (v : HuffVal) :
    HooksRel (fun w w' => w' = v.add w) countHooks countHooks where
  symbol type code := by
    rintro w _ rfl
    refine .ok (funext fun t => funext fun c => ?_)
    simp only [HuffVal.add]
    split <;> omega
  magnitude _ := .pure _
  rst _ := .pure _

/-- What an image adds to the counts does not depend on them. -/
theorem passOneImage_add (priv : JdecPrivate) (v w : HuffVal) :
    passOneImage priv (v.add w) = (passOneImage priv w).map v.add := by
  have hrel := tinyjpegDecode_related (countHooks_add v) priv _ _
    (ScanRel.start priv (show v.add w = v.add w from rfl))
  rw [passOneImage, passOneImage]
  generalize (tinyjpegDecode priv).run (Scan.start priv w) = r at hrel ⊢
  generalize (tinyjpegDecode priv).run (Scan.start priv (v.add w)) = r' at hrel ⊢
  cases hrel with
  | ok hs => exact congrArg Except.ok hs.out
  | @error e _ _ hs =>
      cases e with
      | eio => exact congrArg Except.ok hs.out
      | exit => rfl
      | undefined => rfl
      | stuck => rfl

/-- What a file adds to the counts. -/
def imageCounts (disk : Disk) (path : Path) : Except Stop HuffVal :=
  match disk path with
  | none => .error .exit
  | some buf => do
      let jdec ← tinyjpegParseHeader buf
      passOneImage jdec fun _ _ => 0

/-- The tables of a file of the disk. -/
def diskTables (disk : Disk) (path : Path) : List (UInt8 × Nat) :=
  headerTables ((disk path).getD [])

theorem convertOneImage_eq (workon : Nat) (path : Path) (s : Tool) :
    convertOneImage workon path s = (imageCounts s.disk path).map fun v =>
      { s with huffVal := s.huffVal.add v,
               record := s.record.addTables workon (diskTables s.disk path) } := by
  rw [convertOneImage, imageCounts, diskTables]
  cases s.disk path with
  | none => rfl
  | some buf =>
      dsimp only [Option.getD_some]
      cases tinyjpegParseHeader buf with
      | error e => rfl
      | ok jdec =>
          have hzero : s.huffVal = s.huffVal.add fun _ _ => 0 := rfl
          rw [ok_bind, ok_bind, hzero, passOneImage_add]
          cases passOneImage jdec fun _ _ => 0 <;> rfl

/-- What the files add together. -/
def totalCounts (disk : Disk) (names : List Path) : HuffVal := fun type code =>
  (names.map fun path => match imageCounts disk path with
    | .ok v => v type code
    | .error _ => 0).sum

/-- The record with the tables of files under numbers from `workon` on. -/
def recordAll (tables : Path → List (UInt8 × Nat)) : Nat → List Path → DirRecord → DirRecord
  | _, [], r => r
  | workon, path :: paths, r =>
      recordAll tables (workon + 1) paths (r.addTables workon (tables path))

/-- The record with the tables of files under one number. -/
def recordAgain (tables : Path → List (UInt8 × Nat)) (workon : Nat) (names : List Path)
    (r : DirRecord) : DirRecord :=
  names.foldl (fun r path => r.addTables workon (tables path)) r

@[simp] theorem recordAgain_cons (tables : Path → List (UInt8 × Nat)) (workon : Nat) (path : Path)
    (names : List Path) (r : DirRecord) :
    recordAgain tables workon (path :: names) r =
      recordAgain tables workon names (r.addTables workon (tables path)) := rfl

/-- The first loop gets through when every file can be read. -/
theorem countAll_ok {names : List Path} : ∀ (workon : Nat) (s : Tool),
    (∀ path ∈ names, ∃ v, imageCounts s.disk path = .ok v) →
    countAll workon names s = .ok
      { s with huffVal := s.huffVal.add (totalCounts s.disk names),
               record := recordAll (diskTables s.disk) workon names s.record } := by
  induction names with
  | nil => exact fun _ _ _ => rfl
  | cons path names ih =>
      intro workon s hread
      obtain ⟨v, hv⟩ := hread path (List.mem_cons_self ..)
      rw [countAll, convertOneImage_eq, hv]
      simp only [Except.map, ok_bind]
      have hrest := ih (workon + 1)
        { s with huffVal := s.huffVal.add v,
                 record := s.record.addTables workon (diskTables s.disk path) }
        fun p hp => hread p (List.mem_cons_of_mem _ hp)
      have hsum : (s.huffVal.add v).add (totalCounts s.disk names) =
          s.huffVal.add (totalCounts s.disk (path :: names)) := by
        funext type code
        simp only [HuffVal.add, totalCounts, List.map_cons, List.sum_cons, hv, Nat.add_assoc]
      rw [hrest, hsum]
      rfl

theorem countAll_error {names : List Path} {path : Path} (hpath : path ∈ names) :
    ∀ (workon : Nat) (s : Tool) {e : Stop}, imageCounts s.disk path = .error e →
      ∃ e', countAll workon names s = .error e' := by
  induction names with
  | nil => cases hpath
  | cons path' names ih =>
      intro workon s e he
      rw [countAll, convertOneImage_eq]
      cases hv : imageCounts s.disk path' with
      | error e' => exact ⟨e', rfl⟩
      | ok v =>
          simp only [Except.map, ok_bind]
          cases List.mem_cons.mp hpath with
          | inl heq =>
              rw [heq, hv] at he
              cases he
          | inr hmem => exact ih hmem _ _ he

theorem totalCounts_perm (disk : Disk) {names names' : List Path} (hperm : names.Perm names') :
    totalCounts disk names = totalCounts disk names' :=
  funext fun _ => funext fun _ => (hperm.map _).sum_nat

/-! ## The second pass -/

/-- What is written of a file.  No bits wait at its start. -/
def recodedFile (u : HuffValUseful) (disk : Disk) (path : Path) : Except Stop Writer :=
  match disk path with
  | none => .error .exit
  | some buf => recodedScan buf 0 u 0 0

/-- No bits wait. -/
def Tool.Flushed (s : Tool) : Prop := s.files.stream = 0 ∧ s.files.bits = 0

/-- The image behind this one. -/
def Tool.recoded (s : Tool) (workon : Nat) (path : Path) (w : Writer) : Tool :=
  { s with disk := Function.update s.disk (outputPath path) (some w.out),
           record := s.record.addTables workon (diskTables s.disk path),
           files := ⟨⟨false, (s.disk path).getD [], true⟩, ⟨false, (s.disk path).getD [], false⟩,
             ⟨false, w.out, false⟩, 0, 0⟩,
           ends := Function.update s.ends path (w.finalBytes ++ [0xff, 0xd9]) }

theorem writeOneImage_eq {u : HuffValUseful} {workon : Nat} {path : Path} {s : Tool}
    (hs : s.Flushed) :
    writeOneImage u workon path s = (recodedFile u s.disk path).map (s.recoded workon path) := by
  rw [writeOneImage, recodedFile]
  cases hbuf : s.disk path with
  | none => rfl
  | some buf =>
      dsimp only
      rw [writeNewDataConvertOneImage_eq, hs.1, hs.2]
      cases recodedScan buf 0 u 0 0 with
      | error e => rfl
      | ok w =>
          simp only [Except.map, ok_bind, Tool.recoded, diskTables, hbuf, Option.getD_some,
            shiftLeft8_eight]

/-- What the second loop leaves of the images of a disk. -/
structure Recoded (u : HuffValUseful) (disk : Disk) (names : List Path) (s s' : Tool) : Prop where
  /-- The output files. -/
  written : ∀ path ∈ names, ∀ w, recodedFile u disk path = .ok w →
    s'.disk (outputPath path) = some w.out ∧ s'.ends path = w.finalBytes ++ [0xff, 0xd9]
  /-- The other files. -/
  kept : ∀ path, (∀ p ∈ names, path ≠ outputPath p) → s'.disk path = s.disk path
  /-- What is not written behind an image that is not listed. -/
  ends : ∀ path, path ∉ names → s'.ends path = s.ends path

theorem outputPath_inj {p q : Path} (h : outputPath p = outputPath q) : p = q :=
  List.append_cancel_right h

/-- The second loop gets through when every image can be recoded and none is the output
of another. -/
theorem recodeAll_ok {u : HuffValUseful} {disk : Disk} {names : List Path} (workon : Nat) :
    ∀ {s : Tool}, s.Flushed → (∀ path ∈ names, s.disk path = disk path) →
      (∀ p ∈ names, ∀ q ∈ names, q ≠ outputPath p) →
      (∀ path ∈ names, ∃ w, recodedFile u disk path = .ok w) →
      ∃ s', recodeAll u workon names s = .ok s' ∧ Recoded u disk names s s' ∧
        s'.record = recordAgain (diskTables disk) workon names s.record := by
  induction names with
  | nil => exact fun _ _ _ _ => ⟨_, rfl, ⟨fun _ h => absurd h List.not_mem_nil, fun _ _ => rfl,
      fun _ _ => rfl⟩, rfl⟩
  | cons path names ih =>
      intro s hs hdisk hfree hwrite
      obtain ⟨w, hw⟩ := hwrite path (List.mem_cons_self ..)
      have hself : s.disk path = disk path := hdisk path (List.mem_cons_self ..)
      have hrecoded : recodedFile u s.disk path = .ok w := by
        rw [recodedFile, hself]
        exact hw
      have hdisk₁ : ∀ p ∈ names, (s.recoded workon path w).disk p = disk p := by
        intro p hp
        have hne := hfree path (List.mem_cons_self ..) p (List.mem_cons_of_mem _ hp)
        exact (Function.update_of_ne hne ..).trans (hdisk p (List.mem_cons_of_mem _ hp))
      obtain ⟨s', hrun, hleft, hrecord⟩ := ih (s := s.recoded workon path w) ⟨rfl, rfl⟩ hdisk₁
        (fun p hp q hq => hfree p (List.mem_cons_of_mem _ hp) q (List.mem_cons_of_mem _ hq))
        (fun p hp => hwrite p (List.mem_cons_of_mem _ hp))
      refine ⟨s', ?_, ⟨?_, ?_, ?_⟩, ?_⟩
      · rw [recodeAll, writeOneImage_eq hs, hrecoded]
        exact hrun
      · intro p hp w' hw'
        by_cases hmem : p ∈ names
        · exact hleft.written p hmem w' hw'
        · obtain rfl := (List.mem_cons.mp hp).resolve_right hmem
          obtain rfl := Except.ok.inj (hw.symm.trans hw')
          rw [hleft.ends p hmem, hleft.kept (outputPath p) fun q hq heq =>
            hmem (outputPath_inj heq ▸ hq)]
          exact ⟨Function.update_self .., Function.update_self ..⟩
      · intro p hp
        rw [hleft.kept p fun q hq => hp q (List.mem_cons_of_mem _ hq)]
        exact Function.update_of_ne (hp path (List.mem_cons_self ..)) ..
      · intro p hp
        rw [hleft.ends p fun hmem => hp (List.mem_cons_of_mem _ hmem)]
        have hne : p ≠ path := fun heq => hp (List.mem_cons.mpr (Or.inl heq))
        exact Function.update_of_ne hne ..
      · rw [hrecord, recordAgain_cons, diskTables, ← hself]
        rfl

theorem recodeAll_error {u : HuffValUseful} {disk : Disk} {names : List Path} (workon : Nat)
    {path : Path} (hpath : path ∈ names) {e : Stop} (he : recodedFile u disk path = .error e) :
    ∀ {s : Tool}, s.Flushed → (∀ p ∈ names, s.disk p = disk p) →
      (∀ p ∈ names, ∀ q ∈ names, q ≠ outputPath p) →
      ∃ e', recodeAll u workon names s = .error e' := by
  induction names with
  | nil => cases hpath
  | cons path' names ih =>
      intro s hs hdisk hfree
      have hself : s.disk path' = disk path' := hdisk path' (List.mem_cons_self ..)
      have hsame : recodedFile u s.disk path' = recodedFile u disk path' := by
        rw [recodedFile, recodedFile, hself]
      rw [recodeAll, writeOneImage_eq hs, hsame]
      cases hw : recodedFile u disk path' with
      | error e' => exact ⟨e', rfl⟩
      | ok w =>
          cases List.mem_cons.mp hpath with
          | inl heq =>
              rw [heq, hw] at he
              cases he
          | inr hmem =>
              refine ih hmem (s := s.recoded workon path' w) ⟨rfl, rfl⟩ (fun p hp => ?_)
                fun p hp q hq => hfree p (List.mem_cons_of_mem _ hp) q (List.mem_cons_of_mem _ hq)
              have hne := hfree path' (List.mem_cons_self ..) p (List.mem_cons_of_mem _ hp)
              exact (Function.update_of_ne hne ..).trans (hdisk p (List.mem_cons_of_mem _ hp))

/-- What two orders leave is the same. -/
theorem Recoded.same {u : HuffValUseful} {disk : Disk} {names names' : List Path}
    (hperm : names.Perm names') {s t s' t' : Tool} (h : Recoded u disk names s s')
    (h' : Recoded u disk names' t t') (hdisk : s.disk = t.disk) (hends : s.ends = t.ends)
    (hwrite : ∀ path ∈ names, ∃ w, recodedFile u disk path = .ok w) :
    s'.disk = t'.disk ∧ s'.ends = t'.ends := by
  constructor
  · funext path
    by_cases hout : ∃ p ∈ names, path = outputPath p
    · obtain ⟨p, hp, rfl⟩ := hout
      obtain ⟨w, hw⟩ := hwrite p hp
      rw [(h.written p hp w hw).1, (h'.written p (hperm.mem_iff.mp hp) w hw).1]
    · push Not at hout
      rw [h.kept path hout, h'.kept path fun p hp => hout p (hperm.mem_iff.mpr hp), hdisk]
  · funext path
    by_cases hmem : path ∈ names
    · obtain ⟨w, hw⟩ := hwrite path hmem
      rw [(h.written path hmem w hw).2, (h'.written path (hperm.mem_iff.mp hmem) w hw).2]
    · rw [h.ends path hmem, h'.ends path fun h => hmem (hperm.mem_iff.mpr h), hends]

/-! ## The numbers of the record -/

/-- The number of codes of a type. -/
def typeCount (tables : List (UInt8 × Nat)) (type : Nat) : Nat :=
  (tables.map fun table => if tableType table.1 = some type then table.2 else 0).sum

/-- The number of codes of a type in all files. -/
def totalTypeCount (tables : Path → List (UInt8 × Nat)) (names : List Path) (type : Nat) : Nat :=
  (names.map fun path => typeCount (tables path) type).sum

/-- A table of a file has none of the four types. -/
def Untyped (tables : Path → List (UInt8 × Nat)) (names : List Path) : Prop :=
  ∃ path ∈ names, ∃ table ∈ tables path, tableType table.1 = none

@[simp] theorem typeCount_cons (table : UInt8 × Nat) (tables : List (UInt8 × Nat)) (type : Nat) :
    typeCount (table :: tables) type =
      (if tableType table.1 = some type then table.2 else 0) + typeCount tables type := by
  rw [typeCount, List.map_cons, List.sum_cons, ← typeCount]

@[simp] theorem totalTypeCount_cons (tables : Path → List (UInt8 × Nat)) (path : Path)
    (names : List Path) (type : Nat) :
    totalTypeCount tables (path :: names) type =
      typeCount (tables path) type + totalTypeCount tables names type := by
  rw [totalTypeCount, List.map_cons, List.sum_cons, ← totalTypeCount]

@[simp] theorem untyped_cons (tables : Path → List (UInt8 × Nat)) (path : Path)
    (names : List Path) :
    Untyped tables (path :: names) ↔
      (∃ table ∈ tables path, tableType table.1 = none) ∨ Untyped tables names :=
  List.exists_mem_cons_iff ..

theorem DirRecord.addTable_num (workon : Nat) (r : DirRecord) (table : UInt8 × Nat) (j type : Nat) :
    (r.addTable workon table).num j type =
      r.num j type + if j = workon ∧ tableType table.1 = some type then table.2 else 0 := by
  rw [DirRecord.addTable]
  cases tableType table.1 with
  | none => simp
  | some t =>
      simp only [Function.update_apply]
      by_cases hj : j = workon
      · by_cases ht : t = type
        · simp [hj, ht]
        · simp [hj, ht, Ne.symm ht]
      · simp [hj]

theorem DirRecord.addTables_num (workon : Nat) (tables : List (UInt8 × Nat)) (r : DirRecord)
    (j type : Nat) :
    (r.addTables workon tables).num j type =
      r.num j type + if j = workon then typeCount tables type else 0 := by
  induction tables generalizing r with
  | nil => simp [DirRecord.addTables, typeCount]
  | cons table tables ih =>
      have hrest := ih (r.addTable workon table)
      rw [DirRecord.addTable_num] at hrest
      refine hrest.trans ?_
      by_cases hj : j = workon
      · simp [hj, Nat.add_assoc]
      · simp [hj]

theorem DirRecord.addTable_untyped (workon : Nat) (r : DirRecord) (table : UInt8 × Nat) :
    (r.addTable workon table).untyped = true ↔ r.untyped = true ∨ tableType table.1 = none := by
  rw [DirRecord.addTable]
  cases tableType table.1 <;> simp

theorem DirRecord.addTables_untyped (workon : Nat) (tables : List (UInt8 × Nat)) (r : DirRecord) :
    (r.addTables workon tables).untyped = true ↔
      r.untyped = true ∨ ∃ table ∈ tables, tableType table.1 = none := by
  induction tables generalizing r with
  | nil => simp [DirRecord.addTables]
  | cons table tables ih =>
      rw [List.exists_mem_cons_iff, ← or_assoc, ← DirRecord.addTable_untyped workon]
      exact ih (r.addTable workon table)

/-- A file has its own number in the first loop. -/
theorem recordAll_num {tables : Path → List (UInt8 × Nat)} {names : List Path} {type : Nat} :
    ∀ {workon : Nat} {r : DirRecord} {j : Nat}, workon + names.length ≤ j →
      (recordAll tables workon names r).num j type = r.num j type := by
  induction names with
  | nil => exact fun _ => rfl
  | cons path names ih =>
      intro workon r j hj
      rw [List.length_cons] at hj
      have hne : j ≠ workon := by omega
      rw [recordAll, ih (by omega), DirRecord.addTables_num, if_neg hne, Nat.add_zero]

theorem recordAll_num_le {tables : Path → List (UInt8 × Nat)} {names : List Path} {type : Nat} :
    ∀ (workon : Nat) (r : DirRecord) (j : Nat),
      (recordAll tables workon names r).num j type ≤
        r.num j type + totalTypeCount tables names type := by
  induction names with
  | nil => exact fun _ _ _ => Nat.le_add_right ..
  | cons path names ih =>
      intro workon r j
      have hrest := ih (workon + 1) (r.addTables workon (tables path)) j
      rw [DirRecord.addTables_num] at hrest
      rw [recordAll, totalTypeCount_cons]
      split at hrest <;> omega

theorem recordAll_untyped {tables : Path → List (UInt8 × Nat)} {names : List Path} :
    ∀ {workon : Nat} {r : DirRecord}, (recordAll tables workon names r).untyped = true ↔
      r.untyped = true ∨ Untyped tables names := by
  induction names with
  | nil => simp [recordAll, Untyped]
  | cons path names ih =>
      intro workon r
      rw [recordAll, ih, DirRecord.addTables_untyped, untyped_cons, or_assoc]

theorem recordAgain_num {tables : Path → List (UInt8 × Nat)} {workon : Nat} {names : List Path}
    {type : Nat} : ∀ {r : DirRecord} {j : Nat}, (recordAgain tables workon names r).num j type =
      r.num j type + if j = workon then totalTypeCount tables names type else 0 := by
  induction names with
  | nil => simp [recordAgain, totalTypeCount]
  | cons path names ih =>
      intro r j
      rw [recordAgain_cons, ih, DirRecord.addTables_num, totalTypeCount_cons]
      split
      · exact Nat.add_assoc ..
      · rfl

theorem recordAgain_untyped {tables : Path → List (UInt8 × Nat)} {workon : Nat}
    {names : List Path} : ∀ {r : DirRecord}, (recordAgain tables workon names r).untyped = true ↔
      r.untyped = true ∨ Untyped tables names := by
  induction names with
  | nil => simp [recordAgain, Untyped]
  | cons path names ih =>
      intro r
      rw [recordAgain_cons, ih, DirRecord.addTables_untyped, untyped_cons, or_assoc]

/-- The number of the second loop is behind those of the first, and all files share it, so
the bounds are first exceeded there. -/
theorem outside_iff {tables : Path → List (UInt8 × Nat)} {names : List Path} :
    (recordAgain tables names.length names
        (recordAll tables 0 names ⟨fun _ _ => 0, false⟩)).Outside ↔
      Untyped tables names ∨ ∃ type, huffTableCapacity < totalTypeCount tables names type ∨
        (dirHuffCapacity ≤ names.length ∧ 0 < totalTypeCount tables names type) := by
  have hlast (type : Nat) : (recordAgain tables names.length names
      (recordAll tables 0 names ⟨fun _ _ => 0, false⟩)).num names.length type =
        totalTypeCount tables names type := by
    rw [recordAgain_num, recordAll_num (Nat.zero_add _).le, if_pos rfl, Nat.zero_add]
  have hle {j : Nat} (type : Nat) (h : j < names.length) : (recordAgain tables names.length names
      (recordAll tables 0 names ⟨fun _ _ => 0, false⟩)).num j type ≤
        totalTypeCount tables names type := by
    rw [recordAgain_num, if_neg (Nat.ne_of_lt h), Nat.add_zero]
    exact (recordAll_num_le _ _ _).trans (Nat.zero_add _).le
  have hbehind {j type : Nat} (h : names.length < j) : (recordAgain tables names.length names
      (recordAll tables 0 names ⟨fun _ _ => 0, false⟩)).num j type = 0 := by
    rw [recordAgain_num, recordAll_num (by omega), if_neg (Nat.ne_of_gt h)]
  rw [DirRecord.Outside, recordAgain_untyped, recordAll_untyped]
  constructor
  · rintro (h | ⟨j, type, hnum⟩)
    · exact Or.inl (h.elim (fun h => (h.resolve_left Bool.false_ne_true)) id)
    · refine Or.inr ⟨type, ?_⟩
      rcases Nat.lt_trichotomy j names.length with hlt | rfl | hgt
      · have hbound := hle type hlt
        omega
      · rwa [hlast] at hnum
      · rw [hbehind hgt] at hnum
        omega
  · rintro (h | ⟨type, hnum⟩)
    · exact Or.inl (Or.inr h)
    · exact Or.inr ⟨names.length, type, by rwa [hlast]⟩

theorem totalTypeCount_perm (tables : Path → List (UInt8 × Nat)) {names names' : List Path}
    (hperm : names.Perm names') : totalTypeCount tables names = totalTypeCount tables names' :=
  funext fun _ => (hperm.map _).sum_nat

theorem untyped_perm (tables : Path → List (UInt8 × Nat)) {names names' : List Path}
    (hperm : names.Perm names') : Untyped tables names ↔ Untyped tables names' :=
  exists_congr fun _ => and_congr_left' hperm.mem_iff

/-! ## The whole program -/

/-- The first loop at its end. -/
def Tool.counted (disk : Disk) (names : List Path) : Tool :=
  { Tool.start disk with
    huffVal := totalCounts disk names
    record := recordAll (diskTables disk) 0 names ⟨fun _ _ => 0, false⟩ }

theorem countAll_start {disk : Disk} {names : List Path}
    (hread : ∀ path ∈ names, ∃ v, imageCounts disk path = .ok v) :
    countAll 0 names (.start disk) = .ok (.counted disk names) := by
  have hzero : (Tool.start disk).huffVal.add (totalCounts disk names) = totalCounts disk names :=
    funext fun _ => funext fun _ => Nat.zero_add _
  rw [countAll_ok 0 (.start disk) hread, Tool.counted, ← hzero]
  rfl

/-- The second loop writes the same in two orders, or it stops in both. -/
theorem recodeAll_counted {disk : Disk} {names names' : List Path} (hperm : names.Perm names')
    (hfree : ∀ p ∈ names, ∀ q ∈ names, q ≠ outputPath p) (u : HuffValUseful) :
    SameRecoding ((recodeAll u names.length names (.counted disk names)).map (u, ·))
      ((recodeAll u names'.length names' (.counted disk names')).map (u, ·)) := by
  have hfree' : ∀ p ∈ names', ∀ q ∈ names', q ≠ outputPath p := fun p hp q hq =>
    hfree p (hperm.mem_iff.mpr hp) q (hperm.mem_iff.mpr hq)
  have hflushed (l : List Path) : (Tool.counted disk l).Flushed := ⟨rfl, rfl⟩
  have hdisk (l : List Path) : ∀ path ∈ l, (Tool.counted disk l).disk path = disk path :=
    fun _ _ => rfl
  rcases all_ok_or_error (recodedFile u disk) names with hwrite | ⟨path, hpath, e, he⟩
  · have hwrite' : ∀ path ∈ names', ∃ w, recodedFile u disk path = .ok w := fun path hp =>
      hwrite path (hperm.mem_iff.mpr hp)
    obtain ⟨s, hrun, hleft, hrecord⟩ :=
      recodeAll_ok names.length (hflushed names) (hdisk names) hfree hwrite
    obtain ⟨s', hrun', hleft', hrecord'⟩ :=
      recodeAll_ok names'.length (hflushed names') (hdisk names') hfree' hwrite'
    obtain ⟨hsame, hends⟩ := hleft.same hperm hleft' rfl rfl hwrite
    have houtside : s.record.Outside ↔ s'.record.Outside := by
      rw [hrecord, hrecord', Tool.counted, Tool.counted, outside_iff, outside_iff,
        totalTypeCount_perm _ hperm, untyped_perm _ hperm, hperm.length_eq]
    rw [hrun, hrun']
    exact .done hsame hends houtside
  · obtain ⟨e₁, h₁⟩ :=
      recodeAll_error names.length hpath he (hflushed names) (hdisk names) hfree
    obtain ⟨e₂, h₂⟩ := recodeAll_error names'.length (hperm.mem_iff.mp hpath) he
      (hflushed names') (hdisk names') hfree'
    rw [h₁, h₂]
    exact .stops

/-- The order in which the images are listed does not matter when none is the output file
of another. -/
theorem recoding_order_irrelevant {disk : Disk} {names names' : List Path}
    (hperm : names.Perm names') (hfree : ∀ p ∈ names, ∀ q ∈ names, q ≠ outputPath p)
    (buf : CharBuf) : SameRecoding (main disk names buf) (main disk names' buf) := by
  rw [main, main]
  rcases all_ok_or_error (imageCounts disk) names with hread | ⟨path, hpath, e, he⟩
  · have hread' : ∀ path ∈ names', ∃ v, imageCounts disk path = .ok v := fun path hp =>
      hread path (hperm.mem_iff.mpr hp)
    have hcounts : (Tool.counted disk names').huffVal = (Tool.counted disk names).huffVal :=
      (totalCounts_perm disk hperm).symm
    rw [countAll_start hread, countAll_start hread', ok_bind, ok_bind, hcounts]
    cases buildTrees (buildHuffValUseful (Tool.counted disk names).huffVal) buf with
    | error e => exact .stops
    | ok trees => exact recodeAll_counted hperm hfree trees.1
  · obtain ⟨e₁, h₁⟩ := countAll_error hpath 0 (.start disk) he
    obtain ⟨e₂, h₂⟩ := countAll_error (hperm.mem_iff.mp hpath) 0 (.start disk) he
    rw [h₁, h₂]
    exact .stops

/-! ## Two directories -/

/-- A directory of two images. -/
def twoImages (first second : Path × List UInt8) : Disk := fun path =>
  if path = first.1 then some first.2
  else if path = second.1 then some second.2
  else none

/-- The bytes of a file behind a run that gets through. -/
def writtenBy (run : Except Stop (HuffValUseful × Tool)) (path : Path) : Option (List UInt8) :=
  match run with
  | .error _ => none
  | .ok (_, s) => s.disk path

theorem SameRecoding.writtenBy {run run' : Except Stop (HuffValUseful × Tool)}
    (h : SameRecoding run run') (path : Path) : writtenBy run path = writtenBy run' path := by
  cases h with
  | stops => rfl
  | done hdisk => exact congrFun hdisk path

/-- `a.jpg`. -/
def someName : Path := ['a', '.', 'j', 'p', 'g']

/-- `b.jpg`. -/
def otherName : Path := ['b', '.', 'j', 'p', 'g']

/-- An image without a byte of its scan. -/
def cutFile : List UInt8 := headerFile [smallFrame 0 1 2, scanTables]

/-- A comment. -/
def smallComment : Segment where
  marker := 0xfe
  payload := [0]
  marker_ne := by decide
  fits := by decide

/-- An image with a comment. -/
def commentedFile : List UInt8 :=
  headerFile [smallFrame 0 1 2, smallComment, scanTables] ++ [0x03, 0xff, 0xd9]

/-- The pass leaves the second image at the end of its input. -/
theorem recoding_order_irrelevant_small :
    (main (twoImages (someName, wholeFile) (otherName, cutFile))
        [someName, otherName] fun _ => '0').isOk = true ∧
      (main (twoImages (someName, wholeFile) (otherName, cutFile))
        [otherName, someName] fun _ => '0').isOk = true ∧
      SameRecoding (main (twoImages (someName, wholeFile) (otherName, cutFile))
          [someName, otherName] fun _ => '0')
        (main (twoImages (someName, wholeFile) (otherName, cutFile))
          [otherName, someName] fun _ => '0') :=
  ⟨by decide +kernel, by decide +kernel, recoding_order_irrelevant (.swap ..) (by decide) _⟩

/-- Two images, one named like the output file of the other. -/
def overwritten : Disk :=
  twoImages (someName, wholeFile) (outputPath someName, commentedFile)

/-- The first image is written over the second, so its comment is lost when it comes later. -/
theorem recoding_order_matters :
    [someName, outputPath someName].Perm [outputPath someName, someName] ∧
      (main overwritten [someName, outputPath someName] fun _ => '0').isOk = true ∧
      (main overwritten [outputPath someName, someName] fun _ => '0').isOk = true ∧
      ¬ SameRecoding (main overwritten [someName, outputPath someName] fun _ => '0')
        (main overwritten [outputPath someName, someName] fun _ => '0') := by
  refine ⟨.swap .., by decide +kernel, by decide +kernel, fun h => ?_⟩
  have hne : writtenBy (main overwritten [someName, outputPath someName] fun _ => '0')
        (outputPath (outputPath someName)) ≠
      writtenBy (main overwritten [outputPath someName, someName] fun _ => '0')
        (outputPath (outputPath someName)) := by
    decide +kernel
  exact hne (h.writtenBy _)

end Recode
