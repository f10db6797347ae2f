import JpegStorage.Dedup.Recipe

/-!
# Saving a batch of chunks

`saveChunks` takes chunks out of a buffer: their number, and for each one its hash, its size
and its data.  `readSize` is where the next one begins.  The data of a chunk whose hash is
known are not skipped, so the next chunk is looked for in them.

A batch is `Aligned` when that does not happen: a chunk whose hash is known has no data, or
is the last one.  Then the chunks are saved as one by one (`saveChunks_eq`).  Otherwise what
is inside the data of a chunk may be saved as a chunk (`saveChunks_inside`).
-/

namespace Dedup

open Records

/-! ## The program -/

/-- `n` bytes of the buffer.  There is nothing in front of it and behind it. -/
def readAt (buffer : Bytes) (readSize : Int) (n : Nat) : Except Fault Bytes :=
  if 0 ≤ readSize ∧ readSize.toNat + n ≤ buffer.length then
    .ok ((buffer.drop readSize.toNat).take n)
  else .error .undefined

/-- `readSize += n`.  An `int` must not overflow. -/
def advance (readSize n : Int) : Except Fault Int :=
  if -2 ^ 31 ≤ readSize + n ∧ readSize + n < 2 ^ 31 then .ok (readSize + n)
  else .error .undefined

/-- An `int` of the buffer. -/
def readInt (buffer : Bytes) (readSize : Int) : Except Fault Int := do
  let bytes ← readAt buffer readSize 4
  .ok (i32 (decode 4 bytes))

/-- `saveChunk` of `currentChunkSize` bytes of the buffer.  A negative size is a length of
`2^31` bytes and more, which are copied into a container. -/
def Process.saveChunkAt (buffer originHash : Bytes) (readSize currentChunkSize : Int)
    (p : Process) : Except Fault Process :=
  if currentChunkSize < 0 then .error .undefined
  else do
    let data ← readAt buffer readSize currentChunkSize.toNat
    p.saveChunk originHash data

/-- The loop body of `saveChunks`. -/
def Process.saveRecord (buffer : Bytes) (readSize : Int) (p : Process) :
    Except Fault (Int × Process) := do
  let originHash ← readAt buffer readSize 32
  let readSize ← advance readSize 32
  let currentChunkSize ← readInt buffer readSize
  let readSize ← advance readSize 4
  match p.disk.fp2ChunkDB originHash with
  | some _ => .ok (readSize, p)
  | none => do
      let p ← p.saveChunkAt buffer originHash readSize currentChunkSize
      let readSize ← advance readSize currentChunkSize
      .ok (readSize, p)

/-- The loop of `saveChunks`. -/
def Process.saveRecords (buffer : Bytes) : Nat → Int → Process → Except Fault Process
  | 0, _, p => .ok p
  | chunkNumber + 1, readSize, p => do
      let (readSize, p) ← p.saveRecord buffer readSize
      p.saveRecords buffer chunkNumber readSize

/-- `saveChunks`. -/
def Process.saveChunks (buffer : Bytes) (p : Process) : Except Fault Process := do
  let chunkNumber ← readInt buffer 0
  p.saveRecords buffer chunkNumber.toNat 4

/-! ## What it is for -/

/-- A chunk with its hash, as `saveChunks` expects it. -/
def recordBytes (record : Hash × Bytes) : Bytes :=
  record.1.toList ++ (encode 4 record.2.length ++ record.2)

/-- Chunks with their number, as `saveChunks` expects them. -/
def batchBytes (records : List (Hash × Bytes)) : Bytes :=
  encode 4 records.length ++ records.flatMap recordBytes

/-- The chunks one by one. -/
def Process.saveEach : List (Hash × Bytes) → Process → Except Fault Process
  | [], p => .ok p
  | record :: records, p => do
      let p ← p.dedupChunk record.1.toList record.2
      p.saveEach records

/-- The hash is in the database. -/
def Process.Knows (p : Process) (hash : Bytes) : Prop := p.disk.fp2ChunkDB hash ≠ none

/-- A chunk whose hash is known, from before or from an earlier chunk, has no data or is the
last one; and an `int` holds the places of the chunks, and the ends of those that are saved. -/
def Aligned (known : Bytes → Prop) (readSize : Nat) : List (Hash × Bytes) → Prop
  | [] => True
  | record :: records =>
      readSize + 36 < 2 ^ 31 ∧
      (known record.1.toList → record.2 = [] ∨ records = []) ∧
      (¬ known record.1.toList → readSize + (36 + record.2.length) < 2 ^ 31) ∧
      Aligned (fun hash => known hash ∨ hash = record.1.toList)
        (readSize + (36 + record.2.length)) records

/-! ## Reading -/

theorem readAt_append (front xs rest : Bytes) :
    readAt (front ++ (xs ++ rest)) front.length xs.length = .ok xs := by
  have hroom : (0 : Int) ≤ front.length ∧
      (front.length : Int).toNat + xs.length ≤ (front ++ (xs ++ rest)).length := by
    simp
  rw [readAt, if_pos hroom, Int.toNat_natCast, List.drop_left, List.take_left]

theorem advance_ok {m k : Nat} {n : Int} (hsum : m + n = k) (h : k < 2 ^ 31) :
    advance m n = .ok k := by
  rw [advance, hsum, if_pos (by omega)]

theorem readInt_append (front rest : Bytes) {n : Nat} (h : n < 2 ^ 31) :
    readInt (front ++ (encode 4 n ++ rest)) front.length = .ok n := by
  have hread := readAt_append front (encode 4 n) rest
  have hdecode := decode_encode (h.trans (by simp) : n < 256 ^ 4) []
  rw [length_encode] at hread
  rw [List.append_nil] at hdecode
  rw [readInt, hread]
  change Except.ok (i32 (decode 4 (encode 4 n))) = _
  rw [hdecode, i32_of_fits (Int.natCast_nonneg n) (by omega)]

@[simp] theorem length_recordBytes (record : Hash × Bytes) :
    (recordBytes record).length = 36 + record.2.length := by
  simp [recordBytes]
  omega

/-! ## Saving -/

/-- A chunk that is saved is known. -/
theorem Process.saveChunk_knows {hash data : Bytes} {p p' : Process}
    (h : p.saveChunk hash data = .ok p') (hash' : Bytes) :
    p'.Knows hash' ↔ p.Knows hash' ∨ hash' = hash := by
  obtain ⟨⟨p₁, key⟩, hwrite, h⟩ := Run.except_bind_eq_ok.mp h
  cases h
  change Function.update p₁.disk.fp2ChunkDB hash (some key) hash' ≠ none ↔ _
  rw [writeContainer_entries hwrite, Knows]
  by_cases heq : hash' = hash
  · simp [heq]
  · simp [heq]

/-- A chunk that is where it is looked for. -/
theorem Process.saveRecord_eq (front rest : Bytes) (record : Hash × Bytes) (p : Process)
    (hhead : front.length + 36 < 2 ^ 31) (hint : record.2.length < 2 ^ 31) :
    p.saveRecord (front ++ (recordBytes record ++ rest)) front.length =
      match p.disk.fp2ChunkDB record.1.toList with
      | some _ => .ok (((front.length + 36 : Nat) : Int), p)
      | none =>
          p.saveChunk record.1.toList record.2 >>= fun p =>
            advance ((front.length + 36 : Nat) : Int) record.2.length >>= fun readSize =>
              .ok (readSize, p) := by
  have hbuffer : front ++ (recordBytes record ++ rest) =
      front ++ (record.1.toList ++ (encode 4 record.2.length ++ (record.2 ++ rest))) := by
    simp [recordBytes]
  have hhash := readAt_append front record.1.toList
    (encode 4 record.2.length ++ (record.2 ++ rest))
  have hsize := readInt_append (front ++ record.1.toList) (record.2 ++ rest) hint
  have hdata := readAt_append (front ++ record.1.toList ++ encode 4 record.2.length) record.2 rest
  have hover₁ : advance front.length 32 = .ok ((front.length + 32 : Nat) : Int) :=
    advance_ok (by omega) (by omega)
  have hover₂ : advance ((front.length + 32 : Nat) : Int) 4 =
      .ok ((front.length + 36 : Nat) : Int) := advance_ok (by omega) (by omega)
  simp only [List.length_append, length_encode, Vector.length_toList, List.append_assoc]
    at hhash hsize hdata
  rw [hbuffer, saveRecord, hhash, Run.ok_bind, hover₁, Run.ok_bind, hsize, Run.ok_bind, hover₂,
    Run.ok_bind]
  cases hfind : p.disk.fp2ChunkDB record.1.toList with
  | some key => rfl
  | none =>
      have hnonneg : ¬ (record.2.length : Int) < 0 := by omega
      dsimp only
      rw [saveChunkAt, if_neg hnonneg, Int.toNat_natCast, hdata, Run.ok_bind]

/-- The chunks behind some bytes.  The induction is on the chunks; what is in front grows by
each of them. -/
theorem Process.saveRecords_eq {known : Bytes → Prop} {records : List (Hash × Bytes)}
    (front after : Bytes) (haligned : Aligned known front.length records)
    (hint : ∀ record ∈ records, record.2.length < 2 ^ 31) {p : Process}
    (hknown : ∀ hash, p.Knows hash ↔ known hash) :
    p.saveRecords (front ++ (records.flatMap recordBytes ++ after)) records.length front.length =
      p.saveEach records := by
  induction records generalizing front known p with
  | nil => rfl
  | cons record records ih =>
      obtain ⟨hhead, hdata, hend, hrest⟩ := haligned
      have hih (p' : Process) (hknown' : ∀ hash, p'.Knows hash ↔ known hash ∨
          hash = record.1.toList) : p'.saveRecords (front ++ (recordBytes record ++
            (records.flatMap recordBytes ++ after))) records.length
              ((front.length + (36 + record.2.length) : Nat) : Int) = p'.saveEach records := by
        rw [← length_recordBytes, ← List.length_append] at hrest ⊢
        rw [← List.append_assoc]
        exact ih _ hrest (fun r hr => hint r (List.mem_cons_of_mem _ hr)) hknown'
      rw [List.flatMap_cons, List.append_assoc, List.length_cons, saveRecords, saveEach,
        saveRecord_eq _ _ _ _ hhead (hint record (List.mem_cons_self ..)), dedupChunk]
      cases hfind : p.disk.fp2ChunkDB record.1.toList with
      | some key =>
          have hold : known record.1.toList := by
            refine (hknown _).mp ?_
            rw [Knows, hfind]
            exact Option.some_ne_none key
          rcases hdata hold with hnone | rfl
          · rw [hnone] at hih
            refine hih p fun hash => ?_
            rw [hknown]
            exact ⟨Or.inl, fun hor => hor.elim id fun heq => heq ▸ hold⟩
          · rfl
      | none =>
          have hnew : ¬ known record.1.toList := fun hold => (hknown _).mpr hold hfind
          have hover : advance ((front.length + 36 : Nat) : Int) record.2.length =
              .ok ((front.length + (36 + record.2.length) : Nat) : Int) :=
            advance_ok (by omega) (hend hnew)
          dsimp only
          rw [bind_assoc, hover]
          cases hsave : p.saveChunk record.1.toList record.2 with
          | error fault => rfl
          | ok p' =>
              refine hih p' fun hash => ?_
              rw [saveChunk_knows hsave, hknown]

theorem Aligned.length {known : Bytes → Prop} {readSize : Nat} {records : List (Hash × Bytes)}
    (h : Aligned known readSize records) : records.length < 2 ^ 31 := by
  suffices hplace : records = [] ∨ readSize + records.length < 2 ^ 31 by
    rcases hplace with rfl | hlt
    · simp
    · omega
  induction records generalizing known readSize with
  | nil => exact Or.inl rfl
  | cons record records ih =>
      obtain ⟨hhead, _, _, hrest⟩ := h
      rw [List.length_cons]
      rcases ih hrest with rfl | hlt
      · exact Or.inr (by simp; omega)
      · exact Or.inr (by omega)

/-- A batch begins with its number of chunks. -/
theorem Process.saveChunks_records {records : List (Hash × Bytes)}
    (hcount : records.length < 2 ^ 31) (after : Bytes) (p : Process) :
    p.saveChunks (batchBytes records ++ after) =
      p.saveRecords (encode 4 records.length ++ (records.flatMap recordBytes ++ after))
        records.length (encode 4 records.length).length := by
  have hread := readInt_append [] (records.flatMap recordBytes ++ after) hcount
  rw [List.nil_append] at hread
  rw [saveChunks, batchBytes, List.append_assoc]
  change (readInt _ (([] : Bytes).length : Int) >>= _) = _
  rw [hread, Run.ok_bind, Int.toNat_natCast, length_encode]
  rfl

/-- An aligned batch is saved as its chunks one by one. -/
theorem Process.saveChunks_eq {records : List (Hash × Bytes)} {p : Process}
    (hint : ∀ record ∈ records, record.2.length < 2 ^ 31) (haligned : Aligned p.Knows 4 records)
    (after : Bytes) : p.saveChunks (batchBytes records ++ after) = p.saveEach records := by
  rw [saveChunks_records haligned.length]
  rw [← length_encode 4 records.length] at haligned
  exact saveRecords_eq _ after haligned hint fun _ => Iff.rfl

/-- A process with an empty container that knows one hash. -/
def knowsOnes : Process :=
  ⟨⟨firstContainerFileName, [], ⟨0, 0⟩, ⟨0, 0⟩, 8388608⟩,
    Disk.empty.putEntry (Vector.replicate 32 1).toList ⟨firstContainerFileName, 0, 0⟩⟩

/-- A known chunk without data, a new one, and a known one at the end. -/
theorem saveChunks_eq_three :
    knowsOnes.saveChunks (batchBytes [(Vector.replicate 32 1, []), (Vector.replicate 32 2, [7]),
        (Vector.replicate 32 1, [5])] ++ []) =
      knowsOnes.saveEach [(Vector.replicate 32 1, []), (Vector.replicate 32 2, [7]),
        (Vector.replicate 32 1, [5])] := by
  refine Process.saveChunks_eq (by simp) ?_ []
  refine ⟨by simp, fun _ => Or.inl rfl, fun _ => by simp, by simp, fun hknown => ?_,
    fun _ => by simp, by simp, fun _ => Or.inr rfl, fun _ => by simp, trivial⟩
  rcases hknown with hold | hsame
  · exact absurd rfl hold
  · exact absurd hsame (by decide)

/-- A batch that is not aligned may come out right by chance: the data of the known chunk
look like a known chunk. -/
theorem saveChunks_eq_by_chance :
    ¬ Aligned knowsOnes.Knows 4
        [(Vector.replicate 32 1, recordBytes (Vector.replicate 32 1, [])),
          (Vector.replicate 32 1, [])] ∧
      knowsOnes.saveChunks (batchBytes
          [(Vector.replicate 32 1, recordBytes (Vector.replicate 32 1, [])),
            (Vector.replicate 32 1, [])]) =
        knowsOnes.saveEach [(Vector.replicate 32 1, recordBytes (Vector.replicate 32 1, [])),
          (Vector.replicate 32 1, [])] := by
  have hbatch : knowsOnes.saveChunks (batchBytes
      [(Vector.replicate 32 1, recordBytes (Vector.replicate 32 1, [])),
        (Vector.replicate 32 1, [])]) = .ok knowsOnes := rfl
  refine ⟨fun haligned => ?_, hbatch.trans rfl⟩
  have hknown : knowsOnes.Knows (Vector.replicate 32 1).toList := by
    simp [Process.Knows, knowsOnes]
  rcases haligned.2.1 hknown with hdata | hlast
  · cases hdata
  · cases hlast

/-! ## A chunk inside the data of another one -/

theorem Process.saveRecord_knows {buffer : Bytes} {readSize readSize' : Int} {p p' : Process}
    (h : p.saveRecord buffer readSize = .ok (readSize', p')) {hash : Bytes} (hknown : p.Knows hash) :
    p'.Knows hash := by
  obtain ⟨originHash, _, h⟩ := Run.except_bind_eq_ok.mp h
  obtain ⟨readSize₁, _, h⟩ := Run.except_bind_eq_ok.mp h
  obtain ⟨currentChunkSize, _, h⟩ := Run.except_bind_eq_ok.mp h
  obtain ⟨readSize₂, _, h⟩ := Run.except_bind_eq_ok.mp h
  split at h
  · cases h
    exact hknown
  · obtain ⟨p₁, hsave, h⟩ := Run.except_bind_eq_ok.mp h
    obtain ⟨readSize₃, _, h⟩ := Run.except_bind_eq_ok.mp h
    cases h
    rw [saveChunkAt] at hsave
    split at hsave
    · cases hsave
    · obtain ⟨data, _, hsave⟩ := Run.except_bind_eq_ok.mp hsave
      exact (saveChunk_knows hsave hash).mpr (Or.inl hknown)

theorem Process.saveRecords_knows {buffer : Bytes} {n : Nat} {readSize : Int} {p p' : Process}
    (h : p.saveRecords buffer n readSize = .ok p') {hash : Bytes} (hknown : p.Knows hash) :
    p'.Knows hash := by
  induction n generalizing p readSize with
  | zero =>
      cases h
      exact hknown
  | succ n ih =>
      obtain ⟨⟨readSize₁, p₁⟩, hrecord, h⟩ := Run.except_bind_eq_ok.mp h
      exact ih h (saveRecord_knows hrecord hknown)

theorem Process.saveEach_knows {records : List (Hash × Bytes)} {p p' : Process}
    (h : p.saveEach records = .ok p') {hash : Bytes} (hknown : p'.Knows hash) :
    p.Knows hash ∨ ∃ record ∈ records, hash = record.1.toList := by
  induction records generalizing p with
  | nil =>
      cases h
      exact Or.inl hknown
  | cons record records ih =>
      obtain ⟨p₁, hsave, h⟩ := Run.except_bind_eq_ok.mp h
      rcases ih h with hold | ⟨record', hmem, rfl⟩
      · rw [dedupChunk] at hsave
        split at hsave
        · cases hsave
          exact Or.inl hold
        · rcases (saveChunk_knows hsave hash).mp hold with hold | rfl
          · exact Or.inl hold
          · exact Or.inr ⟨record, List.mem_cons_self .., rfl⟩
      · exact Or.inr ⟨record', List.mem_cons_of_mem _ hmem, rfl⟩

theorem length_le_flatMap (records : List (Hash × Bytes)) :
    records.length ≤ (records.flatMap recordBytes).length := by
  induction records with
  | nil => simp
  | cons record records ih =>
      rw [List.flatMap_cons, List.length_append, List.length_cons, length_recordBytes]
      omega

/-- When the data of a known chunk begin like a chunk and another chunk follows, the
beginning of the data is saved. -/
theorem Process.saveChunks_inside {p p' : Process} {hash fresh : Hash} {data after : Bytes}
    {record : Hash × Bytes} {records : List (Hash × Bytes)} (hknown : p.Knows hash.toList)
    (hshort : (batchBytes ((hash, recordBytes (fresh, data)) :: record :: records)).length < 2 ^ 31)
    (h : p.saveChunks (batchBytes ((hash, recordBytes (fresh, data)) :: record :: records) ++
      after) = .ok p') : p'.Knows fresh.toList := by
  by_cases hfresh : p.Knows fresh.toList
  · obtain ⟨_, _, h⟩ := Run.except_bind_eq_ok.mp h
    exact saveRecords_knows h hfresh
  · have hcount : (record :: records).length ≤
        ((record :: records).flatMap recordBytes).length :=
      length_le_flatMap (record :: records)
    rw [batchBytes, List.flatMap_cons, List.length_append, List.length_append,
      length_recordBytes, length_recordBytes] at hshort
    dsimp only at hshort
    have hnumber : ((hash, recordBytes (fresh, data)) :: record :: records).length < 2 ^ 31 := by
      rw [List.length_cons]
      omega
    rw [saveChunks_records hnumber, List.flatMap_cons, List.append_assoc] at h
    generalize (record :: records).flatMap recordBytes ++ after = rest at h
    generalize encode 4 ((hash, recordBytes (fresh, data)) :: record :: records).length = number
      at h hshort
    obtain ⟨key, hkey⟩ := Option.ne_none_iff_exists'.mp hknown
    have hnew : p.disk.fp2ChunkDB fresh.toList = none := not_not.mp hfresh
    -- The next chunk is looked for behind the size of the first one.
    obtain ⟨⟨readSize, p₁⟩, hfirst, h⟩ := Run.except_bind_eq_ok.mp h
    rw [saveRecord_eq _ _ _ _ (by omega) (by rw [length_recordBytes]; dsimp only; omega)] at hfirst
    simp only [hkey] at hfirst
    cases hfirst
    obtain ⟨⟨readSize, p₂⟩, hsecond, h⟩ := Run.except_bind_eq_ok.mp h
    have hbuffer : number ++ (recordBytes (hash, recordBytes (fresh, data)) ++ rest) =
        (number ++ hash.toList ++ encode 4 (recordBytes (fresh, data)).length) ++
          (recordBytes (fresh, data) ++ rest) := by
      simp only [recordBytes, List.append_assoc]
    have hlen : number.length + 36 =
        (number ++ hash.toList ++ encode 4 (recordBytes (fresh, data)).length).length := by
      simp
    rw [hbuffer, hlen, saveRecord_eq _ _ _ _ (by omega) (by dsimp only; omega)] at hsecond
    simp only [hnew] at hsecond
    obtain ⟨p₃, hsave, hsecond⟩ := Run.except_bind_eq_ok.mp hsecond
    obtain ⟨readSize', _, hsecond⟩ := Run.except_bind_eq_ok.mp hsecond
    cases hsecond
    exact saveRecords_knows h ((saveChunk_knows hsave _).mpr (Or.inr rfl))

/-- A known chunk with the data of a chunk in them, and another chunk. -/
def chunkInChunk : List (Hash × Bytes) :=
  [(Vector.replicate 32 1, recordBytes (Vector.replicate 32 2, [])), (Vector.replicate 32 3, [])]

/-- The chunk inside the known one is saved, and not the one behind it. -/
theorem saveChunks_chunkInChunk :
    ∃ p p', knowsOnes.saveEach chunkInChunk = .ok p ∧
      knowsOnes.saveChunks (batchBytes chunkInChunk) = .ok p' ∧
        p'.Knows (Vector.replicate 32 2).toList ∧ ¬ p.Knows (Vector.replicate 32 2).toList := by
  have heach : ∃ p, knowsOnes.saveEach chunkInChunk = .ok p := ⟨_, rfl⟩
  have hbatch : ∃ p, knowsOnes.saveChunks (batchBytes chunkInChunk) = .ok p := ⟨_, rfl⟩
  obtain ⟨p, heach⟩ := heach
  obtain ⟨p', hbatch⟩ := hbatch
  refine ⟨p, p', heach, hbatch, ?_, fun hknown => ?_⟩
  · rw [← List.append_nil (batchBytes chunkInChunk)] at hbatch
    exact Process.saveChunks_inside (by simp [Process.Knows, knowsOnes]) (by decide) hbatch
  · rcases Process.saveEach_knows heach hknown with hold | ⟨record, hmem, heq⟩
    · exact hold rfl
    · rcases hmem with _ | ⟨_, _ | ⟨_, hnil⟩⟩
      · exact absurd heq (by decide)
      · exact absurd heq (by decide)
      · cases hnil

end Dedup
