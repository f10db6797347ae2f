import JpegStorage.Dedup.Recipe
import JpegStorage.Dedup.Chunker
import Mathlib.Algebra.BigOperators.Fin
import Mathlib.Logic.Relation

/-!
# Restoring a file

Every thread of `RecvDecode::run` reads the recipe batch by batch and pushes the
chunks it finds to one queue.  `Retriever::recvThread` pops chunks and writes them until it has
as many as the head of the recipe says.  A step of the system is one step of a
thread, and the steps may come in any order.

`Decoder.At` says where a thread is when it has pushed `n` chunks.  Up to the first
entry that cannot be restored a thread takes the entries one by one (`decode_before`).
-/

namespace Dedup

open Records

/-! ## The program -/

/-- `Chunk_t`. -/
structure Chunk where
  /-- `ID`. -/
  id : Nat
  /-- `logicData`, up to `logicDataSize`. -/
  logicData : Bytes
  /-- `chunkHash`. -/
  chunkHash : Hash
  /-- `encryptKey`. -/
  encryptKey : Hash

/-- The loop body of `restoreRecipeAndChunk`, without the push.  No chunk means
that it returns `false`. -/
def Process.restoreEntry (entry : RecipeEntry) (p : Process) :
    Except Fault (Option Chunk × Process) :=
  match p.restoreChunk entry.chunkHash.toList with
  | .error .failed => .ok (none, p)
  | .error fault => .error fault
  | .ok (chunkData, p) =>
      if (chunkData.length : Int) ≠ entry.chunkSize then .ok (none, p)
      else if maxChunkSize < chunkData.length then .error .undefined
      else .ok (some ⟨entry.chunkID, chunkData, entry.chunkHash, entry.chunkKey⟩, p)

/-- `RecvDecode`, with the batch size of the configuration. -/
structure RecvDecode where
  /-- `fileNameHash_`. -/
  fileNameHash : Hash
  /-- `fileRecipe_.fileRecipeHead.totalChunkNumber`. -/
  totalChunkNumber : Nat
  /-- It is a `uint64_t`. -/
  total_lt : totalChunkNumber < 2 ^ 64
  /-- `config.getSendChunkBatchSize()`. -/
  sendChunkBatchSize : Int
  /-- It is an `int`. -/
  batch_int : -2 ^ 31 ≤ sendChunkBatchSize ∧ sendChunkBatchSize < 2 ^ 31

/-- A thread of `RecvDecode::run`. -/
inductive Decoder where
  /-- At the head of the loop. -/
  | next (totalRestoredChunkNumber startID endID : Nat)
  /-- In the loop of `restoreRecipeAndChunk`. -/
  | batch (totalRestoredChunkNumber startID endID : Nat) (readBuffer : Nat → UInt8) (i : Nat)
  /-- It has returned. -/
  | returned

/-- The file `restoreRecipeAndChunk` opens. -/
def Disk.recipeFile (key : Bytes) (disk : Disk) : Option Bytes :=
  disk.fileName2metaDB key >>= disk.recipes

/-- `endID - startID`. -/
def batchCount (startID endID : Nat) : Nat := u32 (endID + (2 ^ 32 - startID))

/-- What `read` leaves in the buffer of a batch.  Bytes behind the end of the file are
what the stack held. -/
def readBuffer (bytes : Bytes) (stack : Nat → UInt8) (startID k : Nat) : UInt8 :=
  let pos := recipeSize + startID * recipeEntrySize + k
  bytes.getD pos (stack pos)

/-- `memcpy` of entry `i` of the buffer. -/
def entryOfBuffer (readBuffer : Nat → UInt8) (i : Nat) : RecipeEntry :=
  RecipeEntry.ofBytes (Buffer.read readBuffer (i * recipeEntrySize) recipeEntrySize)

namespace RecvDecode

/-- `restoreChunkBatchSize`. -/
def restoreChunkBatchSize (r : RecvDecode) : Nat := (r.sendChunkBatchSize % 2 ^ 32).toNat

/-- `endID` before the loop. -/
def firstEnd (r : RecvDecode) : Nat :=
  if r.totalChunkNumber < u64 r.sendChunkBatchSize then u32 (u64 (r.totalChunkNumber - 1)) else 0

/-- `endID` of the next batch. -/
def nextEnd (r : RecvDecode) (totalRestoredChunkNumber endID : Nat) : Nat :=
  let left := u64 (r.totalChunkNumber - totalRestoredChunkNumber)
  if left < r.restoreChunkBatchSize then u32 (endID + left)
  else u32 (endID + r.restoreChunkBatchSize)

/-- What a thread does with an entry.  It returns when there is no chunk. -/
def tryEntry (decoder : Decoder) :
    Except Fault (Option Chunk × Process) → Option (Decoder × List Chunk × Process)
  | .ok (some chunk, p) => some (decoder, [chunk], p)
  | .ok (none, p) => some (.returned, [], p)
  | .error _ => none

/-- A step of `run`.  The thread has no step when it has returned, and when the
behaviour is undefined. -/
def decode (r : RecvDecode) (stack : Nat → UInt8) (p : Process) :
    Decoder → Option (Decoder × List Chunk × Process)
  | .next totalRestoredChunkNumber startID endID =>
      if totalRestoredChunkNumber = r.totalChunkNumber then some (.returned, [], p)
      else
        match p.disk.recipeFile r.fileNameHash.toList with
        | none => some (.returned, [], p)
        | some bytes =>
            let readBuffer := readBuffer bytes stack startID
            some (.batch totalRestoredChunkNumber startID endID readBuffer 0, [], p)
  | .batch totalRestoredChunkNumber startID endID readBuffer i =>
      if i < batchCount startID endID then
        tryEntry (.batch totalRestoredChunkNumber startID endID readBuffer (i + 1))
          (p.restoreEntry (entryOfBuffer readBuffer i))
      else
        let restored := u32 (totalRestoredChunkNumber + batchCount startID endID)
        some (.next restored endID (r.nextEnd restored endID), [], p)
  | .returned => none

end RecvDecode

theorem RecipeHead.totalChunkNumber_ofBytes (bytes : Bytes) :
    (RecipeHead.ofBytes bytes).totalChunkNumber < 2 ^ 64 :=
  decode_lt 8 _

/-- The chunk count of the head, which stays as it was in memory when the head cannot be
read. -/
def Disk.totalChunkNumber (uninit : UInt64) (fileNameHash : Bytes) (disk : Disk) : Nat :=
  match disk.restoreRecipeHead fileNameHash with
  | .ok recipe => recipe.fileRecipeHead.totalChunkNumber
  | .error _ => uninit.toNat

theorem Disk.totalChunkNumber_lt (uninit : UInt64) (fileNameHash : Bytes) (disk : Disk) :
    disk.totalChunkNumber uninit fileNameHash < 2 ^ 64 := by
  rw [Disk.totalChunkNumber, Disk.restoreRecipeHead]
  cases disk.fileName2metaDB fileNameHash with
  | none => exact uninit.toNat_lt
  | some name =>
      dsimp only
      cases disk.recipes name with
      | none => exact uninit.toNat_lt
      | some bytes => exact RecipeHead.totalChunkNumber_ofBytes _

theorem i32_bounds (n : Int) : -2 ^ 31 ≤ i32 n ∧ i32 n < 2 ^ 31 := by
  rw [i32, Int.bmod_def]
  split <;> omega

/-- The constructor of `RecvDecode`. -/
def recvDecode (sha256 : Bytes → Hash) (uninit : UInt64) (config : Configure) (fileName : Bytes)
    (disk : Disk) : RecvDecode where
  fileNameHash := generateHash sha256 fileName
  totalChunkNumber := disk.totalChunkNumber uninit (generateHash sha256 fileName).toList
  total_lt := disk.totalChunkNumber_lt uninit _
  sendChunkBatchSize := i32 config.sendChunkBatchSize
  batch_int := i32_bounds _

/-- A process that restores a file. -/
structure Restoring where
  /-- `storageObj_`. -/
  storage : Process
  /-- The threads of `RecvDecode::run`. -/
  decoders : Nat → Decoder
  /-- The queue. -/
  queue : List Chunk
  /-- What `Retriever::recvThread` has written. -/
  received : List Chunk

/-- The threads at their begin. -/
def Restoring.start (r : RecvDecode) (p : Process) : Restoring :=
  ⟨p, fun _ => .next 0 0 r.firstEnd, [], []⟩

/-- A step of one of the threads. -/
inductive Restoring.Step (r : RecvDecode) (stack : Nat → Nat → UInt8) (threads : Nat) :
    Restoring → Restoring → Prop where
  | decode {s : Restoring} {t : Nat} {decoder : Decoder} {pushed : List Chunk} {p : Process} :
      t < threads → r.decode (stack t) s.storage (s.decoders t) = some (decoder, pushed, p) →
      Step r stack threads s
        ⟨p, Function.update s.decoders t decoder, s.queue ++ pushed, s.received⟩
  | recv {s : Restoring} {newData : Chunk} {queue : List Chunk} :
      s.received.length < u32 r.totalChunkNumber → s.queue = newData :: queue →
      Step r stack threads s ⟨s.storage, s.decoders, queue, s.received ++ [newData]⟩

/-- The entry at a place of a recipe. -/
def entryAt (bytes : Bytes) (stack : Nat → UInt8) (j : Nat) : RecipeEntry :=
  entryOfBuffer (readBuffer bytes stack j) 0

/-- A batch may begin at any entry. -/
theorem entryOfBuffer_readBuffer (bytes : Bytes) (stack : Nat → UInt8) (startID i : Nat) :
    entryOfBuffer (readBuffer bytes stack startID) i = entryAt bytes stack (startID + i) := by
  have hread : ∀ n off, Buffer.read (readBuffer bytes stack startID) (i * recipeEntrySize + off) n =
      Buffer.read (readBuffer bytes stack (startID + i)) off n := by
    intro n
    induction n with
    | zero => exact fun off => rfl
    | succ n ih =>
        intro off
        have hpos : recipeSize + startID * recipeEntrySize + (i * recipeEntrySize + off) =
            recipeSize + (startID + i) * recipeEntrySize + off := by
          rw [Nat.add_mul, Nat.add_assoc, Nat.add_assoc, Nat.add_assoc]
        rw [Buffer.read, Buffer.read, Nat.add_assoc, ih, readBuffer, readBuffer, hpos]
  have h := hread recipeEntrySize 0
  rw [Nat.add_zero] at h
  rw [entryAt, entryOfBuffer, entryOfBuffer, h, Nat.zero_mul]

/-- An entry that is in the file is read. -/
theorem entryAt_eq {recipe : Recipe} {entries : List RecipeEntry} {entry : RecipeEntry}
    {rest : Bytes} {j : Nat} (hentry : entries[j]? = some entry) (hfits : entry.Fits)
    (stack : Nat → UInt8) :
    entryAt (recipe.toBytes ++ (entries.flatMap RecipeEntry.toBytes ++ rest)) stack j = entry := by
  let bytes := recipe.toBytes ++ (entries.flatMap RecipeEntry.toBytes ++ rest)
  obtain ⟨hj, rfl⟩ := List.getElem?_eq_some_iff.mp hentry
  have hdrop : bytes.drop (recipeSize + j * recipeEntrySize) = entries[j].toBytes ++
      ((entries.drop (j + 1)).flatMap RecipeEntry.toBytes ++ rest) := by
    rw [← List.drop_drop, List.drop_left' (Recipe.length_toBytes recipe), Nat.mul_comm,
      drop_records RecipeEntry.length_toBytes hj.le, List.drop_eq_getElem_cons hj,
      List.flatMap_cons, List.append_assoc]
  have hread : Buffer.read (readBuffer bytes stack j) 0 recipeEntrySize = entries[j].toBytes := by
    rw [← RecipeEntry.length_toBytes entries[j]]
    refine Buffer.read_eq fun k byte hbyte => ?_
    have hget : bytes[recipeSize + j * recipeEntrySize + k]? = some byte := by
      obtain ⟨hk, _⟩ := List.getElem?_eq_some_iff.mp hbyte
      rw [← List.getElem?_drop, hdrop, List.getElem?_append_left hk, hbyte]
    rw [Nat.zero_add, readBuffer, List.getD_eq_getElem?_getD, hget, Option.getD_some]
  have hofBytes := RecipeEntry.ofBytes_append hfits []
  rw [List.append_nil] at hofBytes
  rw [entryAt, entryOfBuffer, Nat.zero_mul, hread, hofBytes]

/-! ## Where a thread is -/

/-- A batch from `startID` may end at `endID`: it ends inside the recipe when a `uint32_t`
can count the entries. -/
structure RecvDecode.Target (r : RecvDecode) (startID endID : Nat) : Prop where
  /-- `endID` is a `uint32_t`. -/
  lt : endID < 2 ^ 32
  /-- The batch is inside the recipe. -/
  inside : r.totalChunkNumber < 2 ^ 32 → startID ≤ endID ∧ endID ≤ r.totalChunkNumber

/-- The thread has pushed the first `n` chunks. -/
inductive Decoder.At (r : RecvDecode) (file : Option Bytes) (stack : Nat → UInt8) (n : Nat) :
    Decoder → Prop where
  | next {endID : Nat} :
      (n ≠ r.totalChunkNumber → r.Target n endID) → Decoder.At r file stack n (.next n n endID)
  | batch {startID endID i : Nat} {bytes : Bytes} :
      file = some bytes → startID + i = n → startID ≠ r.totalChunkNumber →
      r.Target startID endID → i ≤ batchCount startID endID →
      Decoder.At r file stack n
        (.batch startID startID endID (readBuffer bytes stack startID) i)

/-- What a thread has left to do before it stops at entry `K`. -/
def Decoder.measure (r : RecvDecode) (K : Nat) : Decoder → Nat
  | .next restored startID endID =>
      4 * (K - restored) + if restored = r.totalChunkNumber then 1
        else if batchCount startID endID = 0 then 5 else 2
  | .batch restored startID endID _ i =>
      4 * (K - (restored + i)) + if i < batchCount startID endID then 1 else 3
  | .returned => 0

theorem add_batchCount {startID endID : Nat} (hend : endID < 2 ^ 32)
    (h : startID + batchCount startID endID < 2 ^ 32) :
    startID + batchCount startID endID = endID := by
  rw [batchCount, u32] at h ⊢
  omega

theorem batchCount_add {startID n : Nat} (hstart : startID < 2 ^ 32) (hn : n < 2 ^ 32) :
    batchCount startID (u32 (startID + n)) = n := by
  rw [batchCount, u32, u32]
  omega

theorem RecvDecode.left_eq (r : RecvDecode) {n : Nat} (hn : n ≤ r.totalChunkNumber) :
    u64 (r.totalChunkNumber - n) = r.totalChunkNumber - n := by
  have hfits := r.total_lt
  rw [u64]
  omega

theorem RecvDecode.restoreChunkBatchSize_lt (r : RecvDecode) :
    r.restoreChunkBatchSize < 2 ^ 32 := by
  rw [RecvDecode.restoreChunkBatchSize]
  omega

theorem RecvDecode.restoreChunkBatchSize_eq_zero (r : RecvDecode) :
    r.restoreChunkBatchSize = 0 ↔ r.sendChunkBatchSize = 0 := by
  have hint := r.batch_int
  rw [RecvDecode.restoreChunkBatchSize]
  omega

theorem RecvDecode.target_firstEnd (r : RecvDecode) (h : 0 ≠ r.totalChunkNumber) :
    r.Target 0 r.firstEnd := by
  rw [RecvDecode.firstEnd]
  split
  · refine ⟨u32_lt _, fun hlt => ⟨Nat.zero_le _, ?_⟩⟩
    rw [u32, u64]
    omega
  · exact ⟨by decide, fun _ => ⟨Nat.le_refl _, Nat.zero_le _⟩⟩

theorem RecvDecode.target_nextEnd (r : RecvDecode) {n : Nat} (hn : n ≤ r.totalChunkNumber) :
    r.Target n (r.nextEnd n n) := by
  rw [RecvDecode.nextEnd, r.left_eq hn]
  split
  · refine ⟨u32_lt _, fun hlt => ?_⟩
    rw [u32, Nat.mod_eq_of_lt (by omega)]
    omega
  · refine ⟨u32_lt _, fun hlt => ?_⟩
    rw [u32, Nat.mod_eq_of_lt (by omega)]
    omega

/-- A later batch is not empty. -/
theorem RecvDecode.batchCount_nextEnd (r : RecvDecode) {n : Nat} (hn : n < r.totalChunkNumber)
    (hsmall : n < 2 ^ 32) (hbatch : r.restoreChunkBatchSize ≠ 0) :
    batchCount n (r.nextEnd n n) ≠ 0 := by
  have hlt := r.restoreChunkBatchSize_lt
  rw [RecvDecode.nextEnd, r.left_eq hn.le]
  split
  · rw [batchCount_add hsmall (by omega)]
    omega
  · rwa [batchCount_add hsmall hlt]

theorem Decoder.At.not_returned {r : RecvDecode} {file : Option Bytes} {stack : Nat → UInt8}
    {n : Nat} : ¬ Decoder.At r file stack n .returned := nofun

theorem Decoder.at_start {r : RecvDecode} {file : Option Bytes} {stack : Nat → UInt8} :
    Decoder.At r file stack 0 (.next 0 0 r.firstEnd) :=
  .next fun h => r.target_firstEnd h

/-- What a thread does that has pushed the first `n` chunks. -/
inductive Decoder.Does (r : RecvDecode) (file : Option Bytes) (stack : Nat → UInt8) (n : Nat)
    (p : Process) (decoder : Decoder) : Prop where
  /-- It goes on without an entry. -/
  | moves {decoder' : Decoder} {bytes : Bytes} :
      file = some bytes → r.totalChunkNumber ≠ 0 → decoder'.At r file stack n →
      (r.restoreChunkBatchSize ≠ 0 → ∀ K, decoder'.measure r K < decoder.measure r K) →
      r.decode stack p decoder = some (decoder', [], p) → Does r file stack n p decoder
  /-- It has all chunks. -/
  | finishes :
      n = r.totalChunkNumber → r.decode stack p decoder = some (.returned, [], p) →
      Does r file stack n p decoder
  /-- It does not find the recipe. -/
  | gives_up :
      file = none → r.decode stack p decoder = some (.returned, [], p) →
      Does r file stack n p decoder
  /-- It tries the next entry. -/
  | tries {decoder' : Decoder} {bytes : Bytes} :
      file = some bytes → n ≠ r.totalChunkNumber → decoder'.At r file stack (n + 1) →
      (∀ K, n < K → decoder'.measure r K + 2 ≤ decoder.measure r K) →
      r.decode stack p decoder =
        RecvDecode.tryEntry decoder' (p.restoreEntry (entryAt bytes stack n)) →
      Does r file stack n p decoder

theorem Decoder.At.does {r : RecvDecode} {file : Option Bytes} {stack : Nat → UInt8} {n : Nat}
    {decoder : Decoder} (h : decoder.At r file stack n) {p : Process}
    (hfile : p.disk.recipeFile r.fileNameHash.toList = file) (hle : n ≤ r.totalChunkNumber)
    (hsmall : n < 2 ^ 32) : decoder.Does r file stack n p := by
  cases h with
  | @next endID htarget =>
      by_cases htotal : n = r.totalChunkNumber
      · exact .finishes htotal (by rw [RecvDecode.decode, if_pos htotal])
      · cases file with
        | none =>
            refine .gives_up rfl ?_
            rw [RecvDecode.decode, if_neg htotal, hfile]
        | some bytes =>
            have hpos : r.totalChunkNumber ≠ 0 := by omega
            refine .moves rfl hpos (.batch (i := 0) rfl rfl htotal (htarget htotal) (Nat.zero_le _))
              (fun _ K => ?_) ?_
            · rw [Decoder.measure, Decoder.measure, if_neg htotal, Nat.add_zero]
              split <;> split <;> omega
            · rw [RecvDecode.decode, if_neg htotal, hfile]
  | @batch startID endID i bytes hbytes hn htotal htarget hi =>
      subst hn
      by_cases hlt : i < batchCount startID endID
      · have hat : Decoder.At r file stack (startID + i + 1)
            (.batch startID startID endID (readBuffer _ stack startID) (i + 1)) :=
          .batch hbytes (Nat.add_assoc startID i 1).symm htotal htarget hlt
        refine .tries hbytes ?_ hat (fun K hK => ?_) ?_
        · intro heq
          obtain ⟨hstart, hend⟩ := htarget.inside (heq ▸ hsmall)
          have hlt32 := htarget.lt
          rw [batchCount, u32] at hlt
          omega
        · rw [Decoder.measure, Decoder.measure, if_pos hlt]
          split <;> omega
        · rw [RecvDecode.decode, if_pos hlt, entryOfBuffer_readBuffer]
      · obtain rfl : i = batchCount startID endID := Nat.le_antisymm hi (Nat.not_lt.mp hlt)
        have hend := add_batchCount htarget.lt hsmall
        have hu32 : u32 endID = endID := Nat.mod_eq_of_lt htarget.lt
        rw [hend] at hle ⊢
        have hpos : r.totalChunkNumber ≠ 0 := by omega
        refine .moves hbytes hpos (.next fun _ => r.target_nextEnd hle) (fun hbatch K => ?_) ?_
        · rw [Decoder.measure, Decoder.measure, if_neg hlt, hend]
          split
          · omega
          · next hne =>
              rw [if_neg (r.batchCount_nextEnd (Nat.lt_of_le_of_ne hle hne) htarget.lt hbatch)]
              omega
        · rw [RecvDecode.decode, if_neg hlt]
          simp only [hend, hu32]

end Dedup
