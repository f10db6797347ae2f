import JpegStorage.Dedup.Upload
import JpegStorage.Lib.Interrupt

/-!
# Processes that are killed

`Killable` operations are those of the store and the chunker with the disks that are left
when the process is killed in them.  The result of each is that of the operation
itself (`upload_result`), and a process is killed between two changes of the disk or while it
writes a file.

A file that is opened to be written is empty at first, and then some of its bytes are in it.
A database does an insertion completely or not at all, and the few bytes of `.StorageConfig`
are written at once.
-/

namespace Dedup

open Interrupt
open Interruptible (lift atomic fold)

/-- An operation in which the process may be killed, with the disk that is left then. -/
abbrev Killable (α : Type) := Interruptible Disk Fault α

namespace Killable

/-! ## The store -/

/-- `saveTOFile`. -/
def saveTOFile (p : Process) : Killable Process where
  result := p.saveTOFile
  leaves := {disk | disk = p.disk ∨ ∃ bytes cut,
    p.core.currentContainer.copy 0 p.core.currentContainer.used = .ok bytes ∧ cut <+: bytes ∧
      disk = p.disk.putContainer p.core.lastContainerFileName cut}

/-- The current container goes to its file, and an empty one takes its place. -/
def rotate (p : Process) : Killable Process := do
  let p ← saveTOFile p
  pure { p with core :=
    { p.core with lastContainerFileName := Permute.step p.core.lastContainerFileName,
                  currentContainer := { p.core.currentContainer with used := 0 } } }

/-- The begin of both branches of `writeContainer`. -/
def makeRoom (data : Bytes) (p : Process) : Killable Process :=
  if p.core.Fits data then pure p else rotate p

/-- `saveChunk`.  Nothing of a chunk is on the disk before its entry is. -/
def saveChunk (hash data : Bytes) (p : Process) : Killable Process := do
  let p ← makeRoom data p
  let (p, key) ← lift (p.place data)
  atomic p.disk (.ok (p.record hash key))

/-- What the chunker does with a chunk. -/
def dedupChunk (hash data : Bytes) (p : Process) : Killable Process :=
  match p.disk.fp2ChunkDB hash with
  | some _ => pure p
  | none => saveChunk hash data p

/-- Bytes at the end of a recipe file. -/
def appendRecipe (name : Name) (bytes : Bytes) (disk : Disk) : Killable Disk where
  result := .ok (disk.appendRecipe name bytes)
  leaves := {disk' | disk' = disk ∨ ∃ cut, cut <+: bytes ∧ disk' = disk.appendRecipe name cut}

/-- `saveRecipe`. -/
def saveRecipe (name : Name) (recipeHead : Recipe) (recipeList : List RecipeEntry) (status : Bool)
    (disk : Disk) : Killable Disk :=
  appendRecipe name ((if status then [] else recipeHead.toBytes) ++ savedEntries recipeList) disk

/-- `checkRecipeStatus`. -/
def checkRecipeStatus (recipeHead : Recipe) (recipeList : List RecipeEntry) (disk : Disk) :
    Killable Disk :=
  let key := recipeHead.fileRecipeHead.fileNameHash.toList
  match disk.fileName2metaDB key with
  | some name => saveRecipe name recipeHead recipeList true disk
  | none => do
      let disk ← atomic disk (.ok (disk.putName key (recipeName key)))
      saveRecipe (recipeName key) recipeHead recipeList false disk

/-- The destructor. -/
def finish (p : Process) : Killable Disk := do
  let config := (p.core.lastContainerFileName, p.core.currentContainer.used)
  let disk ← atomic p.disk (.ok (p.disk.putConfig config))
  let p ← saveTOFile ⟨p.core, disk⟩
  pure p.disk

/-! ## The chunker -/

/-- A chunk is cut off. -/
def emit (sha256 : Bytes → Hash) (memory : Memory) (data : Bytes) (saving : Saving) :
    Killable Saving :=
  if maxChunkSize < data.length then lift (.error .undefined)
  else do
    let chunkID := saving.chunkIDCnt
    let hash := generateHash sha256 data
    let entry := savedEntry sha256 chunkID (memory.encryptKey chunkID) data
    let key ← lift (savedKey hash (memory.afterHash chunkID))
    let storage ← dedupChunk key data saving.storage
    pure ⟨u64 (chunkID + 1), saving.recipeList ++ [entry], storage⟩

/-- Chunks that are cut off one after the other. -/
def emitAll (sha256 : Bytes → Hash) (memory : Memory) : List Bytes → Saving → Killable Saving :=
  fold (emit sha256 memory)

/-- The final chunk. -/
def emitFinal (sha256 : Bytes → Hash) (memory : Memory) (cutter : Cutter) (saving : Saving) :
    Killable Saving :=
  if cutter.chunkBuffer = [] then pure saving else emit sha256 memory cutter.chunkBuffer saving

/-- The loop body of `varSizeChunking`. -/
def putByte (sha256 : Bytes → Hash) (memory : Memory) (chunker : Chunker) (byte : UInt8)
    (cutter : Cutter) (saving : Saving) : Killable (Cutter × Saving) :=
  if chunker.maxChunkSize ≤ cutter.chunkBuffer.length then lift (.error .undefined)
  else
    match chunker.cutByte byte cutter with
    | (cutter, none) => pure (cutter, saving)
    | (cutter, some chunk) => do
        let saving ← emit sha256 memory chunk saving
        pure (cutter, saving)

/-- The bytes of a block. -/
def putBytes (sha256 : Bytes → Hash) (memory : Memory) (chunker : Chunker) :
    Bytes → Cutter → Saving → Killable (Cutter × Saving)
  | [], cutter, saving => pure (cutter, saving)
  | byte :: bytes, cutter, saving => do
      let (cutter, saving) ← putByte sha256 memory chunker byte cutter saving
      putBytes sha256 memory chunker bytes cutter saving

/-- The blocks of the file. -/
def readFile (sha256 : Bytes → Hash) (memory : Memory) (chunker : Chunker) :
    Nat → Bytes → Cutter → Saving → Nat → Killable (Cutter × Saving × Nat)
  | 0, _, _, saving, _ => atomic saving.storage.disk (.error .hangs)
  | fuel + 1, file, cutter, saving, fileSize => do
      let block := file.take chunker.readSize
      let len := i32 block.length
      let fileSize := u64 (fileSize + len)
      let (cutter, saving) ← putBytes sha256 memory chunker (block.take len.toNat) cutter saving
      if block.length < chunker.readSize then pure (cutter, saving, fileSize)
      else
        readFile sha256 memory chunker fuel (file.drop chunker.readSize) cutter saving fileSize

/-- `varSizeChunking`. -/
def varSizeChunking (sha256 : Bytes → Hash) (memory : Memory) (chunker : Chunker)
    (fileNameHash : Hash) (file : Bytes) (p : Process) : Killable Process := do
  let (cutter, saving, fileSize) ←
    readFile sha256 memory chunker (file.length + 1) file ⟨[], memory.winFp.toNat⟩ ⟨0, [], p⟩ 0
  let saving ← emitFinal sha256 memory cutter saving
  let head : RecipeHead := ⟨fileSize, fileNameHash, saving.chunkIDCnt⟩
  let disk ← checkRecipeStatus ⟨head, head⟩ saving.recipeList saving.storage.disk
  pure ⟨saving.storage.core, disk⟩

/-- `client -s`. -/
def upload (sha256 : Bytes → Hash) (memory : Memory) (config : Configure) (name file : Bytes)
    (disk : Disk) : Killable Disk := do
  let p ← lift (Process.start memory.body config.maxContainerSize disk)
  let chunker ← lift config.chunkerInit
  let p ← varSizeChunking sha256 memory chunker (generateHash sha256 name) file p
  finish p

/-! ## What is not killed -/

theorem makeRoom_result (data : Bytes) (p : Process) :
    (makeRoom data p).result = p.makeRoom data := by
  rw [makeRoom, Process.makeRoom]
  split <;> rfl

theorem saveChunk_result (hash data : Bytes) (p : Process) :
    (saveChunk hash data p).result = p.saveChunk hash data := by
  rw [Process.saveChunk, Process.writeContainer, bind_assoc, ← makeRoom_result]
  rfl

theorem dedupChunk_result (hash data : Bytes) (p : Process) :
    (dedupChunk hash data p).result = p.dedupChunk hash data := by
  rw [dedupChunk, Process.dedupChunk]
  cases p.disk.fp2ChunkDB hash with
  | none => exact saveChunk_result hash data p
  | some key => rfl

theorem checkRecipeStatus_result (recipeHead : Recipe) (recipeList : List RecipeEntry)
    (disk : Disk) : (checkRecipeStatus recipeHead recipeList disk).result =
      .ok (disk.checkRecipeStatus recipeHead recipeList) := by
  rw [checkRecipeStatus, Disk.checkRecipeStatus]
  cases disk.fileName2metaDB recipeHead.fileRecipeHead.fileNameHash.toList <;> rfl

theorem finish_result (p : Process) : (finish p).result = p.finish := rfl

section
variable {sha256 : Bytes → Hash} {memory : Memory} {chunker : Chunker}

theorem emit_result (data : Bytes) (saving : Saving) :
    (emit sha256 memory data saving).result = saving.emit sha256 memory data := by
  rw [emit, Saving.emit]
  split
  · rfl
  · simp only [Interruptible.result_bind, dedupChunk_result]
    rfl

theorem emitAll_result (chunks : List Bytes) (saving : Saving) :
    (emitAll sha256 memory chunks saving).result = saving.emitAll sha256 memory chunks := by
  induction chunks generalizing saving with
  | nil => rfl
  | cons data chunks ih =>
      rw [emitAll, fold, Saving.emitAll, Interruptible.result_bind, emit_result]
      exact bind_congr ih

theorem emitFinal_result (cutter : Cutter) (saving : Saving) :
    (emitFinal sha256 memory cutter saving).result = saving.emitFinal sha256 memory cutter := by
  rw [emitFinal, Saving.emitFinal]
  split
  · rfl
  · exact emit_result _ saving

theorem putByte_result (byte : UInt8) (cutter : Cutter) (saving : Saving) :
    (putByte sha256 memory chunker byte cutter saving).result =
      chunker.putByte sha256 memory byte cutter saving := by
  rw [putByte, Chunker.putByte]
  split
  · rfl
  · cases chunker.cutByte byte cutter with
    | mk cutter chunk =>
        cases chunk with
        | none => rfl
        | some chunk =>
            dsimp only
            rw [Interruptible.result_bind, emit_result]
            rfl

theorem putBytes_result (bytes : Bytes) (cutter : Cutter) (saving : Saving) :
    (putBytes sha256 memory chunker bytes cutter saving).result =
      chunker.putBytes sha256 memory bytes cutter saving := by
  induction bytes generalizing cutter saving with
  | nil => rfl
  | cons byte bytes ih =>
      rw [putBytes, Chunker.putBytes, Interruptible.result_bind, putByte_result]
      exact bind_congr fun result => ih result.1 result.2

theorem readFile_result (fuel : Nat) (file : Bytes) (cutter : Cutter) (saving : Saving)
    (fileSize : Nat) : (readFile sha256 memory chunker fuel file cutter saving fileSize).result =
      chunker.readFile sha256 memory fuel file cutter saving fileSize := by
  induction fuel generalizing file cutter saving fileSize with
  | zero => rfl
  | succ fuel ih =>
      rw [readFile, Chunker.readFile, Interruptible.result_bind, putBytes_result]
      refine bind_congr fun result => ?_
      obtain ⟨cutter, saving⟩ := result
      dsimp only
      split
      · rfl
      · exact ih ..

theorem varSizeChunking_result (fileNameHash : Hash) (file : Bytes) (p : Process) :
    (varSizeChunking sha256 memory chunker fileNameHash file p).result =
      chunker.varSizeChunking sha256 memory fileNameHash file p := by
  rw [varSizeChunking, Chunker.varSizeChunking, Interruptible.result_bind, readFile_result]
  refine bind_congr fun result => ?_
  obtain ⟨cutter, saving, fileSize⟩ := result
  dsimp only
  rw [Interruptible.result_bind, emitFinal_result]
  refine bind_congr fun saving => ?_
  rw [Interruptible.result_bind, checkRecipeStatus_result]
  rfl

/-- A process that is not killed does what `upload` says. -/
theorem upload_result (config : Configure) (name file : Bytes) (disk : Disk) :
    (upload sha256 memory config name file disk).result =
      Dedup.upload sha256 memory config name file disk := by
  rw [upload, Dedup.upload, Interruptible.result_bind, Interruptible.result_lift]
  refine bind_congr fun p => ?_
  rw [Interruptible.result_bind, Interruptible.result_lift]
  refine bind_congr fun chunker => ?_
  rw [Interruptible.result_bind, varSizeChunking_result]
  exact bind_congr finish_result

end

/-! ## What is cut off is saved -/

section
variable {sha256 : Bytes → Hash} {memory : Memory} {chunker : Chunker} {cutter cutter' : Cutter}
  {chunks : List Bytes}

theorem emitFinal_eq (cutter : Cutter) (saving : Saving) :
    emitFinal sha256 memory cutter saving = emitAll sha256 memory cutter.final saving := by
  rw [emitFinal, Cutter.final, emitAll]
  split
  · rfl
  · exact (Interruptible.bind_pure _).symm

/-- The chunks cut off in a block are saved. -/
theorem putBytes_cutBytes {bytes : Bytes}
    (h : chunker.cutBytes bytes cutter = .ok (chunks, cutter')) (saving : Saving) :
    putBytes sha256 memory chunker bytes cutter saving =
      emitAll sha256 memory chunks saving >>= fun saving => pure (cutter', saving) := by
  induction bytes generalizing cutter chunks saving with
  | nil =>
      cases h
      exact (Interruptible.pure_bind _ _).symm
  | cons byte bytes ih =>
      obtain ⟨hroom, chunks', hrest, rfl⟩ := Chunker.cutBytes_cons_ok h
      rw [putBytes, putByte, if_neg (Nat.not_le_of_lt hroom)]
      cases hcut : chunker.cutByte byte cutter with
      | mk cutter₁ chunk =>
          rw [hcut] at hrest
          cases chunk with
          | none => exact (Interruptible.pure_bind _ _).trans (ih hrest saving)
          | some data =>
              change (emit sha256 memory data saving >>= fun saving => pure (cutter₁, saving)) >>=
                _ = (emit sha256 memory data saving >>= emitAll sha256 memory chunks') >>= _
              rw [Interruptible.bind_assoc, Interruptible.bind_assoc]
              refine Interruptible.bind_congr fun saving => ?_
              exact (Interruptible.pure_bind _ _).trans (ih hrest saving)

/-- The chunks cut off in a file are saved. -/
theorem readFile_cutBlocks {fuel : Nat} {file : Bytes} {fileSize fileSize' : Nat}
    (h : chunker.cutBlocks fuel file cutter fileSize = .ok (chunks, cutter', fileSize'))
    (saving : Saving) :
    readFile sha256 memory chunker fuel file cutter saving fileSize =
      emitAll sha256 memory chunks saving >>= fun saving =>
        pure (cutter', saving, fileSize') := by
  induction fuel generalizing file cutter chunks saving fileSize with
  | zero => cases h
  | succ fuel ih =>
      rw [Chunker.cutBlocks_succ] at h
      obtain ⟨⟨chunks₁, cutter₁⟩, hblock, h⟩ := Run.except_bind_eq_ok.mp h
      rw [readFile, putBytes_cutBytes hblock, Interruptible.bind_assoc]
      split at h
      next hlast =>
        cases h
        refine Interruptible.bind_congr fun saving => ?_
        rw [Interruptible.pure_bind]
        exact if_pos hlast
      next hmore =>
        obtain ⟨⟨chunks₂, cutter₂, fileSize₂⟩, hrest, h⟩ := Run.except_bind_eq_ok.mp h
        cases h
        rw [emitAll, Interruptible.fold_append, Interruptible.bind_assoc]
        refine Interruptible.bind_congr fun saving => ?_
        rw [Interruptible.pure_bind]
        exact (if_neg hmore).trans (ih hrest saving)

/-- The chunks of the file are saved, and then its recipe. -/
theorem varSizeChunking_eq (h : chunker.HasRoom) (hlow : 1 ≤ chunker.readSize) {file : Bytes}
    (hblocks : chunker.ShortBlocks file) (fileNameHash : Hash) (p : Process) :
    varSizeChunking sha256 memory chunker fileNameHash file p =
      emitAll sha256 memory (chunker.chunks memory.winFp file) ⟨0, [], p⟩ >>= fun saving =>
        let head : RecipeHead := ⟨u64 file.length, fileNameHash, saving.chunkIDCnt⟩
        checkRecipeStatus ⟨head, head⟩ saving.recipeList saving.storage.disk >>= fun disk =>
          pure ⟨saving.storage.core, disk⟩ := by
  have hempty : (⟨[], memory.winFp.toNat⟩ : Cutter).chunkBuffer.length < chunker.maxChunkSize :=
    h.pos
  have hread : chunker.chunksRead memory.winFp file =
      .ok (chunker.chunks memory.winFp file, u64 file.length) := by
    rw [Chunker.chunksRead_eq hlow hblocks, Chunker.cutFile_eq h file hempty]
    rfl
  obtain ⟨⟨chunks, cutter, fileSize⟩, hcut, hchunks⟩ := Run.except_bind_eq_ok.mp hread
  obtain ⟨hall, hsize⟩ := Prod.mk.inj (Except.ok.inj hchunks)
  rw [varSizeChunking, readFile_cutBlocks hcut, ← hall, ← hsize, emitAll,
    Interruptible.fold_append, Interruptible.bind_assoc, Interruptible.bind_assoc]
  refine Interruptible.bind_congr fun saving => ?_
  rw [Interruptible.pure_bind]
  change (emitFinal sha256 memory cutter saving >>= _) = _
  rw [emitFinal_eq]
  rfl

end

end Killable

end Dedup
