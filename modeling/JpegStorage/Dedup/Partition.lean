import JpegStorage.Dedup.Fingerprint
import JpegStorage.Dedup.ReadBlocks
import Mathlib.Data.List.Basic

/-!
# The chunks partition the file

A chunk that is cut off was long enough to be looked at (`firstTest_le`), so only the last
chunk may be short.  `chunkIDCnt` counts the chunks modulo `2^64`, and a recipe entry keeps
it modulo `2^32` (`emitAll_recipe`).
-/

namespace Dedup

/-! ## Short chunks -/

/-- A chunk that is cut off was looked at. -/
theorem Chunker.firstTest_le {chunker : Chunker} {bytes : Bytes} {cutter : Cutter} {chunk : Bytes}
    (h : chunk ∈ (chunker.cuts bytes cutter).1) : chunker.firstTest ≤ chunk.length := by
  induction bytes generalizing cutter with
  | nil => cases h
  | cons byte bytes ih =>
      rw [cuts] at h
      rcases List.mem_append.mp h with hnow | hlater
      · by_contra hshort
        rcases chunker.cutByte_cases byte cutter with ⟨winFp, hcut, _⟩ | hcut
        · rw [hcut] at hnow
          cases hnow
        · rw [hcut] at hnow
          obtain rfl := List.mem_singleton.mp hnow
          rw [List.length_append, List.length_singleton] at hshort
          rw [cutByte_window byte cutter (Nat.lt_of_not_le hshort)] at hcut
          simp at hcut
      · exact ih hlater

/-- All chunks but the last are as long as `minChunkSize`. -/
theorem Chunker.chunks_min {chunker : Chunker} {winFp : UInt16} {file chunk : Bytes}
    (h : chunk ∈ (chunker.chunks winFp file).dropLast) : chunker.minChunkSize ≤ chunk.length := by
  have hcut : chunk ∈ (chunker.cuts file ⟨[], winFp.toNat⟩).1 := by
    rw [chunks] at h
    dsimp only at h
    rw [Cutter.final] at h
    split at h
    · rw [List.append_nil] at h
      exact List.dropLast_subset _ h
    · rwa [List.dropLast_concat] at h
  exact (Nat.le_max_right ..).trans (firstTest_le hcut)

/-! ## The recipe -/

section
variable {sha256 : Bytes → Hash} {memory : Memory}

theorem Saving.emit_ok {data : Bytes} {saving saving' : Saving}
    (h : saving.emit sha256 memory data = .ok saving') :
    saving'.chunkIDCnt = u64 (saving.chunkIDCnt + 1) ∧
      saving'.recipeList = saving.recipeList ++
        [⟨u32 saving.chunkIDCnt, data.length, generateHash sha256 data,
          memory.encryptKey saving.chunkIDCnt⟩] := by
  rw [emit] at h
  split at h
  · cases h
  next hsize =>
    obtain ⟨key, _, h⟩ := Run.except_bind_eq_ok.mp h
    obtain ⟨storage, _, h⟩ := Run.except_bind_eq_ok.mp h
    cases h
    rw [savedEntry, i32_chunkSize (Nat.le_of_not_lt hsize)]
    exact ⟨rfl, rfl⟩

theorem u64_add (n : Nat) : u64 (u64 n + 1) = u64 (n + 1 : Nat) := by
  rw [u64, u64, u64]
  omega

theorem u32_u64 (n : Nat) : u32 (u64 n) = u32 n := by
  rw [u32, u32, u64]
  omega

/-- The recipe counts the chunks and keeps their sizes. -/
theorem Saving.emitAll_recipe {chunks : List Bytes} {saving saving' : Saving} {n : Nat}
    (hcount : saving.chunkIDCnt = u64 n)
    (h : saving.emitAll sha256 memory chunks = .ok saving') :
    saving'.chunkIDCnt = u64 (n + chunks.length : Nat) ∧
      saving'.recipeList.map (fun entry => (entry.chunkID, entry.chunkSize)) =
        saving.recipeList.map (fun entry => (entry.chunkID, entry.chunkSize)) ++
          (chunks.zipIdx n).map fun chunk => (u32 chunk.2, (chunk.1.length : Int)) := by
  induction chunks generalizing saving n with
  | nil =>
      cases h
      simpa using hcount
  | cons data chunks ih =>
      obtain ⟨saving₁, hemit, hrest⟩ := Run.except_bind_eq_ok.mp h
      obtain ⟨hcount₁, hlist₁⟩ := Saving.emit_ok hemit
      rw [hcount, u64_add] at hcount₁
      obtain ⟨hcount', hlist'⟩ := ih hcount₁ hrest
      refine ⟨?_, ?_⟩
      · rw [hcount', List.length_cons, Nat.add_assoc, Nat.add_comm 1]
      · rw [hlist', hlist₁, hcount, u32_u64]
        simp

theorem Saving.chunkID_emitAll {chunks : List Bytes} {p : Process} {saving : Saving} {k : Nat}
    (hk : k < chunks.length) (h : Saving.emitAll sha256 memory chunks ⟨0, [], p⟩ = .ok saving) :
    saving.recipeList[k]?.map RecipeEntry.chunkID = some (u32 k) := by
  obtain ⟨_, hlist⟩ := Saving.emitAll_recipe (n := 0) rfl h
  have hentry := congrArg (fun entries => entries[k]?.map Prod.fst) hlist
  simpa [hk] using hentry

end

/-- Small sizes in order. -/
def tinyChunks (slidingWinSize readSize : Nat) : Configure :=
  ⟨2, 1, 3, slidingWinSize, readSize, 1000, 1, 8388608⟩

theorem tinyChunks_ordered {slidingWinSize : Nat} (h : slidingWinSize ≤ 1) (readSize : Nat) :
    (tinyChunks slidingWinSize readSize).Ordered where
  window := h
  min := by simp [tinyChunks]
  average := by simp [tinyChunks]
  max := by simp [tinyChunks, maxChunkSize]

/-- The chunks of a file are a partition of it, and its recipe counts them. -/
theorem chunks_partition {config : Configure} (h : config.Ordered)
    (hwin : 1 ≤ config.slidingWinSize) :
    ∃ chunker, config.chunkerInit = .ok chunker ∧
      chunker.readSize = u64 (config.readSize * 1024 * 1024) ∧
      ∀ (sha256 : Bytes → Hash) (memory : Memory) (file : Bytes),
        1 ≤ chunker.readSize → chunker.ShortBlocks file →
        ∃ chunks,
          chunker.chunksRead memory.winFp file =
            .ok (chunks, u64 (chunks.map List.length).sum) ∧
          chunks.flatten = file ∧
          (∀ chunk ∈ chunks, chunk ≠ [] ∧ chunk.length ≤ config.maxChunkSize) ∧
          (∀ chunk ∈ chunks.dropLast, config.minChunkSize ≤ chunk.length) ∧
          ∀ (fileNameHash : Hash) (p : Process) (saving : Saving),
            Saving.emitAll sha256 memory chunks ⟨0, [], p⟩ = .ok saving →
            saving.recipeList.map (fun entry => (entry.chunkID, entry.chunkSize)) =
              chunks.zipIdx.map (fun chunk => (u32 chunk.2, (chunk.1.length : Int))) ∧
            let head : RecipeHead :=
              ⟨u64 (chunks.map List.length).sum, fileNameHash, u64 chunks.length⟩
            chunker.varSizeChunking sha256 memory fileNameHash file p =
              .ok ⟨saving.storage.core,
                saving.storage.disk.checkRecipeStatus ⟨head, head⟩ saving.recipeList⟩ := by
  obtain ⟨anchorMask, hinit⟩ := h.chunkerInit_ok hwin
  refine ⟨_, hinit, rfl, fun sha256 memory file hlow hblocks => ?_⟩
  generalize hchunker : (⟨config.minChunkSize, config.maxChunkSize, config.slidingWinSize,
    u64 (config.readSize * 1024 * 1024), anchorMask⟩ : Chunker) = chunker at hlow hblocks ⊢
  have hroom : chunker.HasRoom := by
    rw [← hchunker]
    exact h.hasRoom
  have hmin : chunker.minChunkSize = config.minChunkSize := by rw [← hchunker]
  have hmax : chunker.maxChunkSize = config.maxChunkSize := by rw [← hchunker]
  have hread : chunker.chunksRead memory.winFp file = .ok (chunker.chunks memory.winFp file,
      u64 ((chunker.chunks memory.winFp file).map List.length).sum) := by
    have hempty : (⟨[], memory.winFp.toNat⟩ : Cutter).chunkBuffer.length < chunker.maxChunkSize :=
      hroom.pos
    rw [Chunker.chunksRead_eq hlow hblocks, Chunker.cutFile_eq hroom file hempty,
      ← List.length_flatten, Chunker.flatten_chunks]
    rfl
  refine ⟨chunker.chunks memory.winFp file, hread, chunker.flatten_chunks _ file,
    fun chunk hchunk => ?_, fun chunk hchunk => ?_, fun fileNameHash p saving hsaving => ?_⟩
  · obtain ⟨hpos, hle⟩ := Chunker.chunks_sizes hroom hchunk
    exact ⟨List.ne_nil_of_length_pos hpos, hmax ▸ hle⟩
  · exact hmin ▸ Chunker.chunks_min hchunk
  · obtain ⟨hcount, hlist⟩ := Saving.emitAll_recipe (n := 0) rfl hsaving
    rw [Nat.zero_add] at hcount
    refine ⟨hlist, ?_⟩
    rw [Chunker.varSizeChunking_chunksRead hread, hsaving, ← hcount]
    rfl

/-- The file `abc` is cut behind the even byte. -/
theorem chunks_partition_abc :
    ∃ chunks, (tinyChunks 1 1).chunkerInit = .ok ⟨1, 3, 1, 1048576, 1⟩ ∧
      (⟨1, 3, 1, 1048576, 1⟩ : Chunker).chunksRead 0 [97, 98, 99] =
        .ok (chunks, u64 (chunks.map List.length).sum) ∧
      chunks.flatten = [97, 98, 99] ∧ chunks = [[97, 98], [99]] := by
  have hinit : (tinyChunks 1 1).chunkerInit = .ok ⟨1, 3, 1, 1048576, 1⟩ := by
    rw [tinyChunks]
    rfl
  obtain ⟨chunker, hinit', _, hchunks⟩ := chunks_partition (tinyChunks_ordered le_rfl 1) le_rfl
  cases hinit.symm.trans hinit'
  obtain ⟨chunks, hread, hflat, _⟩ := hchunks (fun _ => digestABC) zeroMemory [97, 98, 99]
    (by decide) ((Nat.min_le_right ..).trans_lt (by decide))
  have hcut : (⟨1, 3, 1, 1048576, 1⟩ : Chunker).chunksRead 0 [97, 98, 99] =
      .ok ([[97, 98], [99]], 3) := by decide
  exact ⟨chunks, hinit, hread, hflat, (Prod.mk.inj (Except.ok.inj (hread.symm.trans hcut))).1⟩

/-! ## Where the chunks are no partition -/

/-- Zeros are cut off two by two. -/
theorem cuts_zeros (n : Nat) :
    (⟨1, 3, 1, 1048576, 1⟩ : Chunker).cuts (List.replicate (2 * n) 0) ⟨[], 0⟩ =
      (List.replicate n [0, 0], ⟨[], 0⟩) := by
  induction n with
  | zero => rfl
  | succ n ih =>
      have hfirst : (⟨1, 3, 1, 1048576, 1⟩ : Chunker).cutByte 0 ⟨[], 0⟩ = (⟨[0], 0⟩, none) := rfl
      have hsecond : (⟨1, 3, 1, 1048576, 1⟩ : Chunker).cutByte 0 ⟨[0], 0⟩ =
          (⟨[], 0⟩, some [0, 0]) := by
        simp [Chunker.cutByte, Chunker.roll, Chunker.removeLUT, powerLUT, u16, u32, anchorValue]
      rw [Nat.mul_succ, List.replicate_succ, List.replicate_succ, Chunker.cuts, hfirst]
      simp only [Chunker.cuts, hsecond, ih]
      rfl

/-- Equal chunks are saved into an empty store. -/
theorem emitAll_equal (data : Bytes) (hsize : data.length ≤ maxChunkSize) {n : Nat}
    (hn : n < nameCount) :
    ∃ p saving, Process.start 0 8388608 .empty = .ok p ∧
      Saving.emitAll (fun _ => digestABC) zeroMemory (List.replicate n data) ⟨0, [], p⟩ =
        .ok saving := by
  obtain ⟨p, hstart, hp, _⟩ := Disk.stored_empty.start 0 (by simp : 8388608 ≤ 2 ^ 24)
  have hkeyed : Chunks.Keyed (fun _ => digestABC) {data} .empty :=
    fun key data hholds => absurd hholds Packing.Packs.holds_empty
  have hterminated : zeroMemory.Terminated := fun _ => rfl
  have hchunks : ∀ d ∈ List.replicate n data, d ∈ ({data} : Set Bytes) ∧ d.length ≤ maxChunkSize := by
    intro d hd
    rw [List.eq_of_mem_replicate hd]
    exact ⟨rfl, hsize⟩
  have hrotations : p.rotations (fun _ => digestABC) (List.replicate n data) ≤ n := by
    simpa using p.rotations_le (List.replicate n data)
  have hsaving : (⟨0, [], p⟩ : Saving).storage.Consistent .empty := hp
  obtain ⟨saving, _, hsaving, _⟩ := Saving.emitAll_ok hterminated (Set.injOn_singleton _ _)
    hchunks hsaving hkeyed ((Nat.zero_add _).trans_lt (hrotations.trans_lt hn))
      (by simpa using hn.trans (by decide : nameCount < 2 ^ 64))
  exact ⟨p, saving, hstart, hsaving⟩

/-- Without a window the first power has no place; blocks of no bytes have no end; a block
of two gigabytes is lost; and the chunk behind `2^32` chunks has the number of the first. -/
theorem chunks_no_partition :
    ((tinyChunks 0 1).Ordered ∧ (tinyChunks 0 1).chunkerInit = .error .undefined) ∧
    ((tinyChunks 1 0).Ordered ∧ (tinyChunks 1 0).chunkerInit = .ok ⟨1, 3, 1, 0, 1⟩ ∧
      (⟨1, 3, 1, 0, 1⟩ : Chunker).chunksRead 0 [7] = .error .hangs) ∧
    ((tinyChunks 1 2048).Ordered ∧
      (tinyChunks 1 2048).chunkerInit = .ok ⟨1, 3, 1, 2147483648, 1⟩ ∧
      ∀ chunks fileSize, (⟨1, 3, 1, 2147483648, 1⟩ : Chunker).chunksRead 0
        (List.replicate (2 ^ 31) 7) = .ok (chunks, fileSize) →
          chunks.flatten ≠ List.replicate (2 ^ 31) 7) ∧
    ((tinyChunks 1 1).Ordered ∧ (tinyChunks 1 1).chunkerInit = .ok ⟨1, 3, 1, 1048576, 1⟩ ∧
      (∃ fileSize, (⟨1, 3, 1, 1048576, 1⟩ : Chunker).chunksRead zeroMemory.winFp
        (List.replicate (2 * (2 ^ 32 + 1)) 0) =
          .ok (List.replicate (2 ^ 32 + 1) [0, 0], fileSize)) ∧
      ∃ p saving, Process.start 0 8388608 .empty = .ok p ∧
        Saving.emitAll (fun _ => digestABC) zeroMemory (List.replicate (2 ^ 32 + 1) [0, 0])
          ⟨0, [], p⟩ = .ok saving ∧
        saving.recipeList[2 ^ 32]?.map RecipeEntry.chunkID = some 0) := by
  refine ⟨⟨tinyChunks_ordered (Nat.zero_le 1) 1, by rw [tinyChunks]; rfl⟩,
    ⟨tinyChunks_ordered le_rfl 0, by rw [tinyChunks]; rfl, rfl⟩,
    ⟨tinyChunks_ordered le_rfl 2048, by rw [tinyChunks]; rfl, fun chunks fileSize hread hflat => ?_⟩,
    tinyChunks_ordered le_rfl 1, by rw [tinyChunks]; rfl, ?_, ?_⟩
  · have hshort := Chunker.shortBlocks_of_chunksRead hread hflat
    rw [Chunker.ShortBlocks, List.length_replicate] at hshort
    dsimp only at hshort
    omega
  · have hroom : (⟨1, 3, 1, 1048576, 1⟩ : Chunker).HasRoom := by
      simp [Chunker.HasRoom, Chunker.firstTest]
    have hempty : (⟨[], 0⟩ : Cutter).chunkBuffer.length < 3 := by simp
    have hblocks : (⟨1, 3, 1, 1048576, 1⟩ : Chunker).ShortBlocks
        (List.replicate (2 * (2 ^ 32 + 1)) 0) := (Nat.min_le_left ..).trans_lt (by decide)
    have hcut := Chunker.cutFile_eq hroom (List.replicate (2 * (2 ^ 32 + 1)) 0) hempty
    rw [cuts_zeros] at hcut
    have hread := Chunker.chunksRead_eq (by decide) hblocks zeroMemory.winFp
    change _ = (Chunker.cutFile _ _ ⟨[], 0⟩ >>= _) at hread
    rw [hcut, Run.ok_bind, Cutter.final, if_pos rfl, List.append_nil] at hread
    exact ⟨_, hread⟩
  · obtain ⟨p, saving, hstart, hsaving⟩ := emitAll_equal [0, 0] (by decide)
      (by decide : 2 ^ 32 + 1 < nameCount)
    have hlength : 2 ^ 32 < (List.replicate (2 ^ 32 + 1) ([0, 0] : Bytes)).length := by
      rw [List.length_replicate]
      exact Nat.lt_succ_self _
    refine ⟨p, saving, hstart, hsaving, ?_⟩
    rw [Saving.chunkID_emitAll hlength hsaving, u32, Nat.mod_self]

end Dedup
