import JpegStorage.Dedup.Blocks

/-!
# When the size of the blocks matters

When an `int` holds the size of every block, the chunks are those of the whole file
(`chunksRead_eq`).  When it does not, bytes are missing (`cutBlocks_length`).  Behind a
chunk the chunker starts again as at the beginning of a file (`cutFile_boundary`).
-/

namespace Dedup

namespace Chunker

/-! ## A block that is too long -/

section
variable {chunker : Chunker} {cutter cutter' : Cutter} {chunks : List Bytes}

/-- A block that is too long loses bytes. -/
theorem cutBlocks_length {fuel : Nat} {file : Bytes} {fileSize fileSize' : Nat}
    (h : chunker.cutBlocks fuel file cutter fileSize = .ok (chunks, cutter', fileSize')) :
    chunks.flatten.length + cutter'.chunkBuffer.length ≤
        cutter.chunkBuffer.length + file.length ∧
      (¬ chunker.ShortBlocks file → chunks.flatten.length + cutter'.chunkBuffer.length <
        cutter.chunkBuffer.length + file.length) := by
  induction fuel generalizing file cutter chunks fileSize with
  | zero => cases h
  | succ fuel ih =>
      rw [cutBlocks_succ] at h
      obtain ⟨⟨chunks₁, cutter₁⟩, hblock, h⟩ := Run.except_bind_eq_ok.mp h
      have hflat := congrArg List.length (flatten_cutBytes hblock)
      have hlen := i32_natCast_le (file.take chunker.readSize).length
      generalize (i32 (file.take chunker.readSize).length).toNat = len at hflat hlen
      simp only [List.length_append, List.length_take] at hflat hlen
      rw [ShortBlocks]
      split at h
      next hlast =>
        cases h
        dsimp only at hflat ⊢
        rw [List.length_take] at hlast
        omega
      · obtain ⟨⟨chunks₂, cutter₂, fileSize₂⟩, hrest, h⟩ := Run.except_bind_eq_ok.mp h
        cases h
        have hle := (ih hrest).1
        rw [List.length_drop] at hle
        rw [List.flatten_append, List.length_append]
        dsimp only at hflat hle ⊢
        omega

theorem shortBlocks_of_chunksRead {winFp : UInt16} {file : Bytes} {fileSize : Nat}
    (h : chunker.chunksRead winFp file = .ok (chunks, fileSize)) (hflat : chunks.flatten = file) :
    chunker.ShortBlocks file := by
  obtain ⟨⟨chunks₁, cutter, fileSize₁⟩, hblocks, h⟩ := Run.except_bind_eq_ok.mp h
  cases h
  by_contra hlong
  have hlt := (cutBlocks_length hblocks).2 hlong
  rw [← hflat, List.flatten_append, Cutter.flatten_final] at hlt
  simp at hlt

/-! ## Behind a chunk -/

theorem cutFile_cons_ok {byte : UInt8} {bytes : Bytes}
    (h : chunker.cutFile (byte :: bytes) cutter = .ok chunks) :
    cutter.chunkBuffer.length < chunker.maxChunkSize ∧
      ∃ chunks', chunker.cutFile bytes (chunker.cutByte byte cutter).1 = .ok chunks' ∧
        chunks = (chunker.cutByte byte cutter).2.toList ++ chunks' := by
  rw [cutFile] at h
  split at h
  · cases h
  next hroom =>
    obtain ⟨chunks', hrest, h⟩ := Run.except_bind_eq_ok.mp h
    cases h
    exact ⟨Nat.lt_of_not_le hroom, chunks', hrest, rfl⟩

theorem cutFile_cons {byte : UInt8} {bytes : Bytes}
    (hroom : cutter.chunkBuffer.length < chunker.maxChunkSize)
    (h : chunker.cutFile bytes (chunker.cutByte byte cutter).1 = .ok chunks) :
    chunker.cutFile (byte :: bytes) cutter =
      .ok ((chunker.cutByte byte cutter).2.toList ++ chunks) := by
  rw [cutFile, if_neg (Nat.not_le_of_lt hroom)]
  simp only [h]
  rfl

/-- The first chunk holds what is in the buffer, and more when there are bytes. -/
theorem cutFile_head {bytes chunk : Bytes}
    (h : chunker.cutFile bytes cutter = .ok (chunk :: chunks)) :
    bytes = [] ∧ chunk = cutter.chunkBuffer ∧ chunks = [] ∨
      cutter.chunkBuffer.length < chunk.length := by
  induction bytes generalizing cutter with
  | nil =>
      rw [cutFile, Cutter.final] at h
      split at h
      · cases h
      · cases h
        exact Or.inl ⟨rfl, rfl, rfl⟩
  | cons byte bytes ih =>
      obtain ⟨_, chunks', hrest, heq⟩ := cutFile_cons_ok h
      refine Or.inr ?_
      rcases chunker.cutByte_cases byte cutter with ⟨winFp, hcut, _⟩ | hcut
      · rw [hcut] at hrest heq
        obtain rfl : chunk :: chunks = chunks' := heq
        rcases ih hrest with ⟨_, rfl, _⟩ | hlt
        · simp
        · rw [List.length_append, List.length_singleton] at hlt
          exact (Nat.lt_succ_self _).trans hlt
      · rw [hcut] at heq
        cases heq
        simp

/-- A file is cut at a boundary of its chunks.  The induction is on the bytes in front of
the boundary, and an empty buffer stands for the beginning of a chunk. -/
theorem cutFile_boundary {front rest : Bytes} {chunks' : List Bytes}
    (hstart : cutter.chunkBuffer = [] → cutter.winFp = 0)
    (h : chunker.cutFile (front ++ rest) cutter = .ok (chunks ++ chunks'))
    (hflat : chunks.flatten = cutter.chunkBuffer ++ front) :
    chunker.cutFile front cutter = .ok chunks ∧
      chunker.cutFile rest ⟨[], 0⟩ = .ok chunks' := by
  induction front generalizing cutter chunks with
  | nil =>
      rw [List.append_nil] at hflat
      cases chunks with
      | nil =>
          have hempty : cutter.chunkBuffer = [] := hflat.symm
          have hcutter : cutter = ⟨[], 0⟩ := by
            rw [← hempty, ← hstart hempty]
          subst hcutter
          exact ⟨rfl, h⟩
      | cons chunk chunks =>
          rcases cutFile_head h with ⟨hrest, rfl, hlast⟩ | hlt
          · obtain ⟨rfl, rfl⟩ := List.append_eq_nil_iff.mp hlast
            rw [List.nil_append] at hrest
            subst hrest
            exact ⟨h, rfl⟩
          · rw [← hflat, List.flatten_cons, List.length_append] at hlt
            exact absurd hlt (Nat.not_lt.mpr (Nat.le_add_right ..))
  | cons byte front ih =>
      obtain ⟨hroom, chunks'', hrest, heq⟩ := cutFile_cons_ok h
      rcases chunker.cutByte_cases byte cutter with ⟨winFp, hcut, _⟩ | hcut
      · rw [hcut] at hrest heq
        obtain rfl : chunks ++ chunks' = chunks'' := heq
        have hne : cutter.chunkBuffer ++ [byte] ≠ [] := by simp
        obtain ⟨hfront, hback⟩ := ih (fun hnil => absurd hnil hne) hrest (by simpa using hflat)
        rw [← congrArg Prod.fst hcut] at hfront
        have hcons := cutFile_cons hroom hfront
        rw [hcut] at hcons
        exact ⟨hcons, hback⟩
      · rw [hcut] at hrest heq
        cases chunks with
        | nil => simp at hflat
        | cons chunk chunks =>
            obtain ⟨rfl, rfl⟩ := List.cons.inj heq
            obtain ⟨hfront, hback⟩ := ih (fun _ => rfl) hrest (by simpa using hflat)
            rw [← congrArg Prod.fst hcut] at hfront
            have hcons := cutFile_cons hroom hfront
            rw [hcut] at hcons
            exact ⟨hcons, hback⟩

end

/-- The size of the blocks does not matter exactly when an `int` holds the size of each
block.  Then the chunks are those of the whole file in one block, and a boundary between
two chunks cuts the file into two files. -/
theorem chunksRead_whole_iff {chunker : Chunker} (hlow : 1 ≤ chunker.readSize) (file : Bytes) :
    (chunker.ShortBlocks file → ∀ n, 1 ≤ n →
      ({ chunker with readSize := n } : Chunker).ShortBlocks file →
        ({ chunker with readSize := n } : Chunker).chunksRead 0 file =
          chunker.chunksRead 0 file) ∧
    ∀ chunks, chunker.cutFile file ⟨[], 0⟩ = .ok chunks →
      (((∃ fileSize, chunker.chunksRead 0 file = .ok (chunks, fileSize)) ∧
        ∀ front rest chunks₁ chunks₂, front ++ rest = file → chunks₁ ++ chunks₂ = chunks →
          chunks₁.flatten = front →
            (∃ fileSize, chunker.chunksRead 0 front = .ok (chunks₁, fileSize)) ∧
              ∃ fileSize, chunker.chunksRead 0 rest = .ok (chunks₂, fileSize)) ↔
        chunker.ShortBlocks file) := by
  refine ⟨fun hblocks n hn hshort => ?_, fun chunks hwhole => ⟨fun hread => ?_, fun hblocks => ?_⟩⟩
  · rw [chunksRead_eq hlow hblocks, chunksRead_eq hn hshort, cutFile_readSize]
  · obtain ⟨fileSize, hread⟩ := hread.1
    exact shortBlocks_of_chunksRead hread (flatten_cutFile hwhole)
  · have hof {bytes : Bytes} {chunks : List Bytes} (hle : bytes.length ≤ file.length)
        (hcut : chunker.cutFile bytes ⟨[], 0⟩ = .ok chunks) :
        ∃ fileSize, chunker.chunksRead 0 bytes = .ok (chunks, fileSize) := by
      have hshort : chunker.ShortBlocks bytes := (min_le_min_left _ hle).trans_lt hblocks
      refine ⟨u64 bytes.length, ?_⟩
      rw [chunksRead_eq hlow hshort]
      change (chunker.cutFile bytes ⟨[], 0⟩ >>= _) = _
      rw [hcut]
      rfl
    refine ⟨hof le_rfl hwhole, ?_⟩
    rintro front rest chunks₁ chunks₂ rfl rfl hflat
    obtain ⟨hfront, hrest⟩ := cutFile_boundary (fun _ => rfl) hwhole hflat
    exact ⟨hof (by simp) hfront, hof (by simp) hrest⟩

/-- Five bytes in blocks of two. -/
theorem chunksRead_whole_zeros :
    (∃ fileSize, (⟨1, 3, 1, 2, 1⟩ : Chunker).chunksRead 0 [0, 0, 0, 0, 0] =
      .ok ([[0, 0], [0, 0], [0]], fileSize)) ∧
    ∃ fileSize, (⟨1, 3, 1, 2, 1⟩ : Chunker).chunksRead 0 [0, 0, 0] =
      .ok ([[0, 0], [0]], fileSize) := by
  have hempty : (⟨[], 0⟩ : Cutter).chunkBuffer.length < 3 := by decide
  have hwhole : (⟨1, 3, 1, 2, 1⟩ : Chunker).cutFile [0, 0, 0, 0, 0] ⟨[], 0⟩ =
      .ok [[0, 0], [0, 0], [0]] :=
    (cutFile_eq (by simp [HasRoom, firstTest]) _ hempty).trans (congrArg Except.ok (by decide))
  have hiff := (chunksRead_whole_iff (by decide : 1 ≤ (⟨1, 3, 1, 2, 1⟩ : Chunker).readSize)
    [0, 0, 0, 0, 0]).2 _ hwhole
  obtain ⟨hread, hcut⟩ := hiff.mpr (by decide)
  exact ⟨hread, (hcut [0, 0] [0, 0, 0] [[0, 0]] [[0, 0], [0]] rfl rfl rfl).2⟩

/-- Of a block of two gigabytes no byte is cut off. -/
theorem chunksRead_long_block :
    ∃ chunks, (⟨4096, 16384, 256, 2147483648, 8191⟩ : Chunker).cutFile
        (List.replicate (2 ^ 31) 7) ⟨[], 0⟩ = .ok chunks ∧
      ∀ fileSize, (⟨4096, 16384, 256, 2147483648, 8191⟩ : Chunker).chunksRead 0
        (List.replicate (2 ^ 31) 7) ≠ .ok (chunks, fileSize) := by
  have hroom : (⟨4096, 16384, 256, 2147483648, 8191⟩ : Chunker).HasRoom := by
    rw [HasRoom, firstTest]
    decide
  have hempty : (⟨[], 0⟩ : Cutter).chunkBuffer.length < 16384 := hroom.pos
  have hcut := cutFile_eq hroom (List.replicate (2 ^ 31) 7) hempty
  refine ⟨_, hcut, fun fileSize hread => ?_⟩
  have hshort := shortBlocks_of_chunksRead hread (flatten_cutFile hcut)
  rw [ShortBlocks, List.length_replicate] at hshort
  dsimp only at hshort
  omega

end Chunker

end Dedup
