import JpegStorage.Dedup.RollingHash

/-!
# Chunks behind an edit

Two files differ between a front and a tail that they share.  Their chunks are the same up to a
cut in the front and from the first place in the tail on at which both are cut
(`chunks_shared`).  An anchor of one file is a place for a cut of the
other one as well, because it depends on the window only.  The other file is cut there too,
unless a chunk of it began too shortly before (`resync_iff`).
-/

namespace Dedup

open Rolling

namespace Chunker

/-! ## Cuts -/

/-- The chunker behind the first `k` bytes of a file. -/
def stateAt (chunker : Chunker) (winFp : UInt16) (file : Bytes) (k : Nat) : Cutter :=
  (chunker.cuts (file.take k) ⟨[], winFp.toNat⟩).2

/-- A chunk ends behind the first `k` bytes of a file. -/
def CutsAt (chunker : Chunker) (winFp : UInt16) (file : Bytes) (k : Nat) : Prop :=
  chunker.stateAt winFp file k = ⟨[], 0⟩

section
variable {chunker : Chunker} {winFp winFp' : UInt16} {file front front' mid mid' tail : Bytes}
  {j k : Nat}

/-- The chunks in front of a cut and those behind it. -/
theorem CutsAt.chunks (h : chunker.CutsAt winFp file k) :
    chunker.chunks winFp file =
        (chunker.cuts (file.take k) ⟨[], winFp.toNat⟩).1 ++ chunker.chunks 0 (file.drop k) ∧
      (chunker.cuts (file.take k) ⟨[], winFp.toNat⟩).1.flatten = file.take k := by
  have hflat := chunker.flatten_cuts (file.take k) ⟨[], winFp.toNat⟩
  have happend := chunker.cuts_append (file.take k) (file.drop k) ⟨[], winFp.toNat⟩
  rw [CutsAt, stateAt] at h
  rw [List.take_append_drop, h] at happend
  rw [h, List.append_nil, List.nil_append] at hflat
  refine ⟨?_, hflat⟩
  rw [Chunker.chunks, happend]
  exact List.append_assoc ..

/-- Behind a cut the chunker goes on as at the begin of a file. -/
theorem CutsAt.drop (h : chunker.CutsAt winFp file j) (hcut : chunker.CutsAt winFp file (j + k)) :
    chunker.CutsAt 0 (file.drop j) k := by
  rw [CutsAt, stateAt] at h
  rw [CutsAt, stateAt, List.take_add, cuts_append, h] at hcut
  exact hcut

/-- A cut depends on the bytes in front of it only. -/
theorem CutsAt.append (h : chunker.CutsAt winFp front j) (hle : j ≤ front.length) (tail : Bytes) :
    chunker.CutsAt winFp (front ++ tail) j := by
  rw [CutsAt, stateAt] at h ⊢
  rwa [List.take_append_of_le_length hle]

/-- Behind a cut of both files the chunks are the same. -/
theorem chunks_behind (hcut : chunker.CutsAt winFp (front ++ tail) (front.length + k))
    (hcut' : chunker.CutsAt winFp' (front' ++ tail) (front'.length + k)) :
    ∃ before before' shared,
      chunker.chunks winFp (front ++ tail) = before ++ shared ∧
      chunker.chunks winFp' (front' ++ tail) = before' ++ shared ∧
      before'.flatten = front' ++ tail.take k := by
  obtain ⟨hchunks, _⟩ := hcut.chunks
  obtain ⟨hchunks', hflat'⟩ := hcut'.chunks
  rw [List.drop_length_add_append] at hchunks hchunks'
  rw [List.take_length_add_append] at hflat' hchunks'
  exact ⟨_, _, _, hchunks, hchunks', hflat'⟩

/-- Two files differ between a front and a tail.  From a cut behind the difference on the
chunks are the same, and so are those up to a cut in the front. -/
theorem chunks_shared (hj : j ≤ front.length)
    (hfront : j = 0 ∨ winFp' = winFp ∧ chunker.CutsAt winFp front j)
    (hcut : chunker.CutsAt winFp (front ++ mid ++ tail) ((front ++ mid).length + k))
    (hcut' : chunker.CutsAt winFp' (front ++ mid' ++ tail) ((front ++ mid').length + k)) :
    ∃ first before before' shared,
      chunker.chunks winFp (front ++ mid ++ tail) = first ++ (before ++ shared) ∧
      chunker.chunks winFp' (front ++ mid' ++ tail) = first ++ (before' ++ shared) ∧
      before'.flatten = front.drop j ++ mid' ++ tail.take k := by
  rcases hfront with rfl | ⟨rfl, hfront⟩
  · obtain ⟨before, before', shared, hchunks, hchunks', hflat'⟩ := chunks_behind hcut hcut'
    exact ⟨[], before, before', shared, hchunks, hchunks', hflat'⟩
  · have hdrop : ∀ mid : Bytes, (front ++ mid ++ tail).drop j = front.drop j ++ mid ++ tail := by
      intro mid
      rw [List.append_assoc, List.drop_append_of_le_length hj, List.append_assoc]
    have hlen : ∀ mid : Bytes,
        (front ++ mid).length + k = j + ((front.drop j ++ mid).length + k) := by
      intro mid
      rw [List.length_append, List.length_append, List.length_drop]
      omega
    have hbehind : ∀ mid : Bytes,
        chunker.CutsAt winFp' (front ++ mid ++ tail) ((front ++ mid).length + k) →
        chunker.CutsAt 0 (front.drop j ++ mid ++ tail) ((front.drop j ++ mid).length + k) ∧
          chunker.chunks winFp' (front ++ mid ++ tail) =
            (chunker.cuts (front.take j) ⟨[], winFp'.toNat⟩).1 ++
              chunker.chunks 0 (front.drop j ++ mid ++ tail) := by
      intro mid hcut
      have hstart := (hfront.append hj mid).append (by rw [List.length_append]; omega) tail
      obtain ⟨hchunks, _⟩ := hstart.chunks
      rw [hdrop, List.append_assoc front, List.take_append_of_le_length hj, ← List.append_assoc]
        at hchunks
      rw [hlen] at hcut
      exact ⟨hdrop mid ▸ hstart.drop hcut, hchunks⟩
    obtain ⟨hcut₀, hchunks⟩ := hbehind mid hcut
    obtain ⟨hcut₁, hchunks'⟩ := hbehind mid' hcut'
    obtain ⟨before, before', shared, hfirst, hsecond, hflat'⟩ := chunks_behind hcut₀ hcut₁
    exact ⟨_, before, before', shared, hfirst ▸ hchunks, hsecond ▸ hchunks', hflat'⟩

/-! ## The window -/

theorem stateAt_succ (hlt : k < file.length) :
    chunker.stateAt winFp file (k + 1) = (chunker.cutByte file[k] (chunker.stateAt winFp file k)).1 := by
  rw [stateAt, List.take_succ_eq_append_getElem hlt, cuts_append]
  rfl

/-- What the buffer holds are the last bytes that were read. -/
theorem chunkBuffer_suffix (chunker : Chunker) (winFp : UInt16) (file : Bytes) (k : Nat) :
    (chunker.stateAt winFp file k).chunkBuffer <:+ file.take k :=
  ⟨_, chunker.flatten_cuts (file.take k) ⟨[], winFp.toNat⟩⟩

/-- Behind a cut the fingerprint is that of the window. -/
theorem CutsAt.fingerprint (hwin : 1 ≤ chunker.slidingWinSize) (h : chunker.CutsAt winFp file k)
    {j : Nat} (hle : k ≤ j) : chunker.Fingerprint (chunker.stateAt winFp file j) := by
  obtain ⟨n, rfl⟩ := Nat.exists_eq_add_of_le hle
  rw [CutsAt, stateAt] at h
  rw [stateAt, List.take_add, cuts_append, h]
  exact cuts_fingerprint hwin _ chunker.fingerprint_start

/-- A chunk ends with a byte when it is long enough and the byte makes an anchor or fills the
buffer. -/
theorem cutByte_iff (byte : UInt8) (cutter : Cutter) :
    (chunker.cutByte byte cutter).1 = ⟨[], 0⟩ ↔
      chunker.firstTest ≤ cutter.chunkBuffer.length + 1 ∧
        (chunker.roll byte cutter &&& chunker.anchorMask = anchorValue ∨
          chunker.maxChunkSize ≤ cutter.chunkBuffer.length + 1) := by
  have hcount : (cutter.chunkBuffer ++ [byte]).length = cutter.chunkBuffer.length + 1 :=
    List.length_append
  have hstays : ∀ winFp, (⟨cutter.chunkBuffer ++ [byte], winFp⟩ : Cutter) ≠ ⟨[], 0⟩ := by
    intro winFp heq
    have hlen := congrArg (fun cutter : Cutter => cutter.chunkBuffer.length) heq
    dsimp only at hlen
    rw [hcount] at hlen
    cases hlen
  by_cases htest : chunker.firstTest ≤ cutter.chunkBuffer.length + 1
  · rw [firstTest] at htest
    rw [cutByte, hcount, if_neg (by omega), if_neg (by omega)]
    split
    next hanchor => exact iff_of_true rfl ⟨htest, Or.inl hanchor⟩
    next hanchor =>
      split
      next hfull => exact iff_of_true rfl ⟨htest, Or.inr hfull⟩
      next hfull => exact iff_of_false (hstays _) fun h => h.2.elim hanchor hfull
  · rw [cutByte_window byte cutter (Nat.lt_of_not_le htest)]
    exact iff_of_false (hstays _) fun h => htest h.1

/-- The fingerprint with the next byte, when the last bytes up to it are those of the window. -/
theorem Fingerprint.roll_eq {cutter cutter' : Cutter} (hwin : 1 ≤ chunker.slidingWinSize)
    (h : chunker.Fingerprint cutter) (h' : chunker.Fingerprint cutter') {byte : UInt8}
    {read read' shared : Bytes} (hread : cutter.chunkBuffer <:+ read ++ shared)
    (hread' : cutter'.chunkBuffer <:+ read' ++ shared)
    (hlen : chunker.slidingWinSize ≤ cutter.chunkBuffer.length + 1)
    (hlen' : chunker.slidingWinSize ≤ cutter'.chunkBuffer.length + 1)
    (hshared : chunker.slidingWinSize ≤ shared.length + 1) :
    chunker.roll byte cutter = chunker.roll byte cutter' := by
  have hwindow : ∀ {cutter : Cutter} {read : Bytes}, chunker.Fingerprint cutter →
      cutter.chunkBuffer <:+ read ++ shared →
      chunker.slidingWinSize ≤ cutter.chunkBuffer.length + 1 →
      (chunker.roll byte cutter : ZMod (2 ^ 16)) =
        windowPoly 257 chunker.slidingWinSize (symbols (shared ++ [byte])) := by
    intro cutter read h hread hlen
    obtain ⟨old, hold⟩ := hread
    have hsymbols : symbols old ++ symbols (cutter.chunkBuffer ++ [byte]) =
        symbols read ++ symbols (shared ++ [byte]) := by
      rw [symbols, symbols, symbols, symbols, ← List.map_append, ← List.map_append,
        ← List.append_assoc, hold, List.append_assoc]
    have hbuffer :
        (symbols (cutter.chunkBuffer ++ [byte])).length = cutter.chunkBuffer.length + 1 := by
      rw [length_symbols, List.length_append, List.length_singleton]
    have hend : (symbols (shared ++ [byte])).length = shared.length + 1 := by
      rw [length_symbols, List.length_append, List.length_singleton]
    rw [h.roll hwin byte, ← windowPoly_append 257 (symbols old) (hbuffer ▸ hlen), hsymbols,
      windowPoly_append 257 (symbols read) (hend ▸ hshared)]
  have heq := (hwindow h hread hlen).trans (hwindow h' hread' hlen').symm
  rw [ZMod.natCast_eq_natCast_iff', Nat.mod_eq_of_lt (roll_lt ..), Nat.mod_eq_of_lt (roll_lt ..)]
    at heq
  exact heq

/-! ## The same cut -/

/-- An anchor ends a chunk of one file, with the whole window in the tail.  The other file is cut
there if and only if its chunk is long enough by then. -/
theorem resync_iff (hwin : 1 ≤ chunker.slidingWinSize) (hlt : k < tail.length)
    (hwindow : chunker.slidingWinSize ≤ k + 1)
    (hbefore : ∃ j ≤ front.length + k, chunker.CutsAt winFp (front ++ tail) j)
    (hbefore' : ∃ j ≤ front'.length + k, chunker.CutsAt winFp' (front' ++ tail) j)
    (hcut : chunker.CutsAt winFp (front ++ tail) (front.length + (k + 1)))
    (hanchor : (chunker.stateAt winFp (front ++ tail) (front.length + k)).chunkBuffer.length + 1 <
      chunker.maxChunkSize) :
    chunker.CutsAt winFp' (front' ++ tail) (front'.length + (k + 1)) ↔
      chunker.firstTest ≤
        (chunker.stateAt winFp' (front' ++ tail) (front'.length + k)).chunkBuffer.length + 1 := by
  have hstep : ∀ (winFp : UInt16) (front : Bytes),
      chunker.CutsAt winFp (front ++ tail) (front.length + (k + 1)) ↔
        (chunker.cutByte tail[k] (chunker.stateAt winFp (front ++ tail) (front.length + k))).1 =
          ⟨[], 0⟩ := by
    intro winFp front
    have hpos : front.length + k < (front ++ tail).length := by
      rw [List.length_append]
      exact Nat.add_lt_add_left hlt _
    have hbyte : (front ++ tail)[front.length + k] = tail[k] := by
      rw [List.getElem_append_right (Nat.le_add_right ..)]
      simp only [Nat.add_sub_cancel_left]
    rw [CutsAt, ← Nat.add_assoc, stateAt_succ hpos, hbyte]
  have hsuffix : ∀ (winFp : UInt16) (front : Bytes),
      (chunker.stateAt winFp (front ++ tail) (front.length + k)).chunkBuffer <:+
        front ++ tail.take k := by
    intro winFp front
    have hread := chunker.chunkBuffer_suffix winFp (front ++ tail) (front.length + k)
    rwa [List.take_length_add_append] at hread
  have hshared : chunker.slidingWinSize ≤ (tail.take k).length + 1 := by
    rwa [List.length_take, Nat.min_eq_left hlt.le]
  obtain ⟨j, hj, hstart⟩ := hbefore
  obtain ⟨j', hj', hstart'⟩ := hbefore'
  rw [hstep, cutByte_iff] at hcut
  obtain ⟨htest, hends⟩ := hcut
  have hroll := hends.resolve_right (Nat.not_le_of_lt hanchor)
  have htests : chunker.slidingWinSize ≤ chunker.firstTest :=
    (Nat.le_succ _).trans (Nat.le_max_left ..)
  rw [hstep, cutByte_iff]
  refine ⟨fun h => h.1, fun htest' => ⟨htest', Or.inl ?_⟩⟩
  rw [(hstart'.fingerprint hwin hj').roll_eq hwin (hstart.fingerprint hwin hj)
    (hsuffix winFp' front') (hsuffix winFp front) (htests.trans htest') (htests.trans htest) hshared]
  exact hroll

end

/-- A chunker that ends a chunk of two bytes or more with a multiple of four. -/
def shortChunker : Chunker := ⟨2, 8, 1, 134217728, 3⟩

/-- Both files are cut behind the byte `4`. -/
theorem resync_iff_short : shortChunker.CutsAt 0 ([2, 3] ++ [1, 4, 5]) 4 := by
  have hstart : ∀ front : Bytes,
      ∃ j ≤ front.length + 1, shortChunker.CutsAt 0 (front ++ [1, 4, 5]) j :=
    fun front => ⟨0, Nat.zero_le _, rfl⟩
  have hcut : shortChunker.CutsAt 0 ([1] ++ [1, 4, 5]) 3 := by
    rw [CutsAt]
    rfl
  exact (resync_iff (by decide) (by decide) (by decide) (hstart [1]) (hstart [2, 3]) hcut
    (by decide)).mpr (by decide)

end Chunker

end Dedup
