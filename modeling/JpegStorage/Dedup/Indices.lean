import JpegStorage.Dedup.Fingerprint

/-!
# The indices of the chunker

`ChunkerInit` makes two comparisons.  Whether the numbers of a configuration fit its
arrays nobody asks.  `initAccesses` and `fileAccesses` list what `ChunkerInit` and
`varSizeChunking` do with `powerLUT`, `removeLUT`, `chunkBuffer` and the `logicData` of a
chunk.

`safeIndices_iff` says which of the accepted configurations stay inside of them for
every file.  A chunk must be tested before the buffer is full, which takes a window
smaller than `maxChunkSize` and a `minChunkSize` that is not negative, and it must fit
`logicData`.  When they do not, a file shorter than a block shows it.
-/

namespace Dedup

/-! ## Accesses -/

/-- The arrays of the chunker. -/
inductive ChunkerArray where
  /-- `chunkBuffer`. -/
  | chunkBuffer
  /-- `powerLUT`. -/
  | powerLUT
  /-- `removeLUT`. -/
  | removeLUT
  /-- `logicData` of `tempChunk.chunk`. -/
  | logicData
deriving DecidableEq, Repr

/-- An element that is read or written. -/
structure Access where
  /-- The array. -/
  array : ChunkerArray
  /-- The index. -/
  index : Int
deriving DecidableEq, Repr

/-- How many elements the arrays have. -/
def Configure.arraySize (config : Configure) : ChunkerArray → Int
  | .chunkBuffer => i32 config.maxChunkSize
  | .powerLUT => i32 config.slidingWinSize
  | .removeLUT => 256
  | .logicData => Dedup.maxChunkSize

/-- The index lies in the array. -/
def Access.InBounds (config : Configure) (a : Access) : Prop :=
  0 ≤ a.index ∧ a.index < config.arraySize a.array

instance (config : Configure) (a : Access) : Decidable (a.InBounds config) :=
  inferInstanceAs (Decidable (_ ∧ _))

/-- The two tables of `ChunkerInit`. -/
def Configure.initAccesses (config : Configure) : List Access :=
  let slidingWinSize := i32 config.slidingWinSize
  ⟨.powerLUT, 0⟩ ::
    ((List.range' 1 (slidingWinSize - 1).toNat).flatMap fun i : Nat =>
      [⟨.powerLUT, i - 1⟩, ⟨.powerLUT, i⟩]) ++
    (List.range 256).flatMap fun i : Nat => [⟨.powerLUT, slidingWinSize - 1⟩, ⟨.removeLUT, i⟩]

/-- `memcpy(tempChunk.chunk.logicData, chunkBuffer, chunkBufferCnt)`, behind the hash of the
same bytes. -/
def copyAccesses (chunkBufferCnt : Nat) : List Access :=
  (List.range chunkBufferCnt).flatMap fun i : Nat => [⟨.chunkBuffer, i⟩, ⟨.logicData, i⟩]

namespace Chunker

/-- The accesses of `roll`. -/
def rollAccesses (chunker : Chunker) (byte : UInt8) (cutter : Cutter) : List Access :=
  let chunkBufferCnt := cutter.chunkBuffer.length
  if chunkBufferCnt < chunker.slidingWinSize then
    [⟨.chunkBuffer, chunkBufferCnt⟩, ⟨.powerLUT, chunker.slidingWinSize - chunkBufferCnt - 1⟩]
  else
    let v := (cutter.chunkBuffer ++ [byte]).getD (chunkBufferCnt - chunker.slidingWinSize) 0
    [⟨.chunkBuffer, chunkBufferCnt - chunker.slidingWinSize⟩, ⟨.removeLUT, v.toNat⟩,
      ⟨.chunkBuffer, chunkBufferCnt⟩]

/-- The accesses of a round of the loop over the bytes. -/
def byteAccesses (chunker : Chunker) (byte : UInt8) (cutter : Cutter) : List Access :=
  ⟨.chunkBuffer, cutter.chunkBuffer.length⟩ :: chunker.rollAccesses byte cutter ++
    (chunker.cutByte byte cutter).2.toList.flatMap fun chunk => copyAccesses chunk.length

/-- The accesses of the loop over the bytes. -/
def bytesAccesses (chunker : Chunker) : Bytes → Cutter → List Access
  | [], _ => []
  | byte :: bytes, cutter =>
      chunker.byteAccesses byte cutter ++
        chunker.bytesAccesses bytes (chunker.cutByte byte cutter).1

/-- The accesses of the loop over the blocks, and of the final chunk behind it. -/
def blocksAccesses (chunker : Chunker) : Nat → Bytes → Cutter → List Access
  | 0, _, _ => []
  | fuel + 1, file, cutter =>
      let block := file.take chunker.readSize
      let bytes := block.take (i32 block.length).toNat
      let cutter' := (chunker.cuts bytes cutter).2
      chunker.bytesAccesses bytes cutter ++
        if block.length < chunker.readSize then copyAccesses cutter'.chunkBuffer.length
        else chunker.blocksAccesses fuel (file.drop chunker.readSize) cutter'

/-- The accesses of `varSizeChunking`, when every chunk can be saved. -/
def fileAccesses (chunker : Chunker) (winFp : UInt16) (file : Bytes) : List Access :=
  chunker.blocksAccesses (file.length + 1) file ⟨[], winFp.toNat⟩

end Chunker

/-! ## What should hold -/

namespace Configure

/-- The checks of `ChunkerInit`, the one of `new` included.  The allocations themselves, that of
`ReadSize` among them, are taken to succeed. -/
structure Accepted (config : Configure) : Prop where
  /-- `new u_char[maxChunkSize]`. -/
  buffer : 0 ≤ i32 config.maxChunkSize
  /-- `minChunkSize` is smaller than `avgChunkSize`. -/
  min : i32 config.minChunkSize < i32 config.averageChunkSize
  /-- `maxChunkSize` is larger. -/
  max : i32 config.averageChunkSize < i32 config.maxChunkSize

/-- `ChunkerInit` comes to an end, and it and the chunking of every file stay inside of the
arrays. -/
structure SafeIndices (config : Configure) : Prop where
  /-- `ChunkerInit` ends. -/
  init : ∃ chunker, config.chunkerInit = .ok chunker
  /-- Its tables. -/
  tables : ∀ a ∈ config.initAccesses, a.InBounds config
  /-- The chunking, whatever `winFp` was. -/
  chunking : ∀ chunker, config.chunkerInit = .ok chunker → ∀ winFp file,
    ∀ a ∈ chunker.fileAccesses winFp file, a.InBounds config

/-- The condition on the numbers. -/
structure Fits (config : Configure) : Prop where
  /-- The window holds a byte. -/
  window : 1 ≤ i32 config.slidingWinSize
  /-- There is a bit for the mask. -/
  average : 2 ≤ i32 config.averageChunkSize
  /-- No byte is read, or a chunk ends inside of both buffers. -/
  room : u64 (config.readSize * 1024 * 1024) = 0 ∨ (0 ≤ i32 config.minChunkSize ∧
    i32 config.slidingWinSize < i32 config.maxChunkSize ∧
      i32 config.maxChunkSize ≤ Dedup.maxChunkSize)

/-- The program ends in front of the tables exactly when a check fails. -/
theorem accepted_iff (config : Configure) :
    config.Accepted ↔ config.chunkerInit ≠ .error .failed := by
  constructor
  · intro h
    rw [chunkerInit, if_neg (Int.not_lt.mpr h.buffer), if_neg (Int.not_le.mpr h.min),
      if_neg (Int.not_le.mpr h.max)]
    intro hfail
    split at hfail
    · cases hfail
    · split at hfail <;> cases hfail
  · intro h
    rw [chunkerInit] at h
    split at h
    · exact absurd rfl h
    next hbuffer =>
      split at h
      · exact absurd rfl h
      next hmin =>
        split at h
        · exact absurd rfl h
        next hmax => exact ⟨Int.not_lt.mp hbuffer, Int.not_le.mp hmin, Int.not_le.mp hmax⟩

/-- It gets through exactly when there is a window and a bit for the mask. -/
theorem Accepted.chunkerInit_iff {config : Configure} (h : config.Accepted) :
    (∃ chunker, config.chunkerInit = .ok chunker) ↔
      1 ≤ i32 config.slidingWinSize ∧ 2 ≤ i32 config.averageChunkSize := by
  constructor
  · rintro ⟨chunker, hinit⟩
    obtain ⟨hwin, n, hbits, -⟩ := chunkerInit_inv hinit
    refine ⟨hwin, ?_⟩
    have hone := List.find?_some hbits
    have hn := (List.mem_range'_1.mp (List.mem_of_find?_eq_some hbits)).1
    rw [decide_eq_true_eq, Nat.shiftRight_eq_div_pow] at hone
    have hpow : 2 ^ 1 ≤ 2 ^ n := Nat.pow_le_pow_right (by decide) hn
    have hle := Nat.div_mul_le_self (i32 config.averageChunkSize).toNat (2 ^ n)
    rw [hone] at hle
    omega
  · rintro ⟨hwin, haverage⟩
    have hlt : i32 config.averageChunkSize < 2 ^ 31 := Int.bmod_lt (by decide)
    obtain ⟨n, hbits⟩ := Option.isSome_iff_exists.mp
      (numOfMaskBits_isSome (show 2 ≤ (i32 config.averageChunkSize).toNat by omega) (by omega))
    rw [chunkerInit, if_neg (Int.not_lt.mpr h.buffer), if_neg (Int.not_le.mpr h.min),
      if_neg (Int.not_le.mpr h.max), if_neg (by omega), hbits]
    exact ⟨_, rfl⟩

/-- A chunker has the numbers of an accepted configuration. -/
structure Makes (config : Configure) (chunker : Chunker) : Prop where
  /-- `minChunkSize`. -/
  min : chunker.minChunkSize = u64 (i32 config.minChunkSize)
  /-- `maxChunkSize`. -/
  max : (chunker.maxChunkSize : Int) = i32 config.maxChunkSize
  /-- `slidingWinSize`. -/
  window : (chunker.slidingWinSize : Int) = i32 config.slidingWinSize
  /-- There is a window. -/
  pos : 1 ≤ chunker.slidingWinSize
  /-- `ReadSize`. -/
  read : chunker.readSize = u64 (config.readSize * 1024 * 1024)
  /-- `anchorMask`. -/
  mask : ∃ n, 1 ≤ n ∧ chunker.anchorMask = 2 ^ n - 1

theorem Accepted.makes {config : Configure} (h : config.Accepted) {chunker : Chunker}
    (hinit : config.chunkerInit = .ok chunker) : config.Makes chunker := by
  have hmask := anchorMask_chunkerInit hinit
  obtain ⟨hwin, n, -, rfl⟩ := chunkerInit_inv hinit
  refine ⟨?_, ?_, ?_, ?_, ?_, hmask⟩ <;> dsimp only
  · exact Int.toNat_of_nonneg h.buffer
  · exact Int.toNat_of_nonneg hwin.le
  · omega

/-- A chunk is tested before the buffer is full. -/
theorem Makes.hasRoom_iff {config : Configure} {chunker : Chunker} (hm : config.Makes chunker)
    (h : config.Accepted) :
    chunker.HasRoom ↔
      0 ≤ i32 config.minChunkSize ∧ i32 config.slidingWinSize < i32 config.maxChunkSize := by
  have hlt : i32 config.maxChunkSize < 2 ^ 31 := Int.bmod_lt (by decide)
  have hge : -2 ^ 31 ≤ i32 config.minChunkSize := Int.le_bmod (by decide)
  have hmin := h.min
  have hmax := h.max
  rw [Chunker.HasRoom, Chunker.firstTest, hm.min, u64, ← hm.max, ← hm.window]
  rw [← hm.max] at hlt hmax
  omega

/-! ## Configurations that fit -/

theorem initAccesses_inBounds {config : Configure} (hwin : 1 ≤ i32 config.slidingWinSize) :
    ∀ a ∈ config.initAccesses, a.InBounds config := by
  intro a ha
  simp only [initAccesses, List.mem_append, List.mem_cons, List.mem_flatMap, List.mem_range'_1,
    List.mem_range, List.not_mem_nil, or_false] at ha
  rcases ha with (rfl | ⟨i, hi, rfl | rfl⟩) | ⟨i, hi, rfl | rfl⟩
  all_goals
    simp only [Access.InBounds, arraySize]
    omega

theorem copyAccesses_inBounds {config : Configure} {n : Nat} (hbuffer : n ≤ i32 config.maxChunkSize)
    (hdata : n ≤ Dedup.maxChunkSize) : ∀ a ∈ copyAccesses n, a.InBounds config := by
  intro a ha
  simp only [copyAccesses, List.mem_flatMap, List.mem_range, List.mem_cons, List.not_mem_nil,
    or_false] at ha
  obtain ⟨i, hi, rfl | rfl⟩ := ha
  · exact ⟨Int.natCast_nonneg i, (Int.ofNat_lt.mpr hi).trans_le hbuffer⟩
  · exact ⟨Int.natCast_nonneg i, Int.ofNat_lt.mpr (hi.trans_le hdata)⟩

section
variable {config : Configure} {chunker : Chunker} {cutter : Cutter}

theorem Makes.rollAccesses_inBounds (hm : config.Makes chunker) (byte : UInt8)
    (hlen : cutter.chunkBuffer.length < chunker.maxChunkSize) :
    ∀ a ∈ chunker.rollAccesses byte cutter, a.InBounds config := by
  have hmax := hm.max
  have hwindow := hm.window
  rw [Chunker.rollAccesses]
  by_cases hwin : cutter.chunkBuffer.length < chunker.slidingWinSize
  · rw [if_pos hwin]
    simp only [List.forall_mem_cons, Access.InBounds, arraySize]
    exact ⟨by omega, by omega, nofun⟩
  · have hbyte := UInt8.toNat_lt ((cutter.chunkBuffer ++ [byte]).getD
      (cutter.chunkBuffer.length - chunker.slidingWinSize) 0)
    rw [if_neg hwin]
    simp only [List.forall_mem_cons, Access.InBounds, arraySize]
    exact ⟨by omega, by omega, by omega, nofun⟩

/-- A round of the loop over the bytes. -/
theorem Makes.byteAccesses_inBounds (hm : config.Makes chunker) (hroom : chunker.HasRoom)
    (hdata : chunker.maxChunkSize ≤ Dedup.maxChunkSize) (byte : UInt8)
    (hlen : cutter.chunkBuffer.length < chunker.maxChunkSize) :
    ∀ a ∈ chunker.byteAccesses byte cutter, a.InBounds config := by
  have hmax := hm.max
  rw [Chunker.byteAccesses, List.forall_mem_append, List.forall_mem_cons]
  refine ⟨⟨⟨by dsimp only; omega, by simp only [arraySize]; omega⟩,
    hm.rollAccesses_inBounds byte hlen⟩, fun a ha => ?_⟩
  obtain ⟨chunk, hchunk, ha⟩ := List.mem_flatMap.mp ha
  have hsizes := (Chunker.cuts_sizes hroom [byte] hlen).1 chunk
    (List.mem_append_left _ hchunk)
  exact copyAccesses_inBounds (by omega) (hsizes.2.trans hdata) a ha

theorem Makes.bytesAccesses_inBounds (hm : config.Makes chunker) (hroom : chunker.HasRoom)
    (hdata : chunker.maxChunkSize ≤ Dedup.maxChunkSize) (bytes : Bytes)
    (hlen : cutter.chunkBuffer.length < chunker.maxChunkSize) :
    ∀ a ∈ chunker.bytesAccesses bytes cutter, a.InBounds config := by
  induction bytes generalizing cutter with
  | nil => exact nofun
  | cons byte bytes ih =>
      rw [Chunker.bytesAccesses, List.forall_mem_append]
      exact ⟨hm.byteAccesses_inBounds hroom hdata byte hlen, ih (Chunker.cutByte_length hroom rfl)⟩

theorem Makes.blocksAccesses_inBounds (hm : config.Makes chunker) (hroom : chunker.HasRoom)
    (hdata : chunker.maxChunkSize ≤ Dedup.maxChunkSize) (fuel : Nat) (file : Bytes)
    (hlen : cutter.chunkBuffer.length < chunker.maxChunkSize) :
    ∀ a ∈ chunker.blocksAccesses fuel file cutter, a.InBounds config := by
  induction fuel generalizing file cutter with
  | zero => exact nofun
  | succ fuel ih =>
      have hmax := hm.max
      rw [Chunker.blocksAccesses]
      generalize (file.take chunker.readSize).take _ = bytes
      have hrest := (Chunker.cuts_sizes hroom bytes hlen).2
      rw [List.forall_mem_append]
      refine ⟨hm.bytesAccesses_inBounds hroom hdata bytes hlen, ?_⟩
      split
      · exact copyAccesses_inBounds (by omega) (hrest.le.trans hdata)
      · exact ih _ hrest

/-- Where the indices lie in the arrays, the loop over the bytes cuts off the chunks of
`cuts`. -/
theorem Makes.cutBytes_eq (hm : config.Makes chunker) {bytes : Bytes}
    (h : ∀ a ∈ chunker.bytesAccesses bytes cutter, a.InBounds config) :
    chunker.cutBytes bytes cutter = .ok (chunker.cuts bytes cutter) := by
  induction bytes generalizing cutter with
  | nil => rfl
  | cons byte bytes ih =>
      rw [Chunker.bytesAccesses, List.forall_mem_append] at h
      have hroom := (h.1 _ (List.mem_cons_self ..)).2
      rw [arraySize, ← hm.max, Int.ofNat_lt] at hroom
      rw [Chunker.cutBytes, if_neg (Nat.not_le.mpr hroom)]
      simp only [ih h.2]
      rfl

/-- Of blocks without bytes nothing is looked at. -/
theorem blocksAccesses_empty (hread : chunker.readSize = 0) (fuel : Nat) (file : Bytes) :
    chunker.blocksAccesses fuel file cutter = [] := by
  induction fuel generalizing file cutter with
  | zero => rfl
  | succ fuel ih =>
      rw [Chunker.blocksAccesses, hread, List.take_zero, List.take_nil, List.length_nil,
        if_neg (Nat.lt_irrefl 0)]
      exact ih _

end

end Configure

/-! ## Files that do not fit -/

namespace Chunker

variable {chunker : Chunker}

theorem bytesAccesses_append (bytes bytes' : Bytes) (cutter : Cutter) :
    chunker.bytesAccesses (bytes ++ bytes') cutter =
      chunker.bytesAccesses bytes cutter ++
        chunker.bytesAccesses bytes' (chunker.cuts bytes cutter).2 := by
  induction bytes generalizing cutter with
  | nil => rfl
  | cons byte bytes ih =>
      rw [List.cons_append, bytesAccesses, bytesAccesses, ih, List.append_assoc]
      rfl

/-- A file shorter than a block. -/
theorem fileAccesses_short {file : Bytes} (hshort : file.length < chunker.readSize)
    (hint : file.length < 2 ^ 31) (winFp : UInt16) :
    chunker.fileAccesses winFp file = chunker.bytesAccesses file ⟨[], winFp.toNat⟩ ++
      copyAccesses (chunker.cuts file ⟨[], winFp.toNat⟩).2.chunkBuffer.length := by
  have htake : file.take chunker.readSize = file := List.take_of_length_le hshort.le
  have hlen : i32 file.length = file.length := i32_of_fits (Int.natCast_nonneg _) (by omega)
  rw [fileAccesses, blocksAccesses, htake, hlen, Int.toNat_natCast, List.take_length,
    if_pos hshort]

/-- Behind the first `maxChunkSize` bytes of a chunk that is not tested before there is no
room for the next one. -/
theorem full_buffer_accessed (hfirst : chunker.maxChunkSize < chunker.firstTest) {bytes : Bytes}
    (hlen : bytes.length = chunker.maxChunkSize) (byte : UInt8) {winFp : Nat}
    (hwinFp : winFp < 2 ^ 16) :
    ⟨.chunkBuffer, chunker.maxChunkSize⟩ ∈ chunker.bytesAccesses (bytes ++ [byte]) ⟨[], winFp⟩ := by
  obtain ⟨a, c, _, hcuts⟩ := chunker.window_affine bytes (by omega)
  rw [bytesAccesses_append, hcuts winFp hwinFp, bytesAccesses, byteAccesses, hlen]
  exact List.mem_append_right _ (List.mem_cons_self ..)

/-- Some byte is no anchor. -/
theorem exists_no_anchor (hwin : 1 ≤ chunker.slidingWinSize) {n : Nat} (hn : 1 ≤ n)
    (hmask : chunker.anchorMask = 2 ^ n - 1) {cutter : Cutter}
    (hlen : cutter.chunkBuffer.length + 1 < chunker.maxChunkSize) :
    ∃ byte winFp, chunker.cutByte byte cutter =
      (⟨cutter.chunkBuffer ++ [byte], winFp⟩, none) := by
  by_cases hfill : cutter.chunkBuffer.length < chunker.slidingWinSize
  · refine ⟨0, chunker.roll 0 cutter, ?_⟩
    rw [cutByte, if_pos hfill]
  · -- the byte that goes out is not the one that comes in, and the new one decides the last bit
    have hout : ∀ byte : UInt8, (cutter.chunkBuffer ++ [byte]).getD
        (cutter.chunkBuffer.length - chunker.slidingWinSize) 0 =
          cutter.chunkBuffer.getD (cutter.chunkBuffer.length - chunker.slidingWinSize) 0 := by
      intro byte
      rw [List.getD_eq_getElem?_getD, List.getElem?_append_left (by omega),
        List.getD_eq_getElem?_getD]
    have hroll : ∀ byte : UInt8, chunker.roll byte cutter = (((cutter.winFp &&& polyMOD) +
        chunker.removeLUT (cutter.chunkBuffer.getD
          (cutter.chunkBuffer.length - chunker.slidingWinSize) 0).toNat) * polyBase +
            byte.toNat) % 2 ^ 16 := by
      intro byte
      rw [roll, if_neg hfill, hout, u16_polyMOD]
    generalize ((cutter.winFp &&& polyMOD) + _) * polyBase = c at hroll
    obtain ⟨byte, hodd⟩ : ∃ byte : UInt8, chunker.roll byte cutter % 2 = 1 := by
      rcases Nat.mod_two_eq_zero_or_one c with heven | hodd
      · exact ⟨1, by rw [hroll]; change (c + 1) % 2 ^ 16 % 2 = 1; omega⟩
      · exact ⟨0, by rw [hroll]; change (c + 0) % 2 ^ 16 % 2 = 1; omega⟩
    have hanchor : ¬ chunker.roll byte cutter &&& chunker.anchorMask = anchorValue := by
      rw [hmask, Nat.and_two_pow_sub_one_eq_mod, anchorValue]
      intro hzero
      have hdvd : 2 ∣ chunker.roll byte cutter :=
        (dvd_pow_self 2 (by omega)).trans (Nat.dvd_of_mod_eq_zero hzero)
      omega
    refine ⟨byte, chunker.roll byte cutter, ?_⟩
    have hcount : (cutter.chunkBuffer ++ [byte]).length = cutter.chunkBuffer.length + 1 :=
      List.length_append
    rw [cutByte, if_neg hfill, if_neg hanchor, hcount, if_neg (Nat.not_le.mpr hlen), ite_self]

/-- There are files of any length below `maxChunkSize` in which no chunk ends. -/
theorem exists_uncut (hwin : 1 ≤ chunker.slidingWinSize) {n : Nat} (hn : 1 ≤ n)
    (hmask : chunker.anchorMask = 2 ^ n - 1) (winFp : Nat) {len : Nat}
    (hlen : len < chunker.maxChunkSize) :
    ∃ file : Bytes, file.length = len ∧
      ∃ winFp', chunker.cuts file ⟨[], winFp⟩ = ([], ⟨file, winFp'⟩) := by
  induction len with
  | zero => exact ⟨[], rfl, winFp, rfl⟩
  | succ len ih =>
      obtain ⟨file, hfile, winFp₁, hcuts⟩ := ih (Nat.lt_of_succ_lt hlen)
      have hroom : (⟨file, winFp₁⟩ : Cutter).chunkBuffer.length + 1 < chunker.maxChunkSize := by
        rwa [hfile]
      obtain ⟨byte, winFp₂, hcut⟩ := exists_no_anchor hwin hn hmask hroom
      refine ⟨file ++ [byte], by rw [List.length_append, hfile, List.length_singleton], winFp₂, ?_⟩
      rw [cuts_append, hcuts, cuts, hcut]
      rfl

/-- One of them and another byte are a chunk of any length up to `maxChunkSize`. -/
theorem exists_long_chunk (hwin : 1 ≤ chunker.slidingWinSize) {n : Nat} (hn : 1 ≤ n)
    (hmask : chunker.anchorMask = 2 ^ n - 1) {len : Nat} (hlen : len < chunker.maxChunkSize)
    (hshort : len + 1 < chunker.readSize) (hint : len + 1 < 2 ^ 31) :
    ∃ file, ⟨.logicData, len⟩ ∈ chunker.fileAccesses 0 file := by
  obtain ⟨bytes, hbytes, winFp, hcuts⟩ := exists_uncut hwin hn hmask 0 hlen
  have hcopy : (⟨.logicData, len⟩ : Access) ∈ copyAccesses (len + 1) :=
    List.mem_flatMap.mpr ⟨len, List.mem_range.mpr (Nat.lt_succ_self len), by simp⟩
  have hfile : (bytes ++ [(0 : UInt8)]).length = len + 1 := by
    rw [List.length_append, hbytes, List.length_singleton]
  refine ⟨bytes ++ [0], ?_⟩
  rw [fileAccesses_short (by rwa [hfile]) (by rwa [hfile]), bytesAccesses_append, cuts_append]
  change _ ∈ _ ++ chunker.bytesAccesses [0] (chunker.cuts bytes ⟨[], 0⟩).2 ++
    copyAccesses (chunker.cuts [0] (chunker.cuts bytes ⟨[], 0⟩).2).2.chunkBuffer.length
  rw [hcuts]
  rcases chunker.cutByte_cases 0 ⟨bytes, winFp⟩ with ⟨winFp', hstays, -⟩ | hends
  · refine List.mem_append_right _ ?_
    rw [cuts, hstays]
    change _ ∈ copyAccesses (bytes ++ [0]).length
    rwa [hfile]
  · refine List.mem_append_left _ (List.mem_append_right _ ?_)
    rw [bytesAccesses, byteAccesses, hends]
    refine List.mem_append_left _ (List.mem_append_right _ ?_)
    exact List.mem_flatMap.mpr ⟨_, List.mem_singleton_self _, by rwa [hfile]⟩

end Chunker

/-! ## Which configurations are safe -/

namespace Configure

variable {config : Configure} {chunker : Chunker}

/-- When a chunk is not tested in time, `maxChunkSize` zeros and another overrun
`chunkBuffer`. -/
theorem Makes.chunkBuffer_overrun (hm : config.Makes chunker) (hblock : 2 ^ 20 ≤ chunker.readSize)
    (hdata : chunker.maxChunkSize ≤ Dedup.maxChunkSize)
    (hfirst : chunker.maxChunkSize < chunker.firstTest) :
    ∃ file, ∃ a ∈ chunker.fileAccesses 0 file, ¬ a.InBounds config := by
  have hbytes : (List.replicate chunker.maxChunkSize (0 : UInt8)).length = chunker.maxChunkSize :=
    List.length_replicate
  have hfile : (List.replicate chunker.maxChunkSize 0 ++ [(0 : UInt8)]).length =
      chunker.maxChunkSize + 1 := by
    rw [List.length_append, hbytes, List.length_singleton]
  rw [Dedup.maxChunkSize] at hdata
  refine ⟨List.replicate chunker.maxChunkSize 0 ++ [0], ⟨.chunkBuffer, chunker.maxChunkSize⟩,
    ?_, fun hin => ?_⟩
  · rw [Chunker.fileAccesses_short (by omega) (by omega)]
    exact List.mem_append_left _
      (Chunker.full_buffer_accessed hfirst hbytes 0 (UInt16.toNat_lt 0))
  · have hlt := hin.2
    rw [arraySize, ← hm.max] at hlt
    exact Int.lt_irrefl _ hlt

/-- When chunks can be longer than `logicData`, one of them overruns it. -/
theorem Makes.logicData_overrun (hm : config.Makes chunker) (hblock : 2 ^ 20 ≤ chunker.readSize)
    (hlen : Dedup.maxChunkSize < chunker.maxChunkSize) :
    ∃ file, ∃ a ∈ chunker.fileAccesses 0 file, ¬ a.InBounds config := by
  obtain ⟨n, hn, hmask⟩ := hm.mask
  obtain ⟨file, hmem⟩ := Chunker.exists_long_chunk hm.pos hn hmask hlen
    (by rw [Dedup.maxChunkSize]; omega) (by decide)
  refine ⟨file, _, hmem, fun hin => ?_⟩
  have hlt := hin.2
  rw [arraySize] at hlt
  exact Int.lt_irrefl _ hlt

/-- A file that overruns one of the buffers. -/
theorem Makes.exists_overrun (hm : config.Makes chunker) (hread : chunker.readSize ≠ 0)
    (hnot : ¬ (chunker.HasRoom ∧ chunker.maxChunkSize ≤ Dedup.maxChunkSize)) :
    ∃ file, ∃ a ∈ chunker.fileAccesses 0 file, ¬ a.InBounds config := by
  have hblock : 2 ^ 20 ≤ chunker.readSize := by
    rw [hm.read, u64] at hread ⊢
    omega
  by_cases hdata : chunker.maxChunkSize ≤ Dedup.maxChunkSize
  · exact hm.chunkBuffer_overrun hblock hdata
      (Nat.lt_of_not_le fun hroom => hnot ⟨hroom, hdata⟩)
  · exact hm.logicData_overrun hblock (Nat.lt_of_not_le hdata)

/-- `ChunkerInit` and the chunking of every file stay inside of the arrays exactly when the
configuration has a window and an average of two bytes at least, and no byte is ever read
or a chunk ends inside of both buffers. -/
theorem safeIndices_iff (h : config.Accepted) : config.SafeIndices ↔ config.Fits := by
  constructor
  · intro hsafe
    obtain ⟨chunker, hinit⟩ := hsafe.init
    obtain ⟨hwin, haverage⟩ := h.chunkerInit_iff.mp ⟨chunker, hinit⟩
    have hm := h.makes hinit
    refine ⟨hwin, haverage, ?_⟩
    by_contra hnot
    rw [not_or, ← hm.read] at hnot
    obtain ⟨file, a, ha, hout⟩ := hm.exists_overrun hnot.1 fun hroom => hnot.2 <| by
      obtain ⟨hmin, hwindow⟩ := (hm.hasRoom_iff h).mp hroom.1
      exact ⟨hmin, hwindow, by rw [← hm.max]; exact Int.ofNat_le.mpr hroom.2⟩
    exact hout (hsafe.chunking chunker hinit 0 file a ha)
  · intro hfits
    refine ⟨h.chunkerInit_iff.mpr ⟨hfits.window, hfits.average⟩,
      initAccesses_inBounds hfits.window, fun chunker hinit winFp file => ?_⟩
    have hm := h.makes hinit
    rcases hfits.room with hempty | ⟨hmin, hwindow, hdata⟩
    · rw [Chunker.fileAccesses, blocksAccesses_empty (hm.read.trans hempty)]
      exact nofun
    · have hroom := (hm.hasRoom_iff h).mpr ⟨hmin, hwindow⟩
      rw [← hm.max, Int.ofNat_le] at hdata
      exact hm.blocksAccesses_inBounds hroom hdata _ file hroom.pos

/-- The configuration of the repository. -/
theorem configJson_safeIndices : configJson.SafeIndices :=
  (safeIndices_iff ⟨by decide, by decide, by decide⟩).mpr
    ⟨by decide, by decide, Or.inr ⟨by decide, by decide, by decide⟩⟩

/-- A window as large as the largest chunk. -/
def wideWindow : Configure := ⟨2, 1, 3, 3, 1, 1, 1, 100⟩

/-- Its chunker. -/
def wideChunker : Chunker := ⟨1, 3, 3, 1048576, 1⟩

/-- It is accepted, and the fourth of four bytes is put behind the buffer. -/
theorem wideWindow_overruns : wideWindow.Accepted ∧ ¬ wideWindow.SafeIndices := by
  refine ⟨⟨by decide, by decide, by decide⟩, fun hsafe => ?_⟩
  have hinit : wideWindow.chunkerInit = .ok wideChunker := by
    have hbits : numOfMaskBits 2 = some 1 := by decide
    simp [chunkerInit, wideWindow, wideChunker, i32, u64, hbits]
  have hmem : ⟨.chunkBuffer, 3⟩ ∈ wideChunker.fileAccesses 0 [0, 0, 0, 0] := by
    rw [Chunker.fileAccesses_short (by decide) (by decide)]
    exact List.mem_append_left _ (@Chunker.full_buffer_accessed wideChunker (by decide) [0, 0, 0]
      rfl 0 0 (by decide))
  have hin := hsafe.chunking _ hinit 0 [0, 0, 0, 0] _ hmem
  exact absurd hin (by decide)

end Configure

end Dedup
