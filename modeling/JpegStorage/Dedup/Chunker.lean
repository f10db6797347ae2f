import JpegStorage.Dedup.StorageCore
import Mathlib.Data.List.Flatten
import Mathlib.Data.Nat.Log

/-!
# Cutting a file into chunks

A rolling hash of the last `slidingWinSize` bytes decides where a chunk ends.  Here
is the part of `Chunker` that looks at the bytes only: what is cut off, byte for byte.

With window, minimum, average and maximum in order `ChunkerInit` gives a chunker
(`chunkerInit_ok`), and the buffer never overflows (`Ordered.hasRoom`).

Nothing is lost: the chunks and what is left in the buffer are the file
(`flatten_cuts`).  No chunk is empty or longer than `maxChunkSize` (`cuts_sizes`).
-/

namespace Dedup

/-- The part of the configuration the program uses. -/
structure Configure where
  /-- `_averageChunkSize`. -/
  averageChunkSize : Nat
  /-- `_minChunkSize`. -/
  minChunkSize : Nat
  /-- `_maxChunkSize`. -/
  maxChunkSize : Nat
  /-- `_slidingWinSize`. -/
  slidingWinSize : Nat
  /-- `_ReadSize`, in megabytes. -/
  readSize : Nat
  /-- `_sendChunkBatchSize`. -/
  sendChunkBatchSize : Int
  /-- `_recvDecodeThreadLimit`. -/
  recvDecodeThreadLimit : Int
  /-- `_maxContainerSize`. -/
  maxContainerSize : Nat

/-- The values in `config.json`. -/
def configJson : Configure := ⟨8192, 4096, 16384, 256, 128, 1000, 1, 8388608⟩

/-- `Chunker` after `ChunkerInit`. -/
structure Chunker where
  /-- `minChunkSize`, as it is compared with `chunkBufferCnt`. -/
  minChunkSize : Nat
  /-- `maxChunkSize`. -/
  maxChunkSize : Nat
  /-- `slidingWinSize`. -/
  slidingWinSize : Nat
  /-- `ReadSize`, in bytes. -/
  readSize : Nat
  /-- `anchorMask`. -/
  anchorMask : Nat

/-- `numOfMaskBits`, which is counted up until one bit of `avgChunkSize` is left.  A
shift by 32 is undefined. -/
def numOfMaskBits (avgChunkSize : Nat) : Option Nat :=
  (List.range' 1 31).find? fun n => avgChunkSize >>> n = 1

/-- `ChunkerInit`. -/
def Configure.chunkerInit (config : Configure) : Except Fault Chunker :=
  let avgChunkSize := i32 config.averageChunkSize
  let minChunkSize := i32 config.minChunkSize
  let maxChunkSize := i32 config.maxChunkSize
  let slidingWinSize := i32 config.slidingWinSize
  -- `new u_char[maxChunkSize]`
  if maxChunkSize < 0 then .error .failed
  else if avgChunkSize ≤ minChunkSize then .error .failed
  else if maxChunkSize ≤ avgChunkSize then .error .failed
  -- `powerLUT[0]` is written
  else if slidingWinSize ≤ 0 then .error .undefined
  else
    match numOfMaskBits avgChunkSize.toNat with
    | none => .error .undefined
    | some n =>
        .ok { minChunkSize := u64 minChunkSize, maxChunkSize := maxChunkSize.toNat,
              slidingWinSize := slidingWinSize.toNat,
              readSize := u64 (config.readSize * 1024 * 1024), anchorMask := 2 ^ n - 1 }

/-! ## The sizes -/

/-- The sizes in the order `ChunkerInit` asks for. -/
structure Configure.Ordered (config : Configure) : Prop where
  /-- `_slidingWinSize`. -/
  window : config.slidingWinSize ≤ config.minChunkSize
  /-- `_minChunkSize`. -/
  min : config.minChunkSize < config.averageChunkSize
  /-- `_averageChunkSize`. -/
  average : config.averageChunkSize < config.maxChunkSize
  /-- `_maxChunkSize`. -/
  max : config.maxChunkSize ≤ Dedup.maxChunkSize

theorem i32_chunkSize {n : Nat} (h : n ≤ Dedup.maxChunkSize) : i32 n = n := by
  rw [maxChunkSize] at h
  exact i32_of_fits (Int.natCast_nonneg n) (by omega)

/-- The average size has a highest bit. -/
theorem numOfMaskBits_isSome {avgChunkSize : Nat} (hlow : 2 ≤ avgChunkSize)
    (hhigh : avgChunkSize < 2 ^ 31) : (numOfMaskBits avgChunkSize).isSome := by
  rw [numOfMaskBits, List.find?_isSome]
  have hne : avgChunkSize ≠ 0 := by omega
  refine ⟨Nat.log 2 avgChunkSize, ?_, ?_⟩
  · have hpos := Nat.log_pos (by simp : 1 < 2) hlow
    have hlt : Nat.log 2 avgChunkSize < 31 := Nat.log_lt_of_lt_pow hne hhigh
    rw [List.mem_range'_1]
    omega
  · have hle := Nat.pow_log_le_self 2 hne
    have hlt := Nat.lt_pow_succ_log_self (by simp : 1 < 2) avgChunkSize
    rw [Nat.shiftRight_eq_div_pow, decide_eq_true_eq]
    refine Nat.div_eq_of_lt_le ?_ ?_
    · rwa [Nat.one_mul]
    · rwa [Nat.pow_succ, Nat.mul_comm] at hlt

theorem Configure.Ordered.chunkerInit_ok {config : Configure} (h : config.Ordered)
    (hwin : 1 ≤ config.slidingWinSize) :
    ∃ anchorMask, config.chunkerInit =
      .ok ⟨config.minChunkSize, config.maxChunkSize, config.slidingWinSize,
        u64 (config.readSize * 1024 * 1024), anchorMask⟩ := by
  have hmax := h.max
  have haverage := h.average.le.trans hmax
  have hmin := h.min.le.trans haverage
  have hwindow := h.window.trans hmin
  have h₀ := h.window
  have h₁ := h.min
  have h₂ := h.average
  have hbits : (numOfMaskBits config.averageChunkSize).isSome := by
    rw [Dedup.maxChunkSize] at haverage
    exact numOfMaskBits_isSome (by omega) (by omega)
  obtain ⟨n, hn⟩ := Option.isSome_iff_exists.mp hbits
  refine ⟨2 ^ n - 1, ?_⟩
  rw [Configure.chunkerInit, i32_chunkSize hmax, i32_chunkSize haverage, i32_chunkSize hmin,
    i32_chunkSize hwindow]
  rw [if_neg (by omega), if_neg (by omega), if_neg (by omega), if_neg (by omega)]
  rw [Int.toNat_natCast, Int.toNat_natCast, Int.toNat_natCast, hn]
  have hu64 : u64 (config.minChunkSize : Int) = config.minChunkSize := by
    rw [Dedup.maxChunkSize] at hmin
    rw [u64]
    omega
  rw [hu64]

/-- A chunker that is returned has the sizes of the configuration. -/
theorem Configure.chunkerInit_inv {config : Configure} {chunker : Chunker}
    (h : config.chunkerInit = .ok chunker) :
    0 < i32 config.slidingWinSize ∧
      ∃ n, numOfMaskBits (i32 config.averageChunkSize).toNat = some n ∧
        chunker = { minChunkSize := u64 (i32 config.minChunkSize),
                    maxChunkSize := (i32 config.maxChunkSize).toNat,
                    slidingWinSize := (i32 config.slidingWinSize).toNat,
                    readSize := u64 (config.readSize * 1024 * 1024), anchorMask := 2 ^ n - 1 } := by
  rw [Configure.chunkerInit] at h
  split at h
  · cases h
  split at h
  · cases h
  split at h
  · cases h
  split at h
  · cases h
  next hpos =>
    split at h
    · cases h
    next n hbits => exact ⟨Int.lt_of_not_ge hpos, n, hbits, (Except.ok.inj h).symm⟩

/-! ## The rolling hash -/

/-- `polyBase`. -/
def polyBase : Nat := 257

/-- `polyMOD`. -/
def polyMOD : Nat := 2 ^ 23 - 1

/-- `powerLUT`. -/
def powerLUT : Nat → Nat
  | 0 => 1
  | i + 1 => u32 (powerLUT i * polyBase) &&& polyMOD

/-- `removeLUT`. -/
def Chunker.removeLUT (chunker : Chunker) (i : Nat) : Nat :=
  let remove := u32 (i * powerLUT (chunker.slidingWinSize - 1)) &&& polyMOD
  if remove ≠ 0 then (polyMOD - remove + 1) &&& polyMOD else 0

/-- `anchorValue`. -/
def anchorValue : Nat := 0

/-- What the chunker remembers of the bytes. -/
structure Cutter where
  /-- `chunkBuffer`, up to `chunkBufferCnt`. -/
  chunkBuffer : Bytes
  /-- `winFp`. -/
  winFp : Nat

/-- The hash with the next byte. -/
def Chunker.roll (chunker : Chunker) (byte : UInt8) (cutter : Cutter) : Nat :=
  let chunkBufferCnt := cutter.chunkBuffer.length
  if chunkBufferCnt < chunker.slidingWinSize then
    u16 (u32 (cutter.winFp +
      byte.toNat * powerLUT (chunker.slidingWinSize - chunkBufferCnt - 1)) &&& polyMOD)
  else
    let v := (cutter.chunkBuffer ++ [byte]).getD (chunkBufferCnt - chunker.slidingWinSize) 0
    u16 (u32 (((cutter.winFp &&& polyMOD) + chunker.removeLUT v.toNat) * polyBase +
      byte.toNat) &&& polyMOD)

/-- The next byte, and the chunk that ends with it. -/
def Chunker.cutByte (chunker : Chunker) (byte : UInt8) (cutter : Cutter) :
    Cutter × Option Bytes :=
  let chunkBuffer := cutter.chunkBuffer ++ [byte]
  let winFp := chunker.roll byte cutter
  if cutter.chunkBuffer.length < chunker.slidingWinSize then (⟨chunkBuffer, winFp⟩, none)
  else if chunkBuffer.length < chunker.minChunkSize then (⟨chunkBuffer, winFp⟩, none)
  else if winFp &&& chunker.anchorMask = anchorValue then (⟨[], 0⟩, some chunkBuffer)
  else if chunker.maxChunkSize ≤ chunkBuffer.length then (⟨[], 0⟩, some chunkBuffer)
  else (⟨chunkBuffer, winFp⟩, none)

/-- The chunks that end in a sequence of bytes. -/
def Chunker.cuts (chunker : Chunker) : Bytes → Cutter → List Bytes × Cutter
  | [], cutter => ([], cutter)
  | byte :: bytes, cutter =>
      let (cutter, chunk) := chunker.cutByte byte cutter
      let (chunks, cutter) := chunker.cuts bytes cutter
      (chunk.toList ++ chunks, cutter)

/-- The chunk at the end of the file. -/
def Cutter.final (cutter : Cutter) : List Bytes :=
  if cutter.chunkBuffer = [] then [] else [cutter.chunkBuffer]

/-- The chunks of a file.  `winFp` is not initialised. -/
def Chunker.chunks (chunker : Chunker) (winFp : UInt16) (file : Bytes) : List Bytes :=
  let (chunks, cutter) := chunker.cuts file ⟨[], winFp.toNat⟩
  chunks ++ cutter.final

/-! ## Nothing is lost -/

/-- A byte goes to the buffer or ends the chunk. -/
theorem Chunker.cutByte_cases (chunker : Chunker) (byte : UInt8) (cutter : Cutter) :
    (∃ winFp, chunker.cutByte byte cutter = (⟨cutter.chunkBuffer ++ [byte], winFp⟩, none) ∧
      (cutter.chunkBuffer.length < chunker.slidingWinSize ∨
        cutter.chunkBuffer.length + 1 < chunker.minChunkSize ∨
          cutter.chunkBuffer.length + 1 < chunker.maxChunkSize)) ∨
      chunker.cutByte byte cutter = (⟨[], 0⟩, some (cutter.chunkBuffer ++ [byte])) := by
  have hlen : (cutter.chunkBuffer ++ [byte]).length = cutter.chunkBuffer.length + 1 :=
    List.length_append
  rw [Chunker.cutByte, hlen]
  by_cases hwin : cutter.chunkBuffer.length < chunker.slidingWinSize
  · rw [if_pos hwin]
    exact Or.inl ⟨_, rfl, Or.inl hwin⟩
  · rw [if_neg hwin]
    by_cases hmin : cutter.chunkBuffer.length + 1 < chunker.minChunkSize
    · rw [if_pos hmin]
      exact Or.inl ⟨_, rfl, Or.inr (Or.inl hmin)⟩
    · rw [if_neg hmin]
      split
      · exact Or.inr rfl
      · by_cases hmax : chunker.maxChunkSize ≤ cutter.chunkBuffer.length + 1
        · rw [if_pos hmax]
          exact Or.inr rfl
        · rw [if_neg hmax]
          exact Or.inl ⟨_, rfl, Or.inr (Or.inr (Nat.lt_of_not_le hmax))⟩

/-- The bytes of the chunks and of the buffer are the bytes put in. -/
theorem Chunker.flatten_cuts (chunker : Chunker) (bytes : Bytes) (cutter : Cutter) :
    (chunker.cuts bytes cutter).1.flatten ++ (chunker.cuts bytes cutter).2.chunkBuffer =
      cutter.chunkBuffer ++ bytes := by
  induction bytes generalizing cutter with
  | nil => exact (List.append_nil _).symm
  | cons byte bytes ih =>
      rw [Chunker.cuts]
      cases chunker.cutByte_cases byte cutter with
      | inl hstays =>
          obtain ⟨winFp, hcut, _⟩ := hstays
          rw [hcut]
          have hrest := ih ⟨cutter.chunkBuffer ++ [byte], winFp⟩
          rw [List.append_assoc] at hrest
          exact hrest
      | inr hends =>
          rw [hends]
          have hrest := ih ⟨[], 0⟩
          change ((cutter.chunkBuffer ++ [byte]) ++ (chunker.cuts bytes ⟨[], 0⟩).1.flatten) ++
            (chunker.cuts bytes ⟨[], 0⟩).2.chunkBuffer = _
          rw [List.append_assoc, hrest, List.append_assoc]
          rfl

/-- The length of a chunk at which the chunker looks for an anchor first. -/
def Chunker.firstTest (chunker : Chunker) : Nat :=
  max (chunker.slidingWinSize + 1) chunker.minChunkSize

/-- A chunk is cut off before the buffer is full. -/
def Chunker.HasRoom (chunker : Chunker) : Prop := chunker.firstTest ≤ chunker.maxChunkSize

theorem Chunker.HasRoom.pos {chunker : Chunker} (h : chunker.HasRoom) :
    0 < chunker.maxChunkSize := by
  rw [Chunker.HasRoom, Chunker.firstTest] at h
  omega

theorem Configure.Ordered.hasRoom {config : Configure} (h : config.Ordered)
    {readSize anchorMask : Nat} :
    (⟨config.minChunkSize, config.maxChunkSize, config.slidingWinSize, readSize,
      anchorMask⟩ : Chunker).HasRoom := by
  have hwin := h.window
  have hmin := h.min
  have haverage := h.average
  rw [Chunker.HasRoom, Chunker.firstTest]
  dsimp only
  omega

/-- What is kept back is shorter than a chunk may be. -/
theorem Chunker.cutByte_length {chunker : Chunker} (h : chunker.HasRoom) {byte : UInt8}
    {cutter cutter' : Cutter} {chunk : Option Bytes}
    (hcut : chunker.cutByte byte cutter = (cutter', chunk)) :
    cutter'.chunkBuffer.length < chunker.maxChunkSize := by
  cases chunker.cutByte_cases byte cutter with
  | inl hstays =>
      obtain ⟨winFp, heq, hlen⟩ := hstays
      obtain ⟨rfl, _⟩ := Prod.mk.inj (heq.symm.trans hcut)
      rw [Chunker.HasRoom, Chunker.firstTest] at h
      rw [List.length_append, List.length_singleton]
      omega
  | inr hends =>
      obtain ⟨rfl, _⟩ := Prod.mk.inj (hends.symm.trans hcut)
      exact h.pos

/-- No chunk is empty or too long. -/
theorem Chunker.cuts_sizes {chunker : Chunker} (h : chunker.HasRoom) (bytes : Bytes)
    {cutter : Cutter} (hlen : cutter.chunkBuffer.length < chunker.maxChunkSize) :
    (∀ chunk ∈ (chunker.cuts bytes cutter).1,
      1 ≤ chunk.length ∧ chunk.length ≤ chunker.maxChunkSize) ∧
      (chunker.cuts bytes cutter).2.chunkBuffer.length < chunker.maxChunkSize := by
  induction bytes generalizing cutter with
  | nil => exact ⟨nofun, hlen⟩
  | cons byte bytes ih =>
      rw [Chunker.cuts]
      cases hcut : chunker.cutByte byte cutter with
      | mk cutter' chunk =>
          obtain ⟨hchunks, hrest⟩ := ih (Chunker.cutByte_length h hcut)
          refine ⟨fun chunk' hmem => ?_, hrest⟩
          cases List.mem_append.mp hmem with
          | inr hlater => exact hchunks chunk' hlater
          | inl hnow =>
              cases chunker.cutByte_cases byte cutter with
              | inl hstays =>
                  obtain ⟨_, heq, _⟩ := hstays
                  obtain ⟨_, rfl⟩ := Prod.mk.inj (heq.symm.trans hcut)
                  cases hnow
              | inr hends =>
                  obtain ⟨_, rfl⟩ := Prod.mk.inj (hends.symm.trans hcut)
                  obtain rfl := List.mem_singleton.mp hnow
                  rw [List.length_append, List.length_singleton]
                  omega

theorem Cutter.flatten_final (cutter : Cutter) : cutter.final.flatten = cutter.chunkBuffer := by
  rw [Cutter.final]
  split
  next h => exact h.symm
  next => exact List.append_nil _

/-- A file is its chunks. -/
theorem Chunker.flatten_chunks (chunker : Chunker) (winFp : UInt16) (file : Bytes) :
    (chunker.chunks winFp file).flatten = file := by
  change ((chunker.cuts file ⟨[], winFp.toNat⟩).1 ++
    (chunker.cuts file ⟨[], winFp.toNat⟩).2.final).flatten = _
  rw [List.flatten_append, Cutter.flatten_final, Chunker.flatten_cuts, List.nil_append]

theorem Chunker.chunks_sizes {chunker : Chunker} (h : chunker.HasRoom) {winFp : UInt16}
    {file chunk : Bytes} (hchunk : chunk ∈ chunker.chunks winFp file) :
    1 ≤ chunk.length ∧ chunk.length ≤ chunker.maxChunkSize := by
  have hempty : ([] : Bytes).length < chunker.maxChunkSize := h.pos
  obtain ⟨hchunks, hrest⟩ := Chunker.cuts_sizes h file
    (show (⟨[], winFp.toNat⟩ : Cutter).chunkBuffer.length < _ from hempty)
  cases List.mem_append.mp hchunk with
  | inl hcut => exact hchunks chunk hcut
  | inr hfinal =>
      rw [Cutter.final] at hfinal
      split at hfinal
      · cases hfinal
      next hne =>
        rw [List.mem_singleton.mp hfinal]
        exact ⟨List.length_pos_of_ne_nil hne, hrest.le⟩

end Dedup
