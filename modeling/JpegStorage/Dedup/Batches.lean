import JpegStorage.Dedup.Restore
import Mathlib.Data.List.Basic

/-!
# The batches of a recipe

The loop of `RecvDecode::run` for itself: three counters and a call that says how many
chunks it has restored.  A thread of `decode` goes through the same values of the counters
(`decode_batches`).

The first request is one chunk short, or empty.  Behind it `totalRestoredChunkNumber` and
`startID` are the same number `n`, the next request is not empty and stays inside the recipe
(`nextEnd_inside`), and the loop ends when `n` is the number of chunks (`run_rest`).
-/

namespace Dedup

/-- The variables of the loop of `run`. -/
structure Batch where
  /-- `totalRestoredChunkNumber`. -/
  totalRestoredChunkNumber : Nat
  /-- `startID`. -/
  startID : Nat
  /-- `endID`. -/
  endID : Nat

/-- The chunks a batch asks for. -/
def Batch.chunks (batch : Batch) : List Nat :=
  List.range' batch.startID (batch.endID - batch.startID)

namespace RecvDecode

/-- The variables before the loop. -/
def firstBatch (r : RecvDecode) : Batch := ⟨0, 0, r.firstEnd⟩

/-- The variables after a call that has restored some chunks. -/
def nextBatch (r : RecvDecode) (size : Nat) (batch : Batch) : Batch :=
  let totalRestoredChunkNumber := u32 (batch.totalRestoredChunkNumber + size)
  ⟨totalRestoredChunkNumber, batch.endID, r.nextEnd totalRestoredChunkNumber batch.endID⟩

/-- `run`: what it requests, when `restored` is the size of `restoredChunkList` after a call
of `restoreRecipeAndChunk`, or nothing when the call returns `false`. -/
def run (r : RecvDecode) (restored : Nat → Nat → Option Nat) : Nat → Batch → Option (List Batch)
  | 0, _ => none
  | fuel + 1, batch =>
      if batch.totalRestoredChunkNumber = r.totalChunkNumber then some []
      else
        match restored batch.startID batch.endID with
        | none => some [batch]
        | some size => (batch :: ·) <$> r.run restored fuel (r.nextBatch size batch)

/-! ## The threads -/

/-- The next batch when all chunks of this one are restored. -/
def after (r : RecvDecode) (batch : Batch) : Batch :=
  r.nextBatch (batchCount batch.startID batch.endID) batch

/-- A thread is at a batch. -/
inductive AtBatch (batch : Batch) : Decoder → Prop where
  | next : AtBatch batch (.next batch.totalRestoredChunkNumber batch.startID batch.endID)
  | batch (readBuffer : Nat → UInt8) (i : Nat) : AtBatch batch
      (.batch batch.totalRestoredChunkNumber batch.startID batch.endID readBuffer i)

/-- A step stays at the batch, goes to the next one or returns. -/
theorem AtBatch.decode {r : RecvDecode} {batch : Batch} {decoder decoder' : Decoder}
    {stack : Nat → UInt8} {p p' : Process} {pushed : List Chunk} (h : AtBatch batch decoder)
    (hstep : r.decode stack p decoder = some (decoder', pushed, p')) :
    decoder' = .returned ∨ AtBatch batch decoder' ∨ AtBatch (r.after batch) decoder' := by
  cases h with
  | next =>
      rw [RecvDecode.decode] at hstep
      split at hstep
      · cases hstep
        exact Or.inl rfl
      · cases hfile : p.disk.recipeFile r.fileNameHash.toList with
        | none =>
            rw [hfile] at hstep
            cases hstep
            exact Or.inl rfl
        | some bytes =>
            rw [hfile] at hstep
            cases hstep
            exact Or.inr (Or.inl (.batch _ 0))
  | batch readBuffer i =>
      rw [RecvDecode.decode] at hstep
      split at hstep
      · cases hentry : p.restoreEntry (entryOfBuffer readBuffer i) with
        | error fault =>
            rw [hentry] at hstep
            cases hstep
        | ok found =>
            obtain ⟨chunk, p₁⟩ := found
            rw [hentry] at hstep
            cases chunk with
            | none =>
                cases hstep
                exact Or.inl rfl
            | some chunk =>
                cases hstep
                exact Or.inr (Or.inl (.batch _ (i + 1)))
      · cases hstep
        exact Or.inr (Or.inr .next)

/-- The batches of a thread are the batches of `run`. -/
theorem decode_batches {r : RecvDecode} {decoder : Decoder}
    (h : Relation.ReflTransGen (fun d d' => ∃ stack p pushed p',
      r.decode stack p d = some (d', pushed, p')) (.next 0 0 r.firstEnd) decoder) :
    decoder = .returned ∨ ∃ k, AtBatch (r.after^[k] r.firstBatch) decoder := by
  induction h with
  | refl => exact Or.inr ⟨0, .next⟩
  | tail _ hstep ih =>
      obtain ⟨stack, p, pushed, p', hstep⟩ := hstep
      rcases ih with rfl | ⟨k, hat⟩
      · cases hstep
      · rcases hat.decode hstep with rfl | hsame | hnext
        · exact Or.inl rfl
        · exact Or.inr ⟨k, hsame⟩
        · refine Or.inr ⟨k + 1, ?_⟩
          rw [Function.iterate_succ_apply']
          exact hnext

/-! ## The requests -/

section
variable {r : RecvDecode} {restored : Nat → Nat → Option Nat}

theorem restoreChunkBatchSize_eq (hbatch : 1 ≤ r.sendChunkBatchSize) :
    (r.restoreChunkBatchSize : Int) = r.sendChunkBatchSize := by
  have hint := r.batch_int
  rw [restoreChunkBatchSize]
  omega

/-- The next batch is inside the recipe. -/
theorem nextEnd_inside (hlt : r.totalChunkNumber < 2 ^ 32) (hbatch : 1 ≤ r.sendChunkBatchSize)
    {n : Nat} (hn : n < r.totalChunkNumber) :
    n < r.nextEnd n n ∧ r.nextEnd n n ≤ r.totalChunkNumber ∧
      ((r.nextEnd n n - n : Nat) : Int) ≤ r.sendChunkBatchSize := by
  have hsize := r.restoreChunkBatchSize_eq hbatch
  rw [nextEnd, r.left_eq hn.le]
  split
  · rw [u32, Nat.mod_eq_of_lt (by omega)]
    omega
  · rw [u32, Nat.mod_eq_of_lt (by omega)]
    omega

/-- What a request of `run` is like. -/
structure Sound (r : RecvDecode) (batch : Batch) : Prop where
  /-- The chunks in front of it are restored. -/
  total : batch.totalRestoredChunkNumber = batch.startID
  /-- It is a range. -/
  le : batch.startID ≤ batch.endID
  /-- It is inside the recipe. -/
  inside : batch.endID ≤ r.totalChunkNumber
  /-- It is not too long. -/
  size : ((batch.endID - batch.startID : Nat) : Int) ≤ r.sendChunkBatchSize

/-- A call that restores its batch. -/
theorem run_succ (hlt : r.totalChunkNumber < 2 ^ 32)
    (hrestored : ∀ startID endID, startID ≤ endID → endID ≤ r.totalChunkNumber →
      restored startID endID = some (endID - startID))
    {startID endID : Nat} (hne : startID ≠ r.totalChunkNumber) (hle : startID ≤ endID)
    (hinside : endID ≤ r.totalChunkNumber) (fuel : Nat) :
    r.run restored (fuel + 1) ⟨startID, startID, endID⟩ =
      (⟨startID, startID, endID⟩ :: ·) <$>
        r.run restored fuel ⟨endID, endID, r.nextEnd endID endID⟩ := by
  have htotal : u32 (startID + (endID - startID)) = endID := by
    rw [u32]
    omega
  rw [run, if_neg hne, hrestored _ _ hle hinside]
  dsimp only
  rw [nextBatch, htotal]

/-- Behind the first request. -/
theorem run_rest (hlt : r.totalChunkNumber < 2 ^ 32) (hbatch : 1 ≤ r.sendChunkBatchSize)
    (hrestored : ∀ startID endID, startID ≤ endID → endID ≤ r.totalChunkNumber →
      restored startID endID = some (endID - startID))
    {fuel n : Nat} (hn : n ≤ r.totalChunkNumber) (hfuel : r.totalChunkNumber - n < fuel) :
    ∃ batches, r.run restored fuel ⟨n, n, r.nextEnd n n⟩ = some batches ∧
      (∀ batch ∈ batches, r.Sound batch) ∧
        batches.flatMap Batch.chunks = List.range' n (r.totalChunkNumber - n) := by
  induction fuel generalizing n with
  | zero => cases hfuel
  | succ fuel ih =>
      by_cases hlast : n = r.totalChunkNumber
      · refine ⟨[], if_pos hlast, fun batch hbatch => ?_, ?_⟩
        · cases hbatch
        · simp [hlast]
      · obtain ⟨hpos, hinside, hsize⟩ := nextEnd_inside hlt hbatch (Nat.lt_of_le_of_ne hn hlast)
        have hfuel' : r.totalChunkNumber - r.nextEnd n n < fuel := by omega
        obtain ⟨batches, hrun, hsound, hchunks⟩ := ih hinside hfuel'
        refine ⟨⟨n, n, r.nextEnd n n⟩ :: batches, ?_, fun batch hmem => ?_, ?_⟩
        · rw [run_succ hlt hrestored hlast hpos.le hinside, hrun]
          rfl
        · rcases List.mem_cons.mp hmem with rfl | hmem
          · exact ⟨rfl, hpos.le, hinside, hsize⟩
          · exact hsound batch hmem
        · have hcount : r.totalChunkNumber - n =
              (r.nextEnd n n - n) + (r.totalChunkNumber - r.nextEnd n n) := by omega
          have hstart : n + (r.nextEnd n n - n) = r.nextEnd n n := by omega
          rw [List.flatMap_cons, hchunks, hcount, ← List.range'_append_1, hstart]
          rfl

theorem firstEnd_lt (h0 : r.totalChunkNumber ≠ 0) (hlt : r.totalChunkNumber < 2 ^ 32)
    (hbatch : 1 ≤ r.sendChunkBatchSize) :
    r.firstEnd < r.totalChunkNumber ∧ (r.firstEnd : Int) ≤ r.sendChunkBatchSize := by
  rw [firstEnd, u64]
  split
  · rw [u32, u64]
    omega
  · omega

/-- Empty batches ask for nothing. -/
theorem flatMap_nonempty (batches : List Batch) :
    (batches.filter fun batch => batch.startID < batch.endID).flatMap Batch.chunks =
      batches.flatMap Batch.chunks := by
  induction batches with
  | nil => rfl
  | cons batch batches ih =>
      rw [List.flatMap_cons, ← ih]
      by_cases hlt : batch.startID < batch.endID
      · simp [hlt]
      · have hempty : batch.endID - batch.startID = 0 := by omega
        simp [hlt, Batch.chunks, hempty]

end

/-- The batches are a partition of the recipe. -/
theorem run_partition {r : RecvDecode} (hlt : r.totalChunkNumber < 2 ^ 32)
    (hbatch : 1 ≤ r.sendChunkBatchSize) {restored : Nat → Nat → Option Nat}
    (hrestored : ∀ startID endID, startID ≤ endID → endID ≤ r.totalChunkNumber →
      restored startID endID = some (endID - startID)) :
    ∃ fuel batches, r.run restored fuel r.firstBatch = some batches ∧
      (∀ batch ∈ batches, r.Sound batch) ∧
      (batches.filter fun batch => batch.startID < batch.endID).flatMap Batch.chunks =
        List.range r.totalChunkNumber := by
  suffices hrun : ∃ fuel batches, r.run restored fuel r.firstBatch = some batches ∧
      (∀ batch ∈ batches, r.Sound batch) ∧
        batches.flatMap Batch.chunks = List.range r.totalChunkNumber by
    obtain ⟨fuel, batches, hrun, hsound, hchunks⟩ := hrun
    refine ⟨fuel, batches, hrun, hsound, ?_⟩
    rw [← hchunks]
    exact flatMap_nonempty batches
  by_cases h0 : r.totalChunkNumber = 0
  · refine ⟨1, [], if_pos h0.symm, fun batch hmem => ?_, ?_⟩
    · cases hmem
    · rw [h0]
      rfl
  · obtain ⟨hinside, hsize⟩ := firstEnd_lt h0 hlt hbatch
    obtain ⟨batches, hrun, hsound, hchunks⟩ :=
      run_rest hlt hbatch hrestored hinside.le (Nat.lt_succ_self _)
    refine ⟨r.totalChunkNumber - r.firstEnd + 1 + 1, ⟨0, 0, r.firstEnd⟩ :: batches, ?_,
      fun batch hmem => ?_, ?_⟩
    · rw [firstBatch, run_succ hlt hrestored (Ne.symm h0) (Nat.zero_le _) hinside.le, hrun]
      rfl
    · rcases List.mem_cons.mp hmem with rfl | hmem
      · exact ⟨rfl, Nat.zero_le _, hinside.le, hsize⟩
      · exact hsound batch hmem
    · have hcount : r.totalChunkNumber = r.firstEnd + (r.totalChunkNumber - r.firstEnd) := by omega
      rw [List.flatMap_cons, hchunks, List.range_eq_range', hcount, ← List.range'_append_1]
      simp [Batch.chunks]

/-- Three chunks in batches of two. -/
theorem run_partition_three :
    ∃ fuel batches, (⟨Vector.replicate 32 0, 3, by decide, 2, by decide⟩ : RecvDecode).run
        (fun startID endID => some (endID - startID)) fuel ⟨0, 0, 0⟩ = some batches ∧
      (batches.filter fun batch => batch.startID < batch.endID).flatMap Batch.chunks =
        [0, 1, 2] := by
  let r : RecvDecode := ⟨Vector.replicate 32 0, 3, by decide, 2, by decide⟩
  obtain ⟨fuel, batches, hrun, _, hchunks⟩ := run_partition (by decide : r.totalChunkNumber < 2 ^ 32)
    (by decide : 1 ≤ r.sendChunkBatchSize) fun startID endID _ _ =>
      (rfl : some (endID - startID) = some (endID - startID))
  exact ⟨fuel, batches, hrun, hchunks⟩

end RecvDecode

end Dedup
