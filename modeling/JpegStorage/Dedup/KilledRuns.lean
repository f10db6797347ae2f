import JpegStorage.Dedup.KeptFiles
import JpegStorage.Dedup.RoundTrip

/-!
# Runs in which processes are killed

`KilledRuns` is any sequence of processes, each of which uploads a file or restores one, and
comes to its end or is killed.  The disk keeps the files that it accepted
(`KilledRuns.keeps`), so each of them is restored in the end (`kept_files_restored`).

The disk does not accept a file with a chunk that only a killed process has saved, and it does
not say so either (`LostChunks`).
-/

namespace Dedup

open Interrupt

variable {sha256 : Bytes → Hash} {kept : List Uploaded} {K : Set Bytes} {n used : Nat}
  {disk disk' : Disk}

/-! ## Reading kept chunks -/

/-- A process that restores files. -/
structure Process.Serves (sha256 : Bytes → Hash) (K : Set Bytes) (n used : Nat) (disk : Disk)
    (p : Process) : Prop where
  /-- The chunks. -/
  carries : p.Carries sha256 K n
  /-- The disk. -/
  disk : p.disk = disk
  /-- What is used of the open container. -/
  used : p.core.currentContainer.used = used
  /-- The file of another container is in the cache, or none. -/
  cache : p.core.currentReadContainerFileName = [] ∨
    p.core.currentReadContainerFileName ≠ p.core.lastContainerFileName ∧
      ∃ bytes, p.disk.containers p.core.currentReadContainerFileName = some bytes ∧
        Buffer.read p.core.currentReadContainer.body 0 bytes.length = bytes

theorem Disk.Keeps.serves (h : disk.Keeps sha256 kept n used) (fresh : Nat → UInt8)
    {maxContainerSize : Nat} (hmax : maxContainerSize ≤ 2 ^ 24) :
    ∃ p, Process.start fresh maxContainerSize disk = .ok p ∧
      p.Serves sha256 (contents kept) n used disk := by
  obtain ⟨p, hstart, hcarries, hdisk, hused, hcache⟩ := h.stores.start h.opens fresh hmax
  exact ⟨p, hstart, hcarries, hdisk, hused, Or.inl hcache⟩

section
variable {p p' : Process}

/-- A container comes into the cache. -/
theorem Process.Serves.loadContainer (h : p.Serves sha256 K n used disk) {name : Name}
    (hlast : name ≠ p.core.lastContainerFileName) (hrun : p.loadContainer name = .ok p') :
    p'.Serves sha256 K n used disk ∧ p'.core.currentReadContainerFileName = name := by
  rw [Process.loadContainer] at hrun
  cases hfile : p.disk.containers name with
  | none =>
      rw [hfile] at hrun
      cases hrun
  | some bytes =>
      have hroom : 0 + bytes.length ≤ bodySize := by
        rw [Nat.zero_add]
        exact h.carries.fits name bytes hfile
      rw [hfile] at hrun
      simp only [Container.memcpy_ok _ hroom] at hrun
      cases hrun
      refine ⟨⟨?_, h.disk, h.used, Or.inr ⟨hlast, bytes, hfile, Buffer.read_write ..⟩⟩, rfl⟩
      exact ⟨h.carries.name, h.carries.used, h.carries.maxSize, h.carries.fits, h.carries.chunks⟩

/-- Whatever is read, the chunks stay. -/
theorem Process.Serves.restoreChunk (h : p.Serves sha256 K n used disk) {hash data : Bytes}
    (hrun : p.restoreChunk hash = .ok (data, p')) : p'.Serves sha256 K n used disk := by
  rw [Process.restoreChunk] at hrun
  cases hentry : p.disk.fp2ChunkDB hash with
  | none =>
      rw [hentry] at hrun
      cases hrun
  | some key =>
      rw [hentry] at hrun
      dsimp only at hrun
      rw [Process.readContainer] at hrun
      split at hrun
      · obtain ⟨_, _, hrun⟩ := Run.except_bind_eq_ok.mp hrun
        cases hrun
        exact h
      · split at hrun
        · obtain ⟨_, _, hrun⟩ := Run.except_bind_eq_ok.mp hrun
          cases hrun
          exact h
        next hlast =>
          obtain ⟨p₁, hload, hrun⟩ := Run.except_bind_eq_ok.mp hrun
          obtain ⟨_, _, hrun⟩ := Run.except_bind_eq_ok.mp hrun
          cases hrun
          exact (h.loadContainer hlast hload).1

theorem Process.kept_serves (r : RecvDecode) :
    Kept r (disk.recipeFile r.fileNameHash.toList) (Process.Serves sha256 K n used disk) where
  file := fun _ hp => by rw [hp.disk]
  stays := fun _ _ _ _ hp hrun =>
    restoreEntry_stays (fun _ _ _ _ hp hread => hp.restoreChunk hread) hp hrun

/-- A chunk is read from the file of its container. -/
theorem Container.copy_file {c : Container} {bytes data : Bytes} {off : Nat}
    (hslice : Buffer.Slice bytes off data) (hfits : bytes.length ≤ bodySize)
    (hbody : Buffer.read c.body 0 bytes.length = bytes) : c.copy off data.length = .ok data := by
  rw [Container.copy_slice hslice.1 hfits hbody, hslice.2]

/-- The chunks are read. -/
theorem Process.Serves.reads (h : p.Serves sha256 K n used disk) (hn : n < nameCount) {data : Bytes}
    (hdata : data ∈ K) :
    ∃ p', p.restoreChunk (generateHash sha256 data).toList = .ok (data, p') := by
  obtain ⟨i, off, hentry, hat⟩ := h.carries.chunks data hdata
  have htake : (containerName i).take p.core.lastContainerFileName.length = containerName i := by
    rw [h.carries.name, length_containerName, ← length_containerName i, List.take_length]
  have hi : i < nameCount := hat.le.trans_lt hn
  rw [Process.restoreChunk, hentry]
  dsimp only
  rw [Process.readContainer, htake]
  by_cases hcached : containerName i = p.core.currentReadContainerFileName
  · rw [if_pos hcached]
    cases h.cache with
    | inl hnone => exact absurd (hcached.trans hnone) (containerName_ne_nil i)
    | inr hsome =>
        obtain ⟨hlast, bytes, hfile, hbody⟩ := hsome
        rcases hat with ⟨_, bytes', hfile', hslice⟩ | ⟨rfl, _, _⟩
        · rw [hcached, hfile] at hfile'
          cases hfile'
          have hfits := h.carries.fits _ bytes hfile
          refine ⟨p, ?_⟩
          rw [Container.copy_file hslice hfits hbody]
          rfl
        · exact absurd (hcached.symm.trans h.carries.name.symm) hlast
  · rw [if_neg hcached]
    by_cases hlast : containerName i = p.core.lastContainerFileName
    · obtain rfl := containerName_inj hi hn (hlast.trans h.carries.name)
      rw [if_pos hlast]
      rcases hat with ⟨hlt, _⟩ | ⟨_, hle, hread⟩
      · exact absurd hlt (Nat.lt_irrefl i)
      · refine ⟨p, ?_⟩
        rw [Container.copy_ok _ (hle.trans h.carries.used), hread]
        rfl
    · rcases hat with ⟨_, bytes, hfile, hslice⟩ | ⟨rfl, _, _⟩
      · have hfits := h.carries.fits _ bytes hfile
        have hroom : 0 + bytes.length ≤ bodySize := (Nat.zero_add _).le.trans hfits
        obtain ⟨p', hload⟩ : ∃ p', p.loadContainer (containerName i) = .ok p' := by
          rw [Process.loadContainer, hfile]
          simp only [Container.memcpy_ok _ hroom]
          exact ⟨_, rfl⟩
        obtain ⟨hp', hname⟩ := h.loadContainer hlast hload
        have hdisk : p'.disk = p.disk := hp'.disk.trans h.disk.symm
        cases hp'.cache with
        | inl hnone => exact absurd (hname.symm.trans hnone) (containerName_ne_nil i)
        | inr hsome =>
            obtain ⟨_, bytes', hfile', hbody⟩ := hsome
            rw [hname, hdisk, hfile] at hfile'
            cases hfile'
            refine ⟨p', ?_⟩
            rw [if_neg hlast, hload]
            change (Container.copy _ off data.length >>= _) = _
            rw [Container.copy_file hslice hfits hbody]
            rfl
      · exact absurd h.carries.name.symm hlast

end

/-- A kept file can be restored. -/
theorem Disk.Keeps.yields (h : disk.Keeps sha256 kept n used) (hn : n < nameCount) {u : Uploaded}
    (hu : u ∈ kept) : ∃ entries, disk.Yields sha256
      (Process.Serves sha256 (contents kept) n used disk) u.name entries u.chunks := by
  obtain ⟨recipe, entries, hrecords⟩ := h.catalogs.known u hu
  obtain ⟨rest, hfile⟩ := hrecords.file
  refine ⟨entries, ?_⟩
  constructor
  case recipe =>
    exact ⟨_, recipe, rest, hrecords.name, hfile, hrecords.fileHead, hrecords.keyHead,
      hrecords.total⟩
  case describes => exact hrecords.describes
  case count => exact hrecords.count
  case disk => exact fun _ hp => hp.disk
  case stays => exact fun _ _ _ _ hp hrun => hp.restoreChunk hrun
  case restores => exact fun data hdata p hp => hp.reads hn ⟨u, hu, hdata⟩

/-! ## Sequences of processes -/

/-- The disk after processes, some of them killed, with the files it accepted and how often
the container was rotated at most. -/
inductive KilledRuns (sha256 : Bytes → Hash) : List Uploaded → Nat → Disk → Prop where
  | first : KilledRuns sha256 [] 0 .empty
  | upload {kept : List Uploaded} {rotations : Nat} {disk disk' : Disk} {config : Configure}
      {chunker : Chunker} {memory : Memory} {name file : Bytes} {p : Process} :
      KilledRuns sha256 kept rotations disk → Uploads config chunker memory file →
      Process.start memory.body config.maxContainerSize disk = .ok p →
      upload sha256 memory config name file disk = .ok disk' →
      disk.Accepts sha256 kept ⟨name, file, chunker.chunks memory.winFp file⟩ →
      KilledRuns sha256 (kept ++ [⟨name, file, chunker.chunks memory.winFp file⟩])
        (rotations + p.rotations sha256 (chunker.chunks memory.winFp file)) disk'
  | unaccepted {kept : List Uploaded} {rotations : Nat} {disk disk' : Disk} {config : Configure}
      {chunker : Chunker} {memory : Memory} {name file : Bytes} {p : Process} :
      KilledRuns sha256 kept rotations disk → Uploads config chunker memory file →
      Process.start memory.body config.maxContainerSize disk = .ok p →
      upload sha256 memory config name file disk = .ok disk' →
      KilledRuns sha256 kept
        (rotations + p.rotations sha256 (chunker.chunks memory.winFp file)) disk'
  | killed {kept : List Uploaded} {rotations : Nat} {disk disk' : Disk} {config : Configure}
      {chunker : Chunker} {memory : Memory} {name file : Bytes} {p : Process} :
      KilledRuns sha256 kept rotations disk → Uploads config chunker memory file →
      Process.start memory.body config.maxContainerSize disk = .ok p →
      disk' ∈ (Killable.upload sha256 memory config name file disk).leaves → disk.Uncut disk' →
      KilledRuns sha256 kept
        (rotations + p.rotations sha256 (chunker.chunks memory.winFp file)) disk'
  | restore {kept : List Uploaded} {rotations : Nat} {disk disk' : Disk} {config : Configure}
      {fresh : Nat → UInt8} {uninit : UInt64} {stackOf : Nat → Nat → UInt8} {name : Bytes}
      {p : Process} {s : Restoring} :
      KilledRuns sha256 kept rotations disk → config.Sound →
      Process.start fresh config.maxContainerSize disk = .ok p →
      Relation.ReflTransGen (Restoring.Step (recvDecode sha256 uninit config name disk) stackOf
        config.recvDecodeThreadLimit.toNat)
        (Restoring.start (recvDecode sha256 uninit config name disk) p) s →
      s.storage.finish = .ok disk' → KilledRuns sha256 kept rotations disk'
  | killedRestore {kept : List Uploaded} {rotations : Nat} {disk disk' : Disk}
      {config : Configure} {fresh : Nat → UInt8} {uninit : UInt64}
      {stackOf : Nat → Nat → UInt8} {name : Bytes} {p : Process} {s : Restoring} :
      KilledRuns sha256 kept rotations disk → config.Sound →
      Process.start fresh config.maxContainerSize disk = .ok p →
      Relation.ReflTransGen (Restoring.Step (recvDecode sha256 uninit config name disk) stackOf
        config.recvDecodeThreadLimit.toNat)
        (Restoring.start (recvDecode sha256 uninit config name disk) p) s →
      disk' ∈ (Killable.finish s.storage).leaves → disk.Uncut disk' →
      KilledRuns sha256 kept rotations disk'

/-- A process that restores files leaves them on the disk. -/
theorem Disk.Keeps.restored (h : disk.Keeps sha256 kept n used) (hn : n < nameCount)
    {config : Configure} (hsound : config.Sound) {fresh : Nat → UInt8} {uninit : UInt64}
    {stackOf : Nat → Nat → UInt8} {name : Bytes} {threads : Nat} {p : Process} {s : Restoring}
    (hstart : Process.start fresh config.maxContainerSize disk = .ok p)
    (hrun : Relation.ReflTransGen
      (Restoring.Step (recvDecode sha256 uninit config name disk) stackOf threads)
      (Restoring.start (recvDecode sha256 uninit config name disk) p) s) :
    (Killable.finish s.storage).Safe (fun disk' => ∃ used, disk'.Keeps sha256 kept n used)
      (Disk.KeepsAfter sha256 disk kept n) := by
  obtain ⟨p', hstart', hp⟩ := h.serves fresh hsound.container
  cases hstart.symm.trans hstart'
  have hs : s.storage.Serves sha256 (contents kept) n used disk :=
    Restoring.steps_kept (Process.kept_serves _) hp hrun
  have hdisk := hs.disk
  have hsince : s.storage.Since disk n used n :=
    ⟨fun _ _ hentry => hdisk ▸ hentry, Nat.le_refl n, fun _ => ⟨hs.used.ge, by rw [hdisk]⟩⟩
  refine (h.finish hs.carries subset_rfl hsince (by rw [hdisk]) hn
    (hdisk ▸ h.catalogs)).mono (fun disk' hdone => ?_) fun _ => id
  obtain ⟨hcatalog, used', hopens, hstores⟩ := hdone
  exact ⟨used', hopens, hstores, h.catalogs.of_catalog (hcatalog.trans (by rw [hdisk])), h.files⟩

/-- The accepted files stay on the disk. -/
theorem KilledRuns.keeps {rotations : Nat} (h : KilledRuns sha256 kept rotations disk)
    (hchunks : Set.InjOn (generateHash sha256) (contents kept)) (hfew : rotations < nameCount) :
    ∃ n ≤ rotations, ∃ used, disk.Keeps sha256 kept n used := by
  induction h with
  | first => exact ⟨0, Nat.le_refl 0, 0, Disk.keeps_empty sha256⟩
  | @upload kept rotations disk disk' config chunker memory name file p _ huploads hstart hrun
      haccepts ih =>
      have hold : Set.InjOn (generateHash sha256) (contents kept) := by
        rw [contents_append] at hchunks
        exact hchunks.mono Set.subset_union_left
      obtain ⟨n₀, hn₀, used₀, h₀⟩ := ih hold (by omega)
      have hsafe := h₀.upload huploads name hstart (by omega)
      obtain ⟨n, hn, used, _, hkeeps⟩ := hsafe.returns disk' (by rw [Killable.upload_result, hrun])
      exact ⟨n, by omega, used, hkeeps haccepts hchunks⟩
  | @unaccepted kept rotations disk disk' config chunker memory name file p _ huploads hstart hrun
      ih =>
      obtain ⟨n₀, hn₀, used₀, h₀⟩ := ih hchunks (by omega)
      have hsafe := h₀.upload huploads name hstart (by omega)
      obtain ⟨n, hn, used, hkeeps, _⟩ := hsafe.returns disk' (by rw [Killable.upload_result, hrun])
      exact ⟨n, by omega, used, hkeeps⟩
  | @killed kept rotations disk disk' config chunker memory name file p _ huploads hstart hleft
      huncut ih =>
      obtain ⟨n₀, hn₀, used₀, h₀⟩ := ih hchunks (by omega)
      have hsafe := h₀.upload huploads name hstart (by omega)
      obtain ⟨n, hn, hkeeps⟩ := hsafe.leaves disk' hleft huncut
      exact ⟨n, by omega, hkeeps⟩
  | @restore kept rotations disk disk' config fresh uninit stackOf name p s _ hsound hstart hrun
      hfinish ih =>
      obtain ⟨n, hn, used, h₀⟩ := ih hchunks hfew
      have hsafe := h₀.restored (hn.trans_lt hfew) hsound hstart hrun
      exact ⟨n, hn, hsafe.returns disk' (by rw [Killable.finish_result, hfinish])⟩
  | @killedRestore kept rotations disk disk' config fresh uninit stackOf name p s _ hsound hstart
      hrun hleft huncut ih =>
      obtain ⟨n, hn, used, h₀⟩ := ih hchunks hfew
      have hsafe := h₀.restored (hn.trans_lt hfew) hsound hstart hrun
      obtain ⟨n', hn', hkeeps⟩ := hsafe.leaves disk' hleft huncut
      exact ⟨n', hn'.trans hn, hkeeps⟩

/-! ## Uploads of two bytes -/

/-- The process of `client -s` on a disk without `.StorageConfig`, with the bytes in the
container. -/
def firstProcess (bytes : Bytes) (disk : Disk) : Process :=
  ⟨⟨firstContainerFileName, [], ⟨bytes.length, Buffer.write zeroMemory.body 0 bytes⟩,
    ⟨0, zeroMemory.body⟩, 8388608⟩, disk⟩

theorem headHash_ne :
    (generateHash headHash [3, 4]).toList ≠ (generateHash headHash [1, 2]).toList := by
  intro heq
  have hfirst := congrArg (fun hash : Hash => hash[0]) (Vector.toList_inj.mp heq)
  simp [generateHash, headHash] at hfirst

section
variable {x y : UInt8}

theorem uploads_two : Uploads configJson chunkerJson zeroMemory [x, y] :=
  uploads_configJson (by decide : 2 ≤ 4096)

theorem chunks_two : chunkerJson.chunks zeroMemory.winFp [x, y] = [[x, y]] := by
  have hlen : [x, y].length ≤ 4096 := (by decide : 2 ≤ 4096)
  rw [chunks_chunkerJson hlen, if_neg (List.cons_ne_nil x [y])]

theorem start_firstProcess (hconfig : disk.storageConfig = none) :
    Process.start zeroMemory.body configJson.maxContainerSize disk =
      .ok (firstProcess [] disk) := by
  rw [Process.start, hconfig]
  rfl

theorem rotations_firstProcess : (firstProcess [] disk).rotations sha256 [[x, y]] = 0 := by
  have hfits : (firstProcess [] disk).core.Fits [x, y] :=
    Nat.lt_of_sub_pos (by decide : 0 < 8388608 - u32 (2 + 0))
  rw [Process.rotations, if_neg fun hrotates => hrotates.2 hfits]
  cases (firstProcess [] disk).dedupChunk (generateHash sha256 [x, y]).toList [x, y] <;> rfl

/-- They go to the begin of the container. -/
theorem emitAll_firstProcess (hnone : disk.fp2ChunkDB (generateHash sha256 [x, y]).toList = none) :
    ∃ saving, Saving.emitAll sha256 zeroMemory [[x, y]] ⟨0, [], firstProcess [] disk⟩ = .ok saving ∧
      saving.storage = firstProcess [x, y]
        (disk.putEntry (generateHash sha256 [x, y]).toList ⟨containerName 0, 0, 2⟩) := by
  have hsize : [x, y].length ≤ maxChunkSize := (by decide : 2 ≤ maxChunkSize)
  have hdedup : (firstProcess [] disk).dedupChunk (generateHash sha256 [x, y]).toList [x, y] =
      .ok (firstProcess [x, y]
        (disk.putEntry (generateHash sha256 [x, y]).toList ⟨containerName 0, 0, 2⟩)) := by
    have hnew : (firstProcess [] disk).disk.fp2ChunkDB (generateHash sha256 [x, y]).toList = none :=
      hnone
    rw [Process.dedupChunk, hnew]
    rfl
  refine ⟨⟨u64 (0 + 1), [savedEntry sha256 0 (zeroMemory.encryptKey 0) [x, y]], _⟩, ?_, rfl⟩
  rw [Saving.emitAll, Saving.emit_eq (fun _ => rfl) hsize, hdedup]
  rfl

/-- The upload is killed before it writes the recipe. -/
theorem killed_firstProcess {name : Bytes} (hconfig : disk.storageConfig = none)
    (hnone : disk.fp2ChunkDB (generateHash sha256 [x, y]).toList = none)
    (hname : disk.fileName2metaDB (generateHash sha256 name).toList = none) :
    disk.putEntry (generateHash sha256 [x, y]).toList ⟨containerName 0, 0, 2⟩ ∈
      (Killable.upload sha256 zeroMemory configJson name [x, y] disk).leaves := by
  obtain ⟨hroom, _⟩ := configJson_sound.hasRoom chunkerInit_configJson
  obtain ⟨saving, hsave, hstorage⟩ := emitAll_firstProcess hnone
  rw [Killable.upload, Interruptible.mem_leaves_bind, Interruptible.result_lift]
  refine Or.inr ⟨firstProcess [] disk, start_firstProcess hconfig, ?_⟩
  rw [Interruptible.mem_leaves_bind, Interruptible.result_lift]
  refine Or.inr ⟨chunkerJson, chunkerInit_configJson, ?_⟩
  rw [Interruptible.mem_leaves_bind,
    Killable.varSizeChunking_eq hroom (by decide) uploads_two.blocks, chunks_two,
    Interruptible.mem_leaves_bind, Killable.emitAll_result]
  refine Or.inl (Or.inr ⟨saving, hsave, Or.inl ?_⟩)
  have hunknown : saving.storage.disk.fileName2metaDB (generateHash sha256 name).toList = none := by
    rw [hstorage]
    exact hname
  rw [Killable.checkRecipeStatus]
  dsimp only
  rw [hunknown, hstorage]
  exact Or.inl rfl

/-- It comes to its end. -/
theorem upload_firstProcess (sha256 : Bytes → Hash) (name : Bytes)
    (hconfig : disk.storageConfig = none)
    (hnone : disk.fp2ChunkDB (generateHash sha256 [x, y]).toList = none) :
    ∃ disk', upload sha256 zeroMemory configJson name [x, y] disk = .ok disk' := by
  obtain ⟨hroom, _⟩ := configJson_sound.hasRoom chunkerInit_configJson
  obtain ⟨saving, hsave, hstorage⟩ := emitAll_firstProcess hnone
  have hfinish : ∀ disk, ∃ disk', (firstProcess [x, y] disk).finish = .ok disk' :=
    fun _ => ⟨_, rfl⟩
  rw [upload, start_firstProcess hconfig, Run.ok_bind, chunkerInit_configJson, Run.ok_bind,
    Chunker.varSizeChunking_eq hroom (by decide) uploads_two.blocks, chunks_two, hsave, Run.ok_bind,
    hstorage]
  exact hfinish _

end

/-! ## Kept files -/

/-- Whatever processes were killed, each file that was accepted is restored. -/
theorem kept_files_restored {rotations : Nat} (hruns : KilledRuns sha256 kept rotations disk)
    (hchunks : Set.InjOn (generateHash sha256) (contents kept)) (hfew : rotations < nameCount)
    {config : Configure} (hsound : config.Sound) (fresh : Nat → UInt8) (uninit : UInt64)
    (stackOf : Nat → Nat → UInt8) :
    ∀ u ∈ kept, ∃ p, Process.start fresh config.maxContainerSize disk = .ok p ∧
      Ends (Restoring.Step (recvDecode sha256 uninit config u.name disk) stackOf
          config.recvDecodeThreadLimit.toNat)
        (fun s => s.written = u.file ∧
          ∀ t < config.recvDecodeThreadLimit.toNat, s.decoders t = .returned)
        (Restoring.start (recvDecode sha256 uninit config u.name disk) p) := by
  intro u hu
  obtain ⟨n, hn, used, hkeeps⟩ := hruns.keeps hchunks hfew
  obtain ⟨entries, hyields⟩ := hkeeps.yields (hn.trans_lt hfew) hu
  obtain ⟨p, hstart, hp⟩ := hkeeps.serves fresh hsound.container
  have hbatch : i32 config.sendChunkBatchSize ≠ 0 := by
    have hlow := hsound.batch
    omega
  have hone : config.recvDecodeThreadLimit.toNat = 1 := by
    rw [hsound.threads]
    rfl
  refine ⟨p, hstart, (hyields.ends (Or.inl hbatch) hp (hone ▸ Nat.one_pos) (Or.inl hone)).mono
    fun s _ hdone => ⟨?_, hdone.returned⟩⟩
  rw [Restoring.written, hdone.received, List.flatMap_def,
    logicData_restoredChunks hyields.describes, hkeeps.files u hu]

/-- An upload of two bytes is killed before it writes the recipe, and two other bytes are uploaded
by the next process. -/
theorem kept_files_restored_two :
    ∃ left disk, left ∈ (Killable.upload headHash zeroMemory configJson [5] [1, 2] .empty).leaves ∧
      left.fp2ChunkDB (generateHash headHash [1, 2]).toList = some ⟨containerName 0, 0, 2⟩ ∧
      upload headHash zeroMemory configJson [6] [3, 4] left = .ok disk ∧
      ∃ p, Process.start 0 configJson.maxContainerSize disk = .ok p ∧
        Ends (Restoring.Step (recvDecode headHash 0 configJson [6] disk) (fun _ _ => 0) 1)
          (fun s => s.written = [3, 4] ∧ ∀ t < 1, s.decoders t = .returned)
          (Restoring.start (recvDecode headHash 0 configJson [6] disk) p) := by
  have hleft := killed_firstProcess (show Disk.empty.storageConfig = none from rfl)
    (show Disk.empty.fp2ChunkDB (generateHash headHash [1, 2]).toList = none from rfl)
    (show Disk.empty.fileName2metaDB (generateHash headHash [5]).toList = none from rfl)
  have hnone : (Disk.empty.putEntry (generateHash headHash [1, 2]).toList
      ⟨containerName 0, 0, 2⟩).fp2ChunkDB (generateHash headHash [3, 4]).toList = none := by
    rw [Disk.fp2ChunkDB_putEntry, Function.update_of_ne headHash_ne]
    rfl
  have hkilled := KilledRuns.first.killed uploads_two (start_firstProcess rfl) hleft nofun
  rw [chunks_two, rotations_firstProcess] at hkilled
  obtain ⟨disk, hupload⟩ := upload_firstProcess headHash [6] rfl hnone
  have huploaded := hkilled.upload uploads_two (start_firstProcess rfl) hupload
    ⟨rfl, fun data hdata => ?_⟩
  · rw [chunks_two, rotations_firstProcess, List.nil_append] at huploaded
    have hchunks : Set.InjOn (generateHash headHash) (contents [⟨[6], [3, 4], [[3, 4]]⟩]) := by
      refine (Set.subsingleton_singleton (a := ([3, 4] : Bytes))).anti ?_ |>.injOn _
      rintro data ⟨u, hu, hdata⟩
      obtain rfl := List.mem_singleton.mp hu
      exact List.mem_singleton.mp hdata
    obtain ⟨p, hstart, hends⟩ := kept_files_restored huploaded hchunks (by decide)
      configJson_sound 0 0 (fun _ _ => 0) _ (List.mem_singleton_self _)
    exact ⟨_, disk, hleft, Function.update_self .., hupload, p, hstart, hends⟩
  · rw [chunks_two, List.mem_singleton] at hdata
    exact Or.inr (hdata ▸ hnone)

end Dedup
