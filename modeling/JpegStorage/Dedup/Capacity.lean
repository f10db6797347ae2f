import JpegStorage.Dedup.StoredOnce

/-!
# How much can be stored

A container is closed when the next chunk would fill it, so what is missing in a closed one is less
than a chunk.  Processes that close containers of `size` bytes close one for every
`size - maxChunkSize` bytes of different chunks at the most (`SizedRuns.rotations_le`).  The names of
the containers are enough for this many bytes, and every file is restored until then
(`restored_within_capacity`).
-/

namespace Dedup

/-- The bytes in use when a process starts. -/
def Disk.used (disk : Disk) : Nat := (disk.storageConfig.map Prod.snd).getD 0

/-- The chunks in `saved` are known, and they have the bytes of `n` closed containers and of the
open one. -/
structure Disk.Pays (sha256 : Bytes → Hash) (size n used : Nat) (saved : Finset Bytes)
    (disk : Disk) : Prop where
  /-- The entries. -/
  known : ∀ data ∈ saved, disk.fp2ChunkDB (generateHash sha256 data).toList ≠ none
  /-- The bytes. -/
  bytes : n * (size - maxChunkSize) + used ≤ ∑ data ∈ saved, data.length

/-- A process with containers of `size` bytes and more. -/
structure Process.Pays (sha256 : Bytes → Hash) (size n : Nat) (saved : Finset Bytes)
    (p : Process) : Prop where
  /-- `maxContainerSize_`. -/
  limit : size ≤ p.core.maxContainerSize
  /-- The chunks. -/
  pays : p.disk.Pays sha256 size n p.core.currentContainer.used saved

section
variable {sha256 : Bytes → Hash} {size n used : Nat} {saved : Finset Bytes} {p p' : Process}

theorem Disk.Pays.of_entries {disk disk' : Disk} (h : disk.Pays sha256 size n used saved)
    (hsame : disk'.fp2ChunkDB = disk.fp2ChunkDB) : disk'.Pays sha256 size n used saved :=
  ⟨fun data hdata => hsame ▸ h.known data hdata, h.bytes⟩

/-! ## Saving chunks -/

theorem Process.saveTOFile_same (hrun : p.saveTOFile = .ok p') :
    p'.core = p.core ∧ p'.disk.fp2ChunkDB = p.disk.fp2ChunkDB ∧
      p'.disk.storageConfig = p.disk.storageConfig := by
  obtain ⟨bytes, _, hok⟩ := Run.except_bind_eq_ok.mp hrun
  cases hok
  exact ⟨rfl, rfl, rfl⟩

/-- A container that is closed lacks less than the chunk that did not fit. -/
theorem Process.Pays.makeRoom (h : p.Pays sha256 size n saved) {data : Bytes}
    (hsize : data.length ≤ maxChunkSize) (hrun : p.makeRoom data = .ok p') :
    p'.Pays sha256 size (n + if p.core.Fits data then 0 else 1) saved := by
  rw [Process.makeRoom] at hrun
  by_cases hfits : p.core.Fits data
  · rw [if_pos hfits] at hrun
    cases hrun
    rw [if_pos hfits]
    exact h
  · rw [if_neg hfits] at hrun
    rw [if_neg hfits]
    obtain ⟨p₁, hsave, hok⟩ := Run.except_bind_eq_ok.mp hrun
    cases hok
    obtain ⟨hcore, hentries, _⟩ := saveTOFile_same hsave
    have hfull : size ≤ data.length + p.core.currentContainer.used :=
      (h.limit.trans (Nat.not_lt.mp hfits)).trans (Nat.mod_le ..)
    have hbytes := h.pays.bytes
    refine ⟨hcore ▸ h.limit, fun d hd => hentries ▸ h.pays.known d hd, ?_⟩
    rw [Nat.succ_mul]
    dsimp only
    omega

theorem Process.Pays.dedupChunk (h : p.Pays sha256 size n saved) {data : Bytes}
    (hsize : data.length ≤ maxChunkSize)
    (hrun : p.dedupChunk (generateHash sha256 data).toList data = .ok p') :
    ∃ saved' ⊆ insert data saved, p'.Pays sha256 size
      (n + if p.Rotates (generateHash sha256 data).toList data then 1 else 0) saved' := by
  rw [Process.dedupChunk] at hrun
  cases hentry : p.disk.fp2ChunkDB (generateHash sha256 data).toList with
  | some key =>
      rw [hentry] at hrun
      cases hrun
      rw [if_neg fun hrotates => by cases hentry.symm.trans hrotates.1]
      exact ⟨saved, Finset.subset_insert .., h⟩
  | none =>
      rw [hentry] at hrun
      obtain ⟨⟨p₂, key⟩, hwrite, hok⟩ := Run.except_bind_eq_ok.mp hrun
      cases hok
      obtain ⟨p₁, hroom, hplace⟩ := Run.except_bind_eq_ok.mp hwrite
      have hnew : data ∉ saved := fun hdata => h.pays.known data hdata hentry
      have h₁ := h.makeRoom hsize hroom
      have hcount : (if p.core.Fits data then 0 else 1) =
          if p.Rotates (generateHash sha256 data).toList data then 1 else 0 := by
        by_cases hfits : p.core.Fits data
        · rw [if_pos hfits, if_neg fun hrotates => hrotates.2 hfits]
        · rw [if_neg hfits, if_pos ⟨hentry, hfits⟩]
      rw [hcount] at h₁
      obtain ⟨container, hcopy, hplace⟩ := Run.except_bind_eq_ok.mp hplace
      have hused : container.used = p₁.core.currentContainer.used := by
        rw [Container.memcpy] at hcopy
        split at hcopy <;> cases hcopy
        rfl
      split at hplace
      · cases hplace
      · cases hplace
        have hbytes := h₁.pays.bytes
        refine ⟨insert data saved, subset_rfl, h₁.limit, fun d hd => ?_, ?_⟩
        · rw [Process.record, Disk.fp2ChunkDB_putEntry]
          by_cases hsame : (generateHash sha256 d).toList = (generateHash sha256 data).toList
          · rw [hsame, Function.update_self]
            exact Option.some_ne_none _
          · rw [Function.update_of_ne hsame]
            have hd' := (Finset.mem_insert.mp hd).resolve_left fun heq => hsame (heq ▸ rfl)
            exact h₁.pays.known d hd'
        · have hle : u32 (container.used + data.length) ≤ container.used + data.length :=
            Nat.mod_le ..
          rw [Finset.sum_insert hnew, Process.record]
          dsimp only
          omega

theorem Process.Pays.emitAll {memory : Memory} (hmemory : memory.Terminated) {chunks : List Bytes}
    (hsizes : ∀ data ∈ chunks, data.length ≤ maxChunkSize) {saving saving' : Saving}
    (h : saving.storage.Pays sha256 size n saved)
    (hrun : saving.emitAll sha256 memory chunks = .ok saving') :
    ∃ saved' ⊆ saved ∪ chunks.toFinset,
      saving'.storage.Pays sha256 size (n + saving.storage.rotations sha256 chunks) saved' := by
  induction chunks generalizing saving n saved with
  | nil =>
      cases hrun
      exact ⟨saved, Finset.subset_union_left, h⟩
  | cons data chunks ih =>
      have hdata := hsizes data (List.mem_cons_self ..)
      obtain ⟨saving₁, hemit, hrest⟩ := Run.except_bind_eq_ok.mp hrun
      rw [Saving.emit_eq hmemory hdata] at hemit
      obtain ⟨storage, hdedup, hok⟩ := Run.except_bind_eq_ok.mp hemit
      cases hok
      obtain ⟨saved₁, hsub₁, h₁⟩ := h.dedupChunk hdata hdedup
      obtain ⟨saved₂, hsub₂, h₂⟩ := ih (fun d hd => hsizes d (List.mem_cons_of_mem _ hd)) h₁ hrest
      rw [Process.rotations, hdedup, ← Nat.add_assoc]
      refine ⟨saved₂, hsub₂.trans ?_, h₂⟩
      rw [List.toFinset_cons, Finset.union_insert, ← Finset.insert_union]
      exact Finset.union_subset_union_left hsub₁

/-! ## Processes -/

/-- A process starts with the bytes in use that are noted on the disk. -/
theorem Process.start_used {fresh : Nat → UInt8} {maxContainerSize : Nat} {disk : Disk}
    (hstart : Process.start fresh maxContainerSize disk = .ok p) :
    p.disk = disk ∧ p.core.currentContainer.used = disk.used ∧
      p.core.maxContainerSize = maxContainerSize := by
  rw [Process.start] at hstart
  rw [Disk.used]
  cases hconfig : disk.storageConfig with
  | none =>
      rw [hconfig] at hstart
      cases hstart
      exact ⟨rfl, rfl, rfl⟩
  | some config =>
      obtain ⟨name, used⟩ := config
      rw [hconfig] at hstart
      dsimp only at hstart
      cases hfile : disk.containers name with
      | none =>
          rw [hfile] at hstart
          cases hstart
          exact ⟨rfl, rfl, rfl⟩
      | some bytes =>
          rw [hfile] at hstart
          obtain ⟨container, hcopy, hok⟩ := Run.except_bind_eq_ok.mp hstart
          cases hok
          rw [Container.memcpy] at hcopy
          split at hcopy <;> cases hcopy
          exact ⟨rfl, rfl, rfl⟩

/-- The destructor notes them. -/
theorem Process.finish_used {disk : Disk} (hfinish : p.finish = .ok disk) :
    disk.fp2ChunkDB = p.disk.fp2ChunkDB ∧ disk.used = p.core.currentContainer.used := by
  obtain ⟨p₁, hsave, hok⟩ := Run.except_bind_eq_ok.mp hfinish
  cases hok
  obtain ⟨_, hentries, hconfig⟩ := saveTOFile_same hsave
  refine ⟨hentries, ?_⟩
  rw [Disk.used, hconfig]
  rfl

/-- The open container and the disk are those of `p`. -/
def Process.SameStore (p p' : Process) : Prop :=
  p'.core.currentContainer = p.core.currentContainer ∧ p'.disk = p.disk

theorem Process.SameStore.restoreChunk {p₀ : Process} {hash data : Bytes} (h : p₀.SameStore p)
    (hrun : p.restoreChunk hash = .ok (data, p')) : p₀.SameStore p' := by
  rw [Process.restoreChunk] at hrun
  cases hentry : p.disk.fp2ChunkDB hash with
  | none =>
      rw [hentry] at hrun
      cases hrun
  | some key =>
      rw [hentry] at hrun
      dsimp only at hrun
      rw [Process.readContainer] at hrun
      split at hrun
      · obtain ⟨_, _, hok⟩ := Run.except_bind_eq_ok.mp hrun
        cases hok
        exact h
      split at hrun
      · obtain ⟨_, _, hok⟩ := Run.except_bind_eq_ok.mp hrun
        cases hok
        exact h
      · obtain ⟨p₁, hload, hrest⟩ := Run.except_bind_eq_ok.mp hrun
        obtain ⟨_, _, hok⟩ := Run.except_bind_eq_ok.mp hrest
        cases hok
        rw [Process.loadContainer] at hload
        split at hload
        · cases hload
        · obtain ⟨_, _, hok⟩ := Run.except_bind_eq_ok.mp hload
          cases hok
          exact h

theorem Process.SameStore.kept (p : Process) (r : RecvDecode) :
    Kept r (p.disk.recipeFile r.fileNameHash.toList) p.SameStore where
  file := fun p' hp' => by rw [hp'.2]
  stays := fun _ _ _ _ hp' hrun => restoreEntry_stays (fun _ _ _ _ h => h.restoreChunk) hp' hrun

end

/-- The processes of `Runs`, when the containers of each upload have `size` bytes and more. -/
inductive SizedRuns (sha256 : Bytes → Hash) (size : Nat) : List Uploaded → Nat → Disk → Prop where
  | first : SizedRuns sha256 size [] 0 .empty
  | upload {uploads : List Uploaded} {rotations : Nat} {disk disk' : Disk} {config : Configure}
      {chunker : Chunker} {memory : Memory} {name file : Bytes} {p : Process} :
      SizedRuns sha256 size uploads rotations disk → size ≤ config.maxContainerSize →
      Uploads config chunker memory file →
      Process.start memory.body config.maxContainerSize disk = .ok p →
      upload sha256 memory config name file disk = .ok disk' →
      SizedRuns sha256 size (uploads ++ [⟨name, file, chunker.chunks memory.winFp file⟩])
        (rotations + p.rotations sha256 (chunker.chunks memory.winFp file)) disk'
  | restore {uploads : List Uploaded} {rotations : Nat} {disk disk' : Disk} {config : Configure}
      {fresh : Nat → UInt8} {uninit : UInt64} {stackOf : Nat → Nat → UInt8} {name : Bytes}
      {p : Process} {s : Restoring} :
      SizedRuns sha256 size uploads rotations disk → config.Sound →
      Process.start fresh config.maxContainerSize disk = .ok p →
      Relation.ReflTransGen (Restoring.Step (recvDecode sha256 uninit config name disk) stackOf
        config.recvDecodeThreadLimit.toNat)
        (Restoring.start (recvDecode sha256 uninit config name disk) p) s →
      (∀ t < config.recvDecodeThreadLimit.toNat, s.decoders t = .returned) →
      s.received.length = u32 (recvDecode sha256 uninit config name disk).totalChunkNumber →
      s.storage.finish = .ok disk' → SizedRuns sha256 size uploads rotations disk'

section
variable {sha256 : Bytes → Hash} {size : Nat} {uploads : List Uploaded} {rotations : Nat}
  {disk : Disk}

theorem SizedRuns.runs (h : SizedRuns sha256 size uploads rotations disk) :
    Runs sha256 uploads rotations disk := by
  induction h with
  | first => exact .first
  | upload _ _ huploads hstart hrun ih => exact .upload ih huploads hstart hrun
  | restore _ hsound hstart hrun hreturned htotal hfinish ih =>
      exact .restore ih hsound hstart hrun hreturned htotal hfinish

/-- After each process the uploaded chunks pay for the containers. -/
theorem SizedRuns.pays (h : SizedRuns sha256 size uploads rotations disk) :
    ∃ saved ⊆ (uploads.flatMap Uploaded.chunks).toFinset,
      disk.Pays sha256 size rotations disk.used saved := by
  induction h with
  | first =>
      refine ⟨∅, subset_rfl, nofun, ?_⟩
      rw [Nat.zero_mul]
      exact Nat.le_refl 0
  | @upload uploads rotations disk disk' config chunker memory name file p _ hlimit huploads hstart
      hrun ih =>
      obtain ⟨saved, hsub, hpays⟩ := ih
      obtain ⟨hdisk, hused, hmax⟩ := Process.start_used hstart
      obtain ⟨p₁, hstart₁, hrest⟩ := Run.except_bind_eq_ok.mp hrun
      cases hstart.symm.trans hstart₁
      obtain ⟨chunker₁, hinit, hrest⟩ := Run.except_bind_eq_ok.mp hrest
      cases huploads.init.symm.trans hinit
      obtain ⟨p₂, hchunking, hfinish⟩ := Run.except_bind_eq_ok.mp hrest
      obtain ⟨hroom, hchunk⟩ := huploads.sound.hasRoom huploads.init
      rw [Chunker.varSizeChunking_eq hroom (readSize_pos huploads.init hrun) huploads.blocks]
        at hchunking
      obtain ⟨saving, hemit, hok⟩ := Run.except_bind_eq_ok.mp hchunking
      cases hok
      have hopen : (⟨0, [], p⟩ : Saving).storage.Pays sha256 size rotations saved := by
        refine ⟨hmax ▸ hlimit, ?_⟩
        dsimp only
        rw [hused, hdisk]
        exact hpays
      obtain ⟨saved', hsub', hsaved⟩ := hopen.emitAll huploads.terminated
        (fun data hdata => (Chunker.chunks_sizes hroom hdata).2.trans hchunk) hemit
      obtain ⟨hentries, hused'⟩ := Process.finish_used hfinish
      refine ⟨saved', hsub'.trans ?_, ?_⟩
      · rw [List.flatMap_append, List.flatMap_singleton, List.toFinset_append]
        exact Finset.union_subset_union_left hsub
      · rw [hused']
        refine hsaved.pays.of_entries (hentries.trans ?_)
        dsimp only
        rw [Disk.checkRecipeStatus]
        split <;> rfl
  | @restore uploads rotations disk disk' config fresh uninit stackOf name p s _ _ hstart hrun _ _
      hfinish ih =>
      obtain ⟨saved, hsub, hpays⟩ := ih
      obtain ⟨rfl, hused, _⟩ := Process.start_used hstart
      obtain ⟨hsame, hdisk⟩ : p.SameStore s.storage :=
        Restoring.steps_kept (Process.SameStore.kept p _) ⟨rfl, rfl⟩ hrun
      obtain ⟨hentries, hused'⟩ := Process.finish_used hfinish
      refine ⟨saved, hsub, ?_⟩
      rw [hused', hsame, hused]
      exact hpays.of_entries (hentries.trans (by rw [hdisk]))

/-- A container is closed for each `size - maxChunkSize` bytes of different chunks at the most,
whatever the hashes and the names of the containers are. -/
theorem SizedRuns.rotations_le (h : SizedRuns sha256 size uploads rotations disk) :
    rotations * (size - maxChunkSize) ≤
      ∑ data ∈ (uploads.flatMap Uploaded.chunks).toFinset, data.length := by
  obtain ⟨saved, hsub, hpays⟩ := h.pays
  exact ((Nat.le_add_right ..).trans hpays.bytes).trans (Finset.sum_le_sum_of_subset hsub)

/-- Containers are closed nearly full, and as long as the different chunks do not fill `nameCount`
of them every name is restored as it was uploaded first. -/
theorem restored_within_capacity (hruns : SizedRuns sha256 size uploads rotations disk) :
    rotations * (size - maxChunkSize) ≤
        ∑ data ∈ (uploads.flatMap Uploaded.chunks).toFinset, data.length ∧
      (∑ data ∈ (uploads.flatMap Uploaded.chunks).toFinset, data.length <
          nameCount * (size - maxChunkSize) →
        Set.InjOn (generateHash sha256) (contents uploads) →
        Set.InjOn (generateHash sha256) (names uploads) →
        ∀ name u, firstUpload uploads name = some u → ∀ config : Configure, config.Sound →
        ∀ (fresh : Nat → UInt8) (uninit : UInt64) (stackOf : Nat → Nat → UInt8),
          ∃ p, Process.start fresh config.maxContainerSize disk = .ok p ∧
            Ends (Restoring.Step (recvDecode sha256 uninit config name disk) stackOf
                config.recvDecodeThreadLimit.toNat)
              (fun s => s.written = u.file ∧
                (∀ t < config.recvDecodeThreadLimit.toNat, s.decoders t = .returned) ∧
                  ∃ disk', s.storage.finish = .ok disk')
              (Restoring.start (recvDecode sha256 uninit config name disk) p)) := by
  refine ⟨hruns.rotations_le, fun hcapacity hchunks hnames name u hfirst config hsound => ?_⟩
  have hfew : rotations < nameCount :=
    Nat.lt_of_mul_lt_mul_right (hruns.rotations_le.trans_lt hcapacity)
  obtain ⟨P, hlibrary⟩ := hruns.runs.library hchunks hnames hfew
  exact hlibrary.restores hfew hfirst hsound

end

/-- The two chunks of the file `abc` are within the capacity of containers of eight megabytes. -/
theorem restored_within_capacity_abc :
    ∃ rotations disk p,
      SizedRuns headHash 8388608 [⟨[97], [97, 98, 99], [[97, 98], [99]]⟩] rotations disk ∧
      rotations * (8388608 - maxChunkSize) ≤ 3 ∧
      Process.start 0 evenConfigure.maxContainerSize disk = .ok p ∧
        Ends (Restoring.Step (recvDecode headHash 0 evenConfigure [97] disk) (fun _ _ => 0) 1)
          (fun s => s.written = [97, 98, 99] ∧ (∀ t < 1, s.decoders t = .returned) ∧
            ∃ disk', s.storage.finish = .ok disk')
          (Restoring.start (recvDecode headHash 0 evenConfigure [97] disk) p) := by
  obtain ⟨p₀, disk, P, hstart₀, _, hupload, _⟩ := upload_abcInTwo
  have hruns : SizedRuns headHash 8388608 _ _ disk :=
    .upload .first (by decide) uploads_abcInTwo hstart₀ hupload
  rw [chunks_abcInTwo, Nat.zero_add, List.nil_append] at hruns
  obtain ⟨hle, hrestored⟩ := restored_within_capacity hruns
  obtain ⟨p, hstart, hends⟩ := hrestored (by decide) injOn_contents_abcInTwo injOn_names_abcInTwo
    [97] abcInTwo rfl evenConfigure evenConfigure_sound 0 0 fun _ _ => 0
  exact ⟨_, disk, p, hruns, hle, hstart, hends⟩

end Dedup
