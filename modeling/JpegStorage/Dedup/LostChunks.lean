import JpegStorage.Dedup.KilledRuns

/-!
# Chunks that are lost

A process that is killed before it writes `.StorageConfig` leaves the entries of the chunks that
it saved, and the chunks are nowhere.  Their places in the open container are free for the next
process, and what that one writes there is what is read for them from then on
(`killed_chunks_overwritten`).

`Loses` is what the killed process leaves, and `Appends` what the next one writes.
-/

namespace Dedup

open Interrupt

variable {sha256 : Bytes → Hash} {n used : Nat} {chunks : List Bytes} {disk disk' disk₀ : Disk}
  {p p' : Process} {memory : Memory}

/-! ## A container that is not closed -/

/-- What `dedupChunk` does when the container stays open. -/
theorem Process.dedupChunk_stays {hash data : Bytes} (hstays : ¬ p.Rotates hash data)
    (hrun : p.dedupChunk hash data = .ok p') :
    p.disk.fp2ChunkDB hash ≠ none ∧ p' = p ∨
      p.disk.fp2ChunkDB hash = none ∧ p.core.currentContainer.used + data.length ≤ bodySize ∧
        p' = ⟨{ p.core with currentContainer := ⟨p.core.currentContainer.used + data.length,
            Buffer.write p.core.currentContainer.body p.core.currentContainer.used data⟩ },
          p.disk.putEntry hash
            ⟨p.core.lastContainerFileName, p.core.currentContainer.used, data.length⟩⟩ := by
  by_cases hnew : p.disk.fp2ChunkDB hash = none
  · have hfits : p.core.Fits data := not_not.mp fun hfull => hstays ⟨hnew, hfull⟩
    rw [Process.dedupChunk, hnew] at hrun
    obtain ⟨⟨p₁, key⟩, hwrite, hrun⟩ := Run.except_bind_eq_ok.mp hrun
    rw [Process.writeContainer, Process.makeRoom, if_pos hfits] at hwrite
    have hplace : p.place data = .ok (p₁, key) := hwrite
    cases hrun
    exact Or.inr ⟨hnew, (Process.place_ok hplace).1, Process.record_ok hplace⟩
  · rw [Process.dedupChunk_known data hnew] at hrun
    cases hrun
    exact Or.inl ⟨hnew, rfl⟩

/-- It is killed before the entry is there. -/
theorem Killable.dedupChunk_leaves {hash data : Bytes} (hstays : ¬ p.Rotates hash data) :
    ∀ disk ∈ (Killable.dedupChunk hash data p).leaves, disk = p.disk := by
  intro disk hdisk
  rw [Killable.dedupChunk] at hdisk
  cases hnew : p.disk.fp2ChunkDB hash with
  | some key =>
      rw [hnew] at hdisk
      exact absurd hdisk Interruptible.not_mem_leaves_lift
  | none =>
      have hfits : p.core.Fits data := not_not.mp fun hfull => hstays ⟨hnew, hfull⟩
      rw [hnew, Killable.saveChunk, Killable.makeRoom, if_pos hfits] at hdisk
      rw [Interruptible.pure_bind] at hdisk
      rcases hdisk with hdisk | ⟨⟨p₁, key⟩, hplace, rfl⟩
      · exact absurd hdisk Interruptible.not_mem_leaves_lift
      · obtain ⟨_, rfl, _⟩ := Process.place_ok hplace
        rfl

/-! ## What a killed process leaves -/

/-- The entries that a process has added are behind what was used when it started. -/
structure Process.Loses (sha256 : Bytes → Hash) (disk₀ : Disk) (n used : Nat)
    (chunks : List Bytes) (p : Process) : Prop where
  /-- The open container is the same. -/
  name : p.core.lastContainerFileName = containerName n
  /-- More of it is used. -/
  le : used ≤ p.core.currentContainer.used
  /-- `.StorageConfig`. -/
  config : p.disk.storageConfig = disk₀.storageConfig
  /-- The files. -/
  files : p.disk.containers = disk₀.containers
  /-- The entries. -/
  lost : ∀ hash key, disk₀.fp2ChunkDB hash = none → p.disk.fp2ChunkDB hash = some key →
    ∃ data ∈ chunks, ∃ off, hash = (generateHash sha256 data).toList ∧
      key = ⟨containerName n, used + off, data.length⟩ ∧
        used + off + data.length ≤ p.core.currentContainer.used

/-- The new entries on a disk whose `.StorageConfig` is still the old one. -/
def Disk.Loses (sha256 : Bytes → Hash) (disk₀ : Disk) (n used : Nat) (chunks : List Bytes)
    (disk : Disk) : Prop :=
  disk.storageConfig = disk₀.storageConfig →
    ∀ hash key, disk₀.fp2ChunkDB hash = none → disk.fp2ChunkDB hash = some key →
      disk.containers = disk₀.containers ∧ ∃ data ∈ chunks, ∃ off,
        hash = (generateHash sha256 data).toList ∧
          key = ⟨containerName n, used + off, data.length⟩

theorem Process.Loses.left (h : p.Loses sha256 disk₀ n used chunks)
    (hsame : p.disk.SameStore disk) : Disk.Loses sha256 disk₀ n used chunks disk := by
  intro _ hash key hnone hentry
  rw [hsame.entries] at hentry
  obtain ⟨data, hdata, off, hhash, hkey, _⟩ := h.lost hash key hnone hentry
  exact ⟨hsame.containers.trans h.files, data, hdata, off, hhash, hkey⟩

/-- The chunker is at a chunk. -/
theorem Process.Loses.dedupChunk (h : p.Loses sha256 disk₀ n used chunks) {data : Bytes}
    (hdata : data ∈ chunks) (hstays : ¬ p.Rotates (generateHash sha256 data).toList data) :
    (Killable.dedupChunk (generateHash sha256 data).toList data p).Safe
      (Process.Loses sha256 disk₀ n used chunks) (Disk.Loses sha256 disk₀ n used chunks) := by
  constructor
  · intro p' hrun
    rw [Killable.dedupChunk_result] at hrun
    rcases Process.dedupChunk_stays hstays hrun with ⟨_, rfl⟩ | ⟨_, _, rfl⟩
    · exact h
    · refine ⟨h.name, Nat.le_add_right_of_le h.le, h.config, h.files,
        fun hash key hnone hentry => ?_⟩
      rw [Disk.fp2ChunkDB_putEntry] at hentry
      by_cases heq : hash = (generateHash sha256 data).toList
      · rw [heq, Function.update_self] at hentry
        have hoff := Nat.add_sub_cancel' h.le
        refine ⟨data, hdata, p.core.currentContainer.used - used, heq, ?_, ?_⟩
        · rw [hoff, ← h.name, ← Option.some.inj hentry]
        · rw [hoff]
      · rw [Function.update_of_ne heq] at hentry
        obtain ⟨d, hd, off, hhash, hkey, hle⟩ := h.lost hash key hnone hentry
        exact ⟨d, hd, off, hhash, hkey, Nat.le_add_right_of_le hle⟩
  · intro disk hdisk
    rw [Killable.dedupChunk_leaves hstays disk hdisk]
    exact h.left ⟨rfl, rfl, rfl⟩

/-- The destructor. -/
theorem Process.Loses.finish (h : p.Loses sha256 disk₀ n used chunks)
    (hopens : disk₀.Opens n used) (hbytes : ∀ data ∈ chunks, 1 ≤ data.length) :
    ∀ disk ∈ (Killable.finish p).leaves, Disk.Loses sha256 disk₀ n used chunks disk := by
  have hlate : ∀ disk : Disk, disk.fp2ChunkDB = p.disk.fp2ChunkDB →
      disk.storageConfig = some (p.core.lastContainerFileName, p.core.currentContainer.used) →
        Disk.Loses sha256 disk₀ n used chunks disk := by
    intro disk hentries hconfig hsame hash key hnone hentry
    rw [hentries] at hentry
    obtain ⟨data, hdata, off, _, _, hle⟩ := h.lost hash key hnone hentry
    rw [hconfig] at hsame
    rcases hopens.config with ⟨hfirst, _⟩ | hsome
    · rw [hfirst] at hsame
      cases hsame
    · obtain ⟨_, hused⟩ := Prod.mk.inj (Option.some.inj (hsame.trans hsome))
      have hlow := hbytes data hdata
      omega
  rintro disk (hdisk | ⟨disk₁, hput, hdisk⟩)
  · obtain rfl := Set.mem_singleton_iff.mp hdisk
    exact h.left ⟨rfl, rfl, rfl⟩
  · cases hput
    rcases hdisk with (rfl | ⟨bytes, cut, _, _, rfl⟩) | ⟨_, _, hdisk⟩
    · exact hlate _ rfl rfl
    · exact hlate _ rfl rfl
    · exact absurd hdisk Interruptible.not_mem_leaves_lift

/-- The chunker has the chunks in `rest` before it. -/
structure Saving.Loses (sha256 : Bytes → Hash) (disk₀ : Disk) (n used : Nat)
    (chunks rest : List Bytes) (saving : Saving) : Prop where
  /-- The store. -/
  loses : saving.storage.Loses sha256 disk₀ n used chunks
  /-- What is left is of the file. -/
  left : ∀ data ∈ rest, data ∈ chunks
  /-- It has room in the open container. -/
  stays : saving.storage.rotations sha256 rest = 0

theorem Process.rotations_cons_eq_zero {data : Bytes} {rest : List Bytes}
    (h : p.rotations sha256 (data :: rest) = 0) :
    ¬ p.Rotates (generateHash sha256 data).toList data ∧
      ∀ p', p.dedupChunk (generateHash sha256 data).toList data = .ok p' →
        p'.rotations sha256 rest = 0 := by
  rw [Process.rotations] at h
  constructor
  · intro hrotates
    rw [if_pos hrotates] at h
    omega
  · intro p' hrun
    rw [hrun] at h
    exact (Nat.add_eq_zero_iff.mp h).2

/-- All chunks are cut off. -/
theorem Saving.Loses.emitAll (hmemory : memory.Terminated)
    (hsizes : ∀ data ∈ chunks, data.length ≤ maxChunkSize) {saving : Saving}
    (h : saving.Loses sha256 disk₀ n used chunks chunks) :
    (Killable.emitAll sha256 memory chunks saving).Safe
      (fun saving' => saving'.storage.Loses sha256 disk₀ n used chunks)
      (Disk.Loses sha256 disk₀ n used chunks) := by
  have hsafe : (Killable.emitAll sha256 memory chunks saving).Safe
      (Saving.Loses sha256 disk₀ n used chunks []) (Disk.Loses sha256 disk₀ n used chunks) := by
    refine Interruptible.Safe.fold (I := Saving.Loses sha256 disk₀ n used chunks)
      (fun data rest saving hsaving => ?_) h
    have hdata := hsaving.left data (List.mem_cons_self ..)
    obtain ⟨hstays, hrest⟩ := Process.rotations_cons_eq_zero hsaving.stays
    rw [Killable.emit_eq hmemory (hsizes data hdata)]
    refine (hsaving.loses.dedupChunk hdata hstays).result.bind fun p' hp' =>
      Interruptible.Safe.pure ?_
    obtain ⟨hrun, hloses⟩ := hp'
    rw [Killable.dedupChunk_result] at hrun
    exact ⟨hloses, fun d hd => hsaving.left d (List.mem_cons_of_mem _ hd), hrest p' hrun⟩
  exact hsafe.mono (fun _ hdone => hdone.loses) fun _ => id

/-- A process starts with what `.StorageConfig` says. -/
theorem Process.start_opens {fresh : Nat → UInt8} {maxContainerSize : Nat}
    (hopens : disk.Opens n used) (hstart : Process.start fresh maxContainerSize disk = .ok p) :
    p.core.lastContainerFileName = containerName n ∧ p.core.currentContainer.used = used ∧
      p.core.maxContainerSize = maxContainerSize ∧ p.disk = disk := by
  rw [Process.start] at hstart
  rcases hopens.config with ⟨hnone, rfl, rfl⟩ | hsome
  · rw [hnone] at hstart
    cases hstart
    exact ⟨rfl, rfl, rfl, rfl⟩
  · rw [hsome] at hstart
    dsimp only at hstart
    split at hstart
    · cases hstart
      exact ⟨rfl, rfl, rfl, rfl⟩
    · obtain ⟨container, hcopy, hstart⟩ := Run.except_bind_eq_ok.mp hstart
      rw [Container.memcpy] at hcopy
      split at hcopy
      · cases hcopy
        cases hstart
        exact ⟨rfl, rfl, rfl, rfl⟩
      · cases hcopy

/-- Wherever an upload is killed whose chunks fit into the open container. -/
theorem Disk.Opens.killed {config : Configure} {chunker : Chunker} {file : Bytes}
    (hopens : disk.Opens n used) (huploads : Uploads config chunker memory file) (name : Bytes)
    (hstart : Process.start memory.body config.maxContainerSize disk = .ok p)
    (hstays : p.rotations sha256 (chunker.chunks memory.winFp file) = 0) :
    ∀ left ∈ (Killable.upload sha256 memory config name file disk).leaves,
      Disk.Loses sha256 disk n used (chunker.chunks memory.winFp file) left := by
  obtain ⟨hroom, hmax⟩ := huploads.sound.hasRoom huploads.init
  have hsizes : ∀ data ∈ chunker.chunks memory.winFp file, data.length ≤ maxChunkSize :=
    fun data hdata => (Chunker.chunks_sizes hroom hdata).2.trans hmax
  obtain ⟨hname, hused, _, hdisk⟩ := Process.start_opens hopens hstart
  have hloses : p.Loses sha256 disk n used (chunker.chunks memory.winFp file) := by
    refine ⟨hname, hused.ge, by rw [hdisk], by rw [hdisk], fun hash key hnone hentry => ?_⟩
    rw [hdisk, hnone] at hentry
    cases hentry
  have hstored : (Killable.varSizeChunking sha256 memory chunker (generateHash sha256 name) file
      p).Safe (Process.Loses sha256 disk n used (chunker.chunks memory.winFp file))
        (Disk.Loses sha256 disk n used (chunker.chunks memory.winFp file)) := by
    refine Killable.varSizeChunking_safe hroom huploads.blocks (hloses.left ⟨rfl, rfl, rfl⟩) ?_
    have hsaving : Saving.Loses sha256 disk n used (chunker.chunks memory.winFp file)
        (chunker.chunks memory.winFp file) ⟨0, [], p⟩ := ⟨hloses, fun _ => id, hstays⟩
    refine (hsaving.emitAll huploads.terminated hsizes).bind fun saving hdone => ?_
    refine (Killable.checkRecipeStatus_sameStore.mono (fun _ => id) fun _ => hdone.left).bind
      fun disk' hsame => Interruptible.Safe.pure ?_
    exact ⟨hdone.name, hdone.le, hsame.config.trans hdone.config,
      hsame.containers.trans hdone.files, hsame.entries ▸ hdone.lost⟩
  have hbytes : ∀ data ∈ chunker.chunks memory.winFp file, 1 ≤ data.length :=
    fun data hdata => (Chunker.chunks_sizes hroom hdata).1
  have hsafe : (Killable.upload sha256 memory config name file disk).Safe (fun _ => True)
      (Disk.Loses sha256 disk n used (chunker.chunks memory.winFp file)) :=
    Killable.upload_safe huploads.init hstart hstored fun p' hp' =>
      ⟨fun _ _ => trivial, hp'.finish hopens hbytes⟩
  exact hsafe.leaves

/-! ## What the next process writes -/

/-- The bytes of the chunks that the database does not know. -/
def Process.written (sha256 : Bytes → Hash) : List Bytes → Process → Bytes
  | [], _ => []
  | data :: chunks, p =>
      let hash := (generateHash sha256 data).toList
      (if p.disk.fp2ChunkDB hash = none then data else []) ++
        match p.dedupChunk hash data with
        | .ok p => p.written sha256 chunks
        | .error _ => []

/-- A process has put the bytes behind what was used of the open container. -/
structure Process.Appends (bytes : Bytes) (p p' : Process) : Prop where
  /-- The open container is the same. -/
  name : p'.core.lastContainerFileName = p.core.lastContainerFileName
  /-- `maxContainerSize_` stays. -/
  maxSize : p'.core.maxContainerSize = p.core.maxContainerSize
  /-- What is used of it. -/
  body : Buffer.read p'.core.currentContainer.body 0 p'.core.currentContainer.used =
    Buffer.read p.core.currentContainer.body 0 p.core.currentContainer.used ++ bytes
  /-- It has room for that. -/
  room : p.core.currentContainer.used ≤ bodySize → p'.core.currentContainer.used ≤ bodySize
  /-- The files. -/
  files : p'.disk.containers = p.disk.containers
  /-- The entries that were there. -/
  entries : ∀ hash key, p.disk.fp2ChunkDB hash = some key → p'.disk.fp2ChunkDB hash = some key

theorem Process.Appends.refl (p : Process) : Process.Appends [] p p :=
  ⟨rfl, rfl, (List.append_nil _).symm, id, rfl, fun _ _ => id⟩

theorem Process.Appends.trans {bytes bytes' : Bytes} {p'' : Process}
    (h : Process.Appends bytes p p') (h' : Process.Appends bytes' p' p'') :
    Process.Appends (bytes ++ bytes') p p'' where
  name := h'.name.trans h.name
  maxSize := h'.maxSize.trans h.maxSize
  body := by rw [h'.body, h.body, List.append_assoc]
  room := h'.room ∘ h.room
  files := h'.files.trans h.files
  entries := fun hash key hentry => h'.entries hash key (h.entries hash key hentry)

/-- A chunk that is new goes behind the others. -/
theorem Process.dedupChunk_appends {hash data : Bytes} (hstays : ¬ p.Rotates hash data)
    (hrun : p.dedupChunk hash data = .ok p') :
    Process.Appends (if p.disk.fp2ChunkDB hash = none then data else []) p p' := by
  rcases Process.dedupChunk_stays hstays hrun with ⟨hknown, rfl⟩ | ⟨hnew, hroom, rfl⟩
  · rw [if_neg hknown]
    exact Process.Appends.refl _
  · rw [if_pos hnew]
    constructor
    case name => rfl
    case maxSize => rfl
    case body =>
      have hread := Buffer.read_write_append p.core.currentContainer.body 0
        p.core.currentContainer.used data
      rwa [Nat.zero_add] at hread
    case room => exact fun _ => hroom
    case files => rfl
    case entries =>
      intro hash' key hentry
      rw [Disk.fp2ChunkDB_putEntry, Function.update_of_ne, hentry]
      rintro rfl
      rw [hnew] at hentry
      cases hentry

/-- A chunk that is cut off goes to the store. -/
theorem Saving.emit_dedupChunk (hmemory : memory.Terminated) {data : Bytes}
    {saving saving' : Saving} (hrun : saving.emit sha256 memory data = .ok saving') :
    saving.storage.dedupChunk (generateHash sha256 data).toList data = .ok saving'.storage := by
  have hsize : data.length ≤ maxChunkSize := by
    by_contra hlong
    rw [Saving.emit, if_pos (Nat.lt_of_not_le hlong)] at hrun
    cases hrun
  rw [Saving.emit_eq hmemory hsize] at hrun
  obtain ⟨storage, hdedup, hrun⟩ := Run.except_bind_eq_ok.mp hrun
  cases hrun
  exact hdedup

/-- Chunks that fit go behind the others. -/
theorem Saving.emitAll_appends (hmemory : memory.Terminated) {saving saving' : Saving}
    (hrun : saving.emitAll sha256 memory chunks = .ok saving')
    (hstays : saving.storage.rotations sha256 chunks = 0) :
    Process.Appends (saving.storage.written sha256 chunks) saving.storage saving'.storage := by
  induction chunks generalizing saving with
  | nil =>
      cases hrun
      exact Process.Appends.refl _
  | cons data chunks ih =>
      obtain ⟨saving₁, hemit, hrest⟩ := Run.except_bind_eq_ok.mp hrun
      have hdedup := Saving.emit_dedupChunk hmemory hemit
      obtain ⟨hfits, hstays⟩ := Process.rotations_cons_eq_zero hstays
      rw [Process.written, hdedup]
      exact (Process.dedupChunk_appends hfits hdedup).trans (ih hrest (hstays _ hdedup))

/-- An entry that points behind what was used has a part of the bytes now. -/
theorem Process.Appends.carries {bytes : Bytes} (h : Process.Appends bytes p p')
    (hname : p.core.lastContainerFileName = containerName n)
    (hused : p.core.currentContainer.used ≤ bodySize) (hmax : p.core.maxContainerSize ≤ 2 ^ 24)
    (hfits : ∀ name bytes, p.disk.containers name = some bytes → bytes.length ≤ bodySize)
    {data : Bytes} {off : Nat} (hcover : off + data.length ≤ bytes.length)
    (hentry : p.disk.fp2ChunkDB (generateHash sha256 data).toList =
      some ⟨containerName n, p.core.currentContainer.used + off, data.length⟩) :
    p'.Carries (fun _ => sha256 data) {(bytes.drop off).take data.length} n := by
  refine ⟨h.name.trans hname, h.room hused, h.maxSize.trans_le hmax, h.files ▸ hfits, ?_⟩
  rintro slice rfl
  have hlength : ((bytes.drop off).take data.length).length = data.length := by
    rw [List.length_take, List.length_drop]
    omega
  have hend : p'.core.currentContainer.used = p.core.currentContainer.used + bytes.length := by
    have hread := congrArg List.length h.body
    rwa [List.length_append, Buffer.length_read, Buffer.length_read] at hread
  have hle : p.core.currentContainer.used + off + data.length ≤ p'.core.currentContainer.used := by
    omega
  rw [hlength]
  refine ⟨n, p.core.currentContainer.used + off, h.entries _ _ hentry, Or.inr ⟨rfl, ?_, ?_⟩⟩
  · rw [hlength]
    exact hle
  · rw [hlength, ← Nat.zero_add (_ + off), ← Buffer.read_slice _ hle, h.body, ← List.drop_drop,
      List.drop_left' (Buffer.length_read ..)]

/-! ## Rotations -/

section
variable {sha : Bytes → Hash} {K : Set Bytes}

/-- A process keeps the chunks, whatever is saved. -/
theorem Process.Carries.dedupChunk (h : p.Carries sha K n) {hash data : Bytes}
    (hn : n + (if p.Rotates hash data then 1 else 0) < nameCount)
    (hrun : p.dedupChunk hash data = .ok p') :
    p'.Carries sha K (n + if p.Rotates hash data then 1 else 0) := by
  by_cases hnew : p.disk.fp2ChunkDB hash = none
  · rw [Process.dedupChunk, hnew] at hrun
    obtain ⟨⟨p₂, key⟩, hwrite, hrun⟩ := Run.except_bind_eq_ok.mp hrun
    obtain ⟨p₁, hroom, hplace⟩ := Run.except_bind_eq_ok.mp hwrite
    cases hrun
    have hsame := Process.makeRoom_entries hroom
    have hcarries : p₁.Carries sha K (n + if p.Rotates hash data then 1 else 0) := by
      rw [Process.makeRoom] at hroom
      by_cases hfits : p.core.Fits data
      · rw [if_pos hfits] at hroom
        cases hroom
        rwa [if_neg fun hrot => hrot.2 hfits]
      · rw [if_neg hfits] at hroom
        rw [if_pos ⟨hnew, hfits⟩]
        exact (h.rotate ((Nat.le_add_right ..).trans_lt hn) hroom).1
    exact (hcarries.record (hsame ▸ hnew) hplace).1.mono Set.subset_union_left
  · rw [Process.dedupChunk_known data hnew] at hrun
    cases hrun
    rwa [if_neg fun hrot => hnew hrot.1]

theorem Saving.emitAll_carries (hmemory : memory.Terminated) {saving saving' : Saving}
    (h : saving.storage.Carries sha K n)
    (hfew : n + saving.storage.rotations sha256 chunks < nameCount)
    (hrun : saving.emitAll sha256 memory chunks = .ok saving') :
    saving'.storage.Carries sha K (n + saving.storage.rotations sha256 chunks) := by
  induction chunks generalizing saving n with
  | nil =>
      cases hrun
      exact h
  | cons data chunks ih =>
      obtain ⟨saving₁, hemit, hrest⟩ := Run.except_bind_eq_ok.mp hrun
      have hdedup := Saving.emit_dedupChunk hmemory hemit
      rw [Process.rotations, hdedup] at hfew ⊢
      dsimp only at hfew ⊢
      rw [← Nat.add_assoc] at hfew ⊢
      exact ih (h.dedupChunk ((Nat.le_add_right ..).trans_lt hfew) hdedup) hfew hrest

end

theorem Saving.rotations_append (hmemory : memory.Terminated) {saving saving' : Saving}
    (hrun : saving.emitAll sha256 memory chunks = .ok saving') (more : List Bytes) :
    saving.storage.rotations sha256 (chunks ++ more) =
      saving.storage.rotations sha256 chunks + saving'.storage.rotations sha256 more := by
  induction chunks generalizing saving with
  | nil =>
      cases hrun
      exact (Nat.zero_add _).symm
  | cons data chunks ih =>
      obtain ⟨saving₁, hemit, hrest⟩ := Run.except_bind_eq_ok.mp hrun
      have hdedup := Saving.emit_dedupChunk hmemory hemit
      rw [List.cons_append, Process.rotations, Process.rotations, hdedup]
      dsimp only
      rw [ih hrest, Nat.add_assoc]

/-! ## What is restored -/

/-- What the disk holds under an entry, when the next upload has come to its end. -/
theorem Disk.Opens.overwritten {config : Configure} {chunker : Chunker} {file : Bytes}
    {later more : List Bytes} (hopens : disk.Opens n used)
    (hfits : ∀ name bytes, disk.containers name = some bytes → bytes.length ≤ bodySize)
    (huploads : Uploads config chunker memory file) (name : Bytes)
    (hstart : Process.start memory.body config.maxContainerSize disk = .ok p)
    (hchunks : chunker.chunks memory.winFp file = later ++ more)
    (hstays : p.rotations sha256 later = 0)
    (hfew : n + p.rotations sha256 (later ++ more) < nameCount)
    (hupload : upload sha256 memory config name file disk = .ok disk') {data : Bytes} {off : Nat}
    (hentry : disk.fp2ChunkDB (generateHash sha256 data).toList =
      some ⟨containerName n, used + off, data.length⟩)
    (hcover : off + data.length ≤ (p.written sha256 later).length) :
    ∃ n' < nameCount, ∃ used', disk'.Opens n' used' ∧ disk'.Stores (fun _ => sha256 data)
      {((p.written sha256 later).drop off).take data.length} n' used' := by
  obtain ⟨hroom, _⟩ := huploads.sound.hasRoom huploads.init
  obtain ⟨hname, hused, hmax, hdisk⟩ := Process.start_opens hopens hstart
  have hread := readSize_pos huploads.init hupload
  obtain ⟨p₁, hstart₁, hupload⟩ := Run.except_bind_eq_ok.mp hupload
  cases hstart.symm.trans hstart₁
  obtain ⟨chunker₁, hinit, hupload⟩ := Run.except_bind_eq_ok.mp hupload
  cases huploads.init.symm.trans hinit
  obtain ⟨p₂, hchunking, hfinish⟩ := Run.except_bind_eq_ok.mp hupload
  rw [Chunker.varSizeChunking_eq hroom hread huploads.blocks, hchunks] at hchunking
  obtain ⟨saving', hsave, hchunking⟩ := Run.except_bind_eq_ok.mp hchunking
  cases hchunking
  rw [Saving.emitAll_append] at hsave
  obtain ⟨saving, hlater, hmore⟩ := Run.except_bind_eq_ok.mp hsave
  have happends := Saving.emitAll_appends huploads.terminated hlater hstays
  have hcarries := happends.carries hname (hused.trans_le hopens.room)
    (hmax.trans_le huploads.sound.container) (hdisk ▸ hfits) hcover (by rw [hdisk, hused, hentry])
  have hsplit := Saving.rotations_append huploads.terminated hlater more
  have hfew' : n + saving.storage.rotations sha256 more < nameCount := by
    dsimp only at hsplit
    omega
  have hdone := Saving.emitAll_carries huploads.terminated hcarries hfew' hmore
  exact ⟨_, hfew', ((hdone.of_same (Disk.sameStore_checkRecipeStatus ..)).finish hfew' hfinish).2⟩

/-- What the entries of a recipe get that describe the chunk. -/
theorem Process.Serves.restoreEntry {data slice : Bytes}
    (h : p.Serves (fun _ => sha256 data) {slice} n used disk) (hn : n < nameCount)
    (hlength : slice.length = data.length) {entry : RecipeEntry}
    (hdescribes : entry.Describes sha256 data) :
    ∃ p', p.restoreEntry entry =
      .ok (some ⟨entry.chunkID, slice, entry.chunkHash, entry.chunkKey⟩, p') := by
  obtain ⟨p', hread⟩ := h.reads hn (Set.mem_singleton slice)
  have hhash : p.restoreChunk (generateHash sha256 data).toList = .ok (slice, p') := hread
  refine ⟨p', ?_⟩
  rw [Process.restoreEntry, hdescribes.chunkHash, hhash]
  dsimp only
  rw [if_neg (not_not_intro (by rw [hlength, hdescribes.chunkSize])),
    if_neg (Nat.not_lt.mpr (hlength.trans_le hdescribes.size))]

theorem written_firstProcess {x y : UInt8}
    (hnone : disk.fp2ChunkDB (generateHash sha256 [x, y]).toList = none) :
    (firstProcess [] disk).written sha256 [[x, y]] = [x, y] := by
  have hnew : (firstProcess [] disk).disk.fp2ChunkDB (generateHash sha256 [x, y]).toList = none :=
    hnone
  rw [Process.written, if_pos hnew]
  cases (firstProcess [] disk).dedupChunk (generateHash sha256 [x, y]).toList [x, y] <;> rfl

/-- When an upload is killed before it writes `.StorageConfig`, and the next upload saves the
chunks `later`, what every later process restores for a lost chunk is a part of `later`, if they
reach as far.  The lost chunk is known, so it is not saved again. -/
theorem killed_chunks_overwritten {config config' : Configure} {chunker chunker' : Chunker}
    {memory' : Memory} {name name' file file' : Bytes} {left : Disk} {later more : List Bytes}
    (hopens : disk.Opens n used)
    (hfits : ∀ name bytes, disk.containers name = some bytes → bytes.length ≤ bodySize)
    (huploads : Uploads config chunker memory file)
    (hstart : Process.start memory.body config.maxContainerSize disk = .ok p)
    (hstays : p.rotations sha256 (chunker.chunks memory.winFp file) = 0)
    (hleft : left ∈ (Killable.upload sha256 memory config name file disk).leaves)
    (hconfig : left.storageConfig = disk.storageConfig)
    (huploads' : Uploads config' chunker' memory' file')
    (hstart' : Process.start memory'.body config'.maxContainerSize left = .ok p')
    (hchunks : chunker'.chunks memory'.winFp file' = later ++ more)
    (hstays' : p'.rotations sha256 later = 0)
    (hfew : n + p'.rotations sha256 (later ++ more) < nameCount)
    (hupload : upload sha256 memory' config' name' file' left = .ok disk') :
    ∀ hash key, disk.fp2ChunkDB hash = none → left.fp2ChunkDB hash = some key →
      ∃ data ∈ chunker.chunks memory.winFp file, ∃ off,
        hash = (generateHash sha256 data).toList ∧
        key = ⟨containerName n, used + off, data.length⟩ ∧
        (off + data.length ≤ (p'.written sha256 later).length →
          ∀ (fresh : Nat → UInt8) {reading : Configure}, reading.Sound →
            ∃ p'', Process.start fresh reading.maxContainerSize disk' = .ok p'' ∧
              p''.dedupChunk hash data = .ok p'' ∧
              ∀ (uninit : UInt64) (stackOf : Nat → Nat → UInt8) (name'' : Bytes) (s : Restoring),
                Relation.ReflTransGen (Restoring.Step (recvDecode sha256 uninit reading name'' disk')
                    stackOf reading.recvDecodeThreadLimit.toNat)
                  (Restoring.start (recvDecode sha256 uninit reading name'' disk') p'') s →
                ∀ entry : RecipeEntry, entry.Describes sha256 data →
                  ∃ storage, s.storage.restoreEntry entry = .ok (some ⟨entry.chunkID,
                    ((p'.written sha256 later).drop off).take data.length, entry.chunkHash,
                      entry.chunkKey⟩, storage)) := by
  intro hash key hnone hentry
  obtain ⟨hfiles, data, hdata, off, rfl, rfl⟩ :=
    hopens.killed huploads name hstart hstays left hleft hconfig hash key hnone hentry
  refine ⟨data, hdata, off, rfl, rfl, fun hcover fresh reading hsound => ?_⟩
  have hopens' : left.Opens n used := ⟨by rw [hconfig]; exact hopens.config, hopens.room⟩
  obtain ⟨n', hn', used', hopens'', hstores⟩ := hopens'.overwritten (hfiles ▸ hfits) huploads' name'
    hstart' hchunks hstays' hfew hupload hentry hcover
  obtain ⟨p'', hstart'', hcarries, hdisk, hused, hcache⟩ :=
    hstores.start hopens'' fresh hsound.container
  have hserves : p''.Serves (fun _ => sha256 data)
      {((p'.written sha256 later).drop off).take data.length} n' used' disk' :=
    ⟨hcarries, hdisk, hused, Or.inl hcache⟩
  have hknown : p''.disk.fp2ChunkDB (generateHash sha256 data).toList ≠ none := by
    obtain ⟨i, off', hkey, _⟩ := hcarries.chunks _ (Set.mem_singleton _)
    exact fun hunknown => Option.some_ne_none _ (hkey.symm.trans hunknown)
  have hlength : (((p'.written sha256 later).drop off).take data.length).length = data.length := by
    rw [List.length_take, List.length_drop]
    omega
  refine ⟨p'', hstart'', Process.dedupChunk_known data hknown,
    fun uninit stackOf name'' s hrun entry hdescribes => ?_⟩
  exact (Restoring.steps_kept (Process.kept_serves _) hserves hrun).restoreEntry hn' hlength
    hdescribes

/-- Two bytes are saved by an upload that is killed, and two others by the next one. -/
theorem killed_chunks_overwritten_two :
    ∃ left disk' p,
      left ∈ (Killable.upload headHash zeroMemory configJson [5] [1, 2] .empty).leaves ∧
      upload headHash zeroMemory configJson [6] [3, 4] left = .ok disk' ∧
      Process.start 0 configJson.maxContainerSize disk' = .ok p ∧
      ∀ entry : RecipeEntry, entry.Describes headHash [1, 2] →
        ∃ storage, p.restoreEntry entry =
          .ok (some ⟨entry.chunkID, [3, 4], entry.chunkHash, entry.chunkKey⟩, storage) := by
  have hopens : Disk.empty.Opens 0 0 := ⟨Or.inl ⟨rfl, rfl, rfl⟩, Nat.zero_le _⟩
  have hleft := killed_firstProcess (show Disk.empty.storageConfig = none from rfl)
    (show Disk.empty.fp2ChunkDB (generateHash headHash [1, 2]).toList = none from rfl)
    (show Disk.empty.fileName2metaDB (generateHash headHash [5]).toList = none from rfl)
  have hnone : (Disk.empty.putEntry (generateHash headHash [1, 2]).toList
      ⟨containerName 0, 0, 2⟩).fp2ChunkDB (generateHash headHash [3, 4]).toList = none := by
    rw [Disk.fp2ChunkDB_putEntry, Function.update_of_ne headHash_ne]
    rfl
  obtain ⟨disk', hupload⟩ := upload_firstProcess headHash [6] rfl hnone
  have hstays : (firstProcess [] .empty).rotations headHash
      (chunkerJson.chunks zeroMemory.winFp [1, 2]) = 0 := by
    rw [chunks_two, rotations_firstProcess]
  obtain ⟨data, hdata, off, _, hkey, hover⟩ := killed_chunks_overwritten hopens
    (fun _ _ hfile => nomatch hfile) uploads_two (start_firstProcess rfl) hstays hleft rfl
    uploads_two (start_firstProcess rfl) (chunks_two.trans (List.append_nil _).symm)
    rotations_firstProcess (by rw [List.append_nil, rotations_firstProcess]; decide) hupload
    _ _ rfl (Function.update_self ..)
  rw [chunks_two, List.mem_singleton] at hdata
  subst hdata
  obtain ⟨_, hoff, _⟩ := KeyForChunkHashDB.mk.inj hkey
  rw [Nat.zero_add] at hoff
  subst hoff
  rw [written_firstProcess hnone] at hover
  obtain ⟨p, hstart, _, hreads⟩ := hover (by decide) 0 configJson_sound
  exact ⟨_, disk', p, hleft, hupload, hstart, hreads 0 (fun _ _ => 0) [5] _ .refl⟩

end Dedup
