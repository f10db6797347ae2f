import JpegStorage.Dedup.ContainerStore
import JpegStorage.Dedup.KilledProcess

/-!
# Chunks that survive a kill

When a process is killed its entries are in the database, and the open container is lost.
So the database may know chunks that are nowhere.  `Stores` is about the other
ones, a set of chunks that are where their entries say: in the file of a container that was
closed, or in the part of the open container that `.StorageConfig` knows.

`Carries` is the same about a process.  A process keeps what it carries and adds what it saves
(`Carries.record`), and wherever it is killed the chunks that were there when it
started still are (`dedupChunk_safe`), if the file of the open container is not cut off.
-/

namespace Dedup

open Interrupt

variable {sha256 : Bytes → Hash} {K : Set Bytes} {n used : Nat} {disk : Disk}

/-! ## Chunks on a disk -/

/-- The bytes are in the file. -/
def Disk.FileHas (name : Name) (off : Nat) (data : Bytes) (disk : Disk) : Prop :=
  ∃ bytes, disk.containers name = some bytes ∧ Buffer.Slice bytes off data

/-- The chunks are in containers up to number `n`, of which `used` bytes are used. -/
structure Disk.Stores (sha256 : Bytes → Hash) (K : Set Bytes) (n used : Nat) (disk : Disk) :
    Prop where
  /-- No file is larger than a body. -/
  fits : ∀ name bytes, disk.containers name = some bytes → bytes.length ≤ bodySize
  /-- The chunks. -/
  chunks : ∀ data ∈ K, ∃ i off, i ≤ n ∧
    disk.fp2ChunkDB (generateHash sha256 data).toList =
      some ⟨containerName i, off, data.length⟩ ∧
    disk.FileHas (containerName i) off data ∧ (i = n → off + data.length ≤ used)

/-- `.StorageConfig` names container `n`, or it is not there yet. -/
structure Disk.Opens (n used : Nat) (disk : Disk) : Prop where
  /-- What it says. -/
  config : disk.storageConfig = none ∧ n = 0 ∧ used = 0 ∨
    disk.storageConfig = some (containerName n, used)
  /-- A container has room for what is used. -/
  room : used ≤ bodySize

/-- The file of the container that was open has still as much of it as there was. -/
def Disk.Uncut (disk disk' : Disk) : Prop :=
  ∀ name used bytes bytes', disk.storageConfig = some (name, used) →
    disk.containers name = some bytes → disk'.containers name = some bytes' →
      min used bytes.length ≤ bytes'.length

theorem Disk.FileHas.putContainer {name name' : Name} {off : Nat} {data : Bytes}
    (h : disk.FileHas name off data) (hne : name ≠ name') (bytes : Bytes) :
    (disk.putContainer name' bytes).FileHas name off data := by
  rw [FileHas, Disk.containers_putContainer, Function.update_of_ne hne]
  exact h

theorem Disk.Stores.of_same {disk' : Disk} (h : disk.Stores sha256 K n used)
    (hentries : disk'.fp2ChunkDB = disk.fp2ChunkDB) (hfiles : disk'.containers = disk.containers) :
    disk'.Stores sha256 K n used := by
  refine ⟨fun name bytes hfile => h.fits name bytes (hfiles ▸ hfile), fun data hdata => ?_⟩
  rw [hentries]
  obtain ⟨i, off, hi, hentry, ⟨bytes, hfile, hslice⟩, hused⟩ := h.chunks data hdata
  exact ⟨i, off, hi, hentry, ⟨bytes, hfiles ▸ hfile, hslice⟩, hused⟩

theorem Disk.Stores.subset {K' : Set Bytes} (h : disk.Stores sha256 K n used) (hsub : K' ⊆ K) :
    disk.Stores sha256 K' n used :=
  ⟨h.fits, fun data hdata => h.chunks data (hsub hdata)⟩

/-- Later containers may be there. -/
theorem Disk.Stores.mono {n' used' : Nat} (h : disk.Stores sha256 K n used) (hn : n ≤ n')
    (hused : n' = n → used ≤ used') : disk.Stores sha256 K n' used' := by
  refine ⟨h.fits, fun data hdata => ?_⟩
  obtain ⟨i, off, hi, hentry, hfile, hle⟩ := h.chunks data hdata
  refine ⟨i, off, hi.trans hn, hentry, hfile, fun heq => ?_⟩
  have hin : i = n := by omega
  exact (hle hin).trans (hused (heq ▸ hin))

/-! ## Chunks of a process -/

/-- The chunk is in a closed container, or in the open one. -/
def Process.HasAt (p : Process) (n i off : Nat) (data : Bytes) : Prop :=
  i < n ∧ p.disk.FileHas (containerName i) off data ∨
    i = n ∧ off + data.length ≤ p.core.currentContainer.used ∧
      Buffer.read p.core.currentContainer.body off data.length = data

/-- A process with the chunks, whose open container has number `n`. -/
structure Process.Carries (sha256 : Bytes → Hash) (K : Set Bytes) (n : Nat) (p : Process) :
    Prop where
  /-- The open container. -/
  name : p.core.lastContainerFileName = containerName n
  /-- It has room for what is used. -/
  used : p.core.currentContainer.used ≤ bodySize
  /-- A container has room for `maxContainerSize_` bytes. -/
  maxSize : p.core.maxContainerSize ≤ 2 ^ 24
  /-- No file is larger than a body. -/
  fits : ∀ name bytes, p.disk.containers name = some bytes → bytes.length ≤ bodySize
  /-- The chunks. -/
  chunks : ∀ data ∈ K, ∃ i off,
    p.disk.fp2ChunkDB (generateHash sha256 data).toList =
      some ⟨containerName i, off, data.length⟩ ∧ p.HasAt n i off data

variable {p p' : Process}

theorem Process.Carries.mono {K' : Set Bytes} (h : p.Carries sha256 K n) (hsub : K' ⊆ K) :
    p.Carries sha256 K' n :=
  ⟨h.name, h.used, h.maxSize, h.fits, fun data hdata => h.chunks data (hsub hdata)⟩

theorem Process.HasAt.le {i off : Nat} {data : Bytes} (h : p.HasAt n i off data) : i ≤ n :=
  h.elim (fun hclosed => hclosed.1.le) fun hopen => hopen.1.le

/-- A process starts with the chunks of the disk. -/
theorem Disk.Stores.start (h : disk.Stores sha256 K n used) (hopens : disk.Opens n used)
    (fresh : Nat → UInt8) {maxContainerSize : Nat} (hmax : maxContainerSize ≤ 2 ^ 24) :
    ∃ p, Process.start fresh maxContainerSize disk = .ok p ∧ p.Carries sha256 K n ∧
      p.disk = disk ∧ p.core.currentContainer.used = used ∧
        p.core.currentReadContainerFileName = [] := by
  rw [Process.start]
  rcases hopens.config with ⟨hnone, rfl, rfl⟩ | hsome
  · rw [hnone]
    refine ⟨_, rfl, ⟨rfl, hopens.room, hmax, h.fits, fun data hdata => ?_⟩, rfl, rfl, rfl⟩
    obtain ⟨i, off, hi, hentry, _, hused⟩ := h.chunks data hdata
    have hzero : i = 0 := Nat.le_zero.mp hi
    have hempty : off = 0 ∧ data.length = 0 := by
      have hle := hused hzero
      omega
    refine ⟨i, off, hentry, Or.inr ⟨hzero, (hused hzero), ?_⟩⟩
    rw [List.length_eq_zero_iff.mp hempty.2]
    rfl
  · rw [hsome]
    dsimp only
    cases hfile : disk.containers (containerName n) with
    | none =>
        refine ⟨_, rfl, ⟨rfl, hopens.room, hmax, h.fits, fun data hdata => ?_⟩, rfl, rfl, rfl⟩
        obtain ⟨i, off, hi, hentry, hhas, _⟩ := h.chunks data hdata
        refine ⟨i, off, hentry, Or.inl ⟨Nat.lt_of_le_of_ne hi fun heq => ?_, hhas⟩⟩
        obtain ⟨bytes, hbytes, _⟩ := hhas
        rw [heq, hfile] at hbytes
        cases hbytes
    | some bytes =>
        have htake := List.length_take_le used bytes
        have hroom : 0 + (bytes.take used).length ≤ bodySize := by
          rw [Nat.zero_add]
          exact htake.trans hopens.room
        have hcontainer := Container.memcpy_ok ⟨used, fresh⟩ hroom
        simp only [hcontainer]
        refine ⟨_, rfl, ⟨rfl, hopens.room, hmax, h.fits, fun data hdata => ?_⟩, rfl, rfl, rfl⟩
        obtain ⟨i, off, hi, hentry, hhas, hused⟩ := h.chunks data hdata
        refine ⟨i, off, hentry, ?_⟩
        cases Nat.lt_or_eq_of_le hi with
        | inl hlt => exact Or.inl ⟨hlt, hhas⟩
        | inr heq =>
            obtain ⟨bytes', hfile', hslice⟩ := hhas
            rw [heq, hfile] at hfile'
            cases hfile'
            have hle : off + data.length ≤ (bytes.take used).length := by
              rw [List.length_take]
              exact Nat.le_min.mpr ⟨hused heq, hslice.1⟩
            have hpart := hslice.cut (List.take_prefix used bytes) hle
            rw [← Buffer.read_write fresh 0 (bytes.take used)] at hpart
            exact Or.inr ⟨heq, hused heq, (Buffer.slice_read.mp hpart).2⟩

/-! ## Rotations -/

theorem Process.Carries.saveTOFile (h : p.Carries sha256 K n) :
    p.saveTOFile = .ok ⟨p.core, p.disk.putContainer (containerName n)
      (Buffer.read p.core.currentContainer.body 0 p.core.currentContainer.used)⟩ := by
  rw [Process.saveTOFile, Container.copy_ok _ (by rw [Nat.zero_add]; exact h.used), h.name]
  rfl

theorem Disk.fits_putContainer (hfits : ∀ name bytes, disk.containers name = some bytes →
      bytes.length ≤ bodySize) (name : Name) {new : Bytes} (hnew : new.length ≤ bodySize) :
    ∀ name' bytes, (disk.putContainer name new).containers name' = some bytes →
      bytes.length ≤ bodySize := by
  intro name' bytes hfile
  rw [Disk.containers_putContainer] at hfile
  by_cases heq : name' = name
  · rw [heq, Function.update_self] at hfile
    cases hfile
    exact hnew
  · rw [Function.update_of_ne heq] at hfile
    exact hfits name' bytes hfile

/-- The chunks of the open container are in its file. -/
theorem Process.HasAt.putContainer {i off : Nat} {data : Bytes} (h : p.HasAt n i off data)
    (hn : n < nameCount) :
    (p.disk.putContainer (containerName n)
      (Buffer.read p.core.currentContainer.body 0 p.core.currentContainer.used)).FileHas
        (containerName i) off data := by
  rcases h with ⟨hi, hfile⟩ | ⟨rfl, hused, hread⟩
  · exact hfile.putContainer
      (fun heq => Nat.ne_of_lt hi (containerName_inj (hi.trans hn) hn heq)) _
  · exact ⟨_, Function.update_self .., Buffer.slice_read.mpr ⟨hused, hread⟩⟩

theorem Process.Carries.rotate (h : p.Carries sha256 K n) (hn : n < nameCount)
    (hrun : p.rotate = .ok p') :
    p'.Carries sha256 K (n + 1) ∧ p'.disk = p.disk.putContainer (containerName n)
      (Buffer.read p.core.currentContainer.body 0 p.core.currentContainer.used) := by
  rw [Process.rotate, h.saveTOFile] at hrun
  cases hrun
  refine ⟨⟨?_, Nat.zero_le _, h.maxSize, ?_, fun data hdata => ?_⟩, rfl⟩
  · rw [containerName_succ, ← h.name]
  · exact Disk.fits_putContainer h.fits _ (by rw [Buffer.length_read]; exact h.used)
  · obtain ⟨i, off, hentry, hat⟩ := h.chunks data hdata
    exact ⟨i, off, hentry, Or.inl ⟨Nat.lt_succ_of_le hat.le, hat.putContainer hn⟩⟩

/-! ## Saving a chunk -/

/-- What `place` and the entry do to the open container. -/
theorem Process.record_ok {hash data : Bytes} {key : KeyForChunkHashDB}
    (hrun : p.place data = .ok (p', key)) :
    p'.record hash key =
      ⟨{ p.core with currentContainer := ⟨p.core.currentContainer.used + data.length,
          Buffer.write p.core.currentContainer.body p.core.currentContainer.used data⟩ },
        p.disk.putEntry hash
          ⟨p.core.lastContainerFileName, p.core.currentContainer.used, data.length⟩⟩ := by
  obtain ⟨hroom, rfl, rfl⟩ := Process.place_ok hrun
  rw [bodySize_eq] at hroom
  have hused : u32 (p.core.currentContainer.used + data.length) =
      p.core.currentContainer.used + data.length := Nat.mod_eq_of_lt (by omega)
  rw [Process.record]
  dsimp only
  rw [hused]

/-- A chunk is carried when it has its entry. -/
theorem Process.Carries.record (h : p.Carries sha256 K n) {hash data : Bytes}
    {key : KeyForChunkHashDB} (hnew : p.disk.fp2ChunkDB hash = none)
    (hrun : p.place data = .ok (p', key)) :
    (p'.record hash key).Carries sha256 (K ∪ {d | d = data ∧ (generateHash sha256 d).toList = hash})
        n ∧
      (p'.record hash key).disk = p.disk.putEntry hash key ∧
        (p'.record hash key).core.currentContainer.used =
          p.core.currentContainer.used + data.length := by
  obtain ⟨hroom, _, rfl⟩ := Process.place_ok hrun
  rw [Process.record_ok hrun]
  refine ⟨⟨h.name, hroom, h.maxSize, h.fits, ?_⟩, rfl, rfl⟩
  rintro d (hd | ⟨rfl, hkey⟩)
  · obtain ⟨i, off, hentry, hat⟩ := h.chunks d hd
    have hne : (generateHash sha256 d).toList ≠ hash := by
      rintro rfl
      rw [hnew] at hentry
      cases hentry
    refine ⟨i, off, ?_, ?_⟩
    · rw [Disk.fp2ChunkDB_putEntry, Function.update_of_ne hne, hentry]
    · rcases hat with ⟨hi, hfile⟩ | ⟨hi, hle, hread⟩
      · exact Or.inl ⟨hi, hfile⟩
      · refine Or.inr ⟨hi, Nat.le_add_right_of_le hle, ?_⟩
        rw [Buffer.read_write_below _ _ hle, hread]
  · refine ⟨n, p.core.currentContainer.used, ?_, Or.inr ⟨rfl, Nat.le_refl _, ?_⟩⟩
    · rw [Disk.fp2ChunkDB_putEntry, hkey, Function.update_self, h.name]
    · rw [Buffer.read_write]

/-! ## While a process runs -/

variable {disk₀ : Disk} {K₀ : Set Bytes} {n₀ used₀ : Nat}

/-- What a process that started on `disk₀` has left as it was. -/
structure Process.Since (disk₀ : Disk) (n₀ used₀ n : Nat) (p : Process) : Prop where
  /-- The entries. -/
  entries : ∀ hash key, disk₀.fp2ChunkDB hash = some key → p.disk.fp2ChunkDB hash = some key
  /-- Container `n₀` was open. -/
  le : n₀ ≤ n
  /-- It grows, and goes to its file when it is closed. -/
  current : n = n₀ → used₀ ≤ p.core.currentContainer.used ∧
    p.disk.containers (containerName n₀) = disk₀.containers (containerName n₀)

/-- A process that has not come to the recipe yet. -/
structure Process.Saves (sha256 : Bytes → Hash) (disk₀ : Disk) (n₀ used₀ : Nat) (K : Set Bytes)
    (n : Nat) (p : Process) : Prop where
  /-- The chunks. -/
  carries : p.Carries sha256 K n
  /-- What was there before. -/
  since : p.Since disk₀ n₀ used₀ n
  /-- `.StorageConfig`. -/
  config : p.disk.storageConfig = disk₀.storageConfig
  /-- The recipes and names. -/
  catalog : p.disk.catalog = disk₀.catalog

/-- What is left when it is killed. -/
def Disk.LeftOf (sha256 : Bytes → Hash) (disk₀ : Disk) (K₀ : Set Bytes) (n₀ used₀ : Nat)
    (disk : Disk) : Prop :=
  disk₀.Uncut disk → disk.Stores sha256 K₀ n₀ used₀ ∧
    disk.storageConfig = disk₀.storageConfig ∧ disk.catalog = disk₀.catalog

/-- Where a chunk that was there when the process started is now. -/
theorem Process.Carries.at (h : p.Carries sha256 K n) (hsince : p.Since disk₀ n₀ used₀ n)
    (hn : n < nameCount) {data : Bytes} (hdata : data ∈ K) {i off : Nat} (hi : i ≤ n₀)
    (hentry : disk₀.fp2ChunkDB (generateHash sha256 data).toList =
      some ⟨containerName i, off, data.length⟩) : p.HasAt n i off data := by
  obtain ⟨i', off', hentry', hat⟩ := h.chunks data hdata
  have hkey := Option.some.inj ((hsince.entries _ _ hentry).symm.trans hentry')
  obtain ⟨hname, rfl, _⟩ := KeyForChunkHashDB.mk.inj hkey
  obtain rfl := containerName_inj ((hi.trans hsince.le).trans_lt hn) (hat.le.trans_lt hn) hname
  exact hat

/-- Between two changes of the disk the chunks are there. -/
theorem Process.Carries.stores (h : p.Carries sha256 K n) (hsince : p.Since disk₀ n₀ used₀ n)
    (hn : n < nameCount) (h₀ : disk₀.Stores sha256 K₀ n₀ used₀) (hK : K₀ ⊆ K) :
    p.disk.Stores sha256 K₀ n₀ used₀ := by
  refine ⟨h.fits, fun data hdata => ?_⟩
  obtain ⟨i, off, hi, hentry, hfile, hused⟩ := h₀.chunks data hdata
  refine ⟨i, off, hi, hsince.entries _ _ hentry, ?_, hused⟩
  rcases h.at hsince hn (hK hdata) hi hentry with ⟨_, hclosed⟩ | ⟨rfl, _, _⟩
  · exact hclosed
  · obtain rfl : i = n₀ := Nat.le_antisymm hi hsince.le
    rw [Disk.FileHas, (hsince.current rfl).2]
    exact hfile

/-- The file of the open container is being written. -/
theorem Process.Carries.stores_torn (h : p.Carries sha256 K n)
    (hsince : p.Since disk₀ n₀ used₀ n) (hn : n < nameCount)
    (h₀ : disk₀.Stores sha256 K₀ n₀ used₀) (hopens : disk₀.Opens n₀ used₀) (hK : K₀ ⊆ K)
    {cut : Bytes}
    (hcut : cut <+: Buffer.read p.core.currentContainer.body 0 p.core.currentContainer.used)
    {disk' : Disk} (hstore : disk'.containers =
      Function.update p.disk.containers (containerName n) (some cut))
    (hentries : disk'.fp2ChunkDB = p.disk.fp2ChunkDB) (huncut : disk₀.Uncut disk') :
    disk'.Stores sha256 K₀ n₀ used₀ := by
  have hlength : cut.length ≤ bodySize := by
    have hle := hcut.length_le
    rw [Buffer.length_read] at hle
    exact hle.trans h.used
  refine ⟨fun name bytes hfile => ?_, fun data hdata => ?_⟩
  · rw [hstore] at hfile
    exact Disk.fits_putContainer h.fits (containerName n) hlength name bytes hfile
  · obtain ⟨i, off, hi, hentry, hfile, hused⟩ := h₀.chunks data hdata
    refine ⟨i, off, hi, by rw [hentries]; exact hsince.entries _ _ hentry, ?_, hused⟩
    rw [Disk.FileHas, hstore]
    rcases h.at hsince hn (hK hdata) hi hentry with ⟨hlt, hclosed⟩ | ⟨rfl, hle, hread⟩
    · exact hclosed.putContainer
        (fun heq => Nat.ne_of_lt hlt (containerName_inj (hlt.trans hn) hn heq)) cut
    · obtain rfl : i = n₀ := Nat.le_antisymm hi hsince.le
      refine ⟨cut, Function.update_self .., ?_⟩
      refine (Buffer.slice_read.mpr ⟨hle, hread⟩).cut hcut ?_
      obtain ⟨bytes, hbytes, hslice⟩ := hfile
      rcases hopens.config with ⟨_, _, rfl⟩ | hconfig
      · have hzero := hused rfl
        omega
      · have hmin := huncut _ _ bytes cut hconfig hbytes
          (by rw [hstore, Function.update_self])
        exact (Nat.le_min.mpr ⟨hused rfl, hslice.1⟩).trans hmin

/-! ## Kills while chunks are saved -/

section
variable (h₀ : disk₀.Stores sha256 K₀ n₀ used₀) (hopens : disk₀.Opens n₀ used₀) (hK : K₀ ⊆ K)
include h₀ hK

theorem Process.Saves.leftOf (h : p.Saves sha256 disk₀ n₀ used₀ K n) (hn : n < nameCount) :
    Disk.LeftOf sha256 disk₀ K₀ n₀ used₀ p.disk :=
  fun _ => ⟨h.carries.stores h.since hn h₀ hK, h.config, h.catalog⟩

/-- The chunk is saved, with its entry. -/
theorem Process.Saves.record (h : p.Saves sha256 disk₀ n₀ used₀ K n) (hn : n < nameCount)
    {hash data : Bytes} (hnew : p.disk.fp2ChunkDB hash = none) :
    (Interruptible.lift (p.place data) >>= fun placed =>
        Interruptible.atomic placed.1.disk (.ok (placed.1.record hash placed.2)) :
          Killable Process).Safe
      (fun p' => p'.Saves sha256 disk₀ n₀ used₀
          (K ∪ {d | d = data ∧ (generateHash sha256 d).toList = hash}) n ∧
        ∃ key, p'.disk.fp2ChunkDB = Function.update p.disk.fp2ChunkDB hash (some key))
      (Disk.LeftOf sha256 disk₀ K₀ n₀ used₀) := by
  refine Interruptible.Safe.bind (Interruptible.Safe.lift fun _ hplace => hplace) ?_
  rintro ⟨p₁, key⟩ hplace
  obtain ⟨hcarries, hdisk, hused⟩ := h.carries.record hnew hplace
  have hsame : p₁.disk = p.disk := by
    obtain ⟨_, rfl, _⟩ := Process.place_ok hplace
    rfl
  refine Interruptible.Safe.atomic ?_ fun p' hp' => ?_
  · dsimp only
    rw [hsame]
    exact h.leftOf h₀ hK hn
  · cases hp'
    refine ⟨⟨hcarries, ⟨fun hash' key' hentry => ?_, h.since.le, fun heq => ?_⟩, ?_, ?_⟩, key, ?_⟩
    · have hold := h.since.entries hash' key' hentry
      have hne : hash' ≠ hash := by
        rintro rfl
        rw [hnew] at hold
        cases hold
      rw [hdisk, Disk.fp2ChunkDB_putEntry, Function.update_of_ne hne, hold]
    · obtain ⟨hle, hfile⟩ := h.since.current heq
      rw [hdisk, hused]
      exact ⟨hle.trans (Nat.le_add_right ..), hfile⟩
    · rw [hdisk]
      exact h.config
    · rw [hdisk]
      exact h.catalog
    · rw [hdisk, Disk.fp2ChunkDB_putEntry]

include hopens

theorem Process.Saves.saveTOFile (h : p.Saves sha256 disk₀ n₀ used₀ K n) (hn : n < nameCount) :
    ∀ disk ∈ (Killable.saveTOFile p).leaves, Disk.LeftOf sha256 disk₀ K₀ n₀ used₀ disk := by
  rintro disk (rfl | ⟨bytes, cut, hcopy, hcut, rfl⟩)
  · exact h.leftOf h₀ hK hn
  · intro huncut
    rw [Container.copy_ok _ (by rw [Nat.zero_add]; exact h.carries.used)] at hcopy
    cases hcopy
    refine ⟨?_, h.config, h.catalog⟩
    refine h.carries.stores_torn h.since hn h₀ hopens hK hcut ?_ rfl huncut
    rw [Disk.containers_putContainer, h.carries.name]

theorem Process.Saves.rotate (h : p.Saves sha256 disk₀ n₀ used₀ K n) (hn : n < nameCount) :
    (Killable.rotate p).Safe
      (fun p' => p'.Saves sha256 disk₀ n₀ used₀ K (n + 1) ∧
        p'.disk.fp2ChunkDB = p.disk.fp2ChunkDB)
      (Disk.LeftOf sha256 disk₀ K₀ n₀ used₀) := by
  constructor
  · intro p' hrun
    obtain ⟨hcarries, hdisk⟩ := h.carries.rotate hn hrun
    refine ⟨⟨hcarries, ⟨?_, Nat.le_succ_of_le h.since.le, fun heq => ?_⟩, ?_, ?_⟩, ?_⟩
    · rw [hdisk]
      exact h.since.entries
    · have hle := h.since.le
      omega
    · rw [hdisk]
      exact h.config
    · rw [hdisk]
      exact h.catalog
    · rw [hdisk]
      rfl
  · rintro disk (hdisk | ⟨p₁, _, hdisk⟩)
    · exact h.saveTOFile h₀ hopens hK hn disk hdisk
    · exact absurd hdisk Interruptible.not_mem_leaves_lift

/-- The chunker is at a chunk. -/
theorem Process.Saves.dedupChunk (h : p.Saves sha256 disk₀ n₀ used₀ K n) (hash data : Bytes)
    (hn : n + (if p.Rotates hash data then 1 else 0) < nameCount) :
    (Killable.dedupChunk hash data p).Safe
      (fun p' => ∃ K', K ⊆ K' ∧
        p'.Saves sha256 disk₀ n₀ used₀ K' (n + if p.Rotates hash data then 1 else 0) ∧
        p'.disk.fp2ChunkDB hash ≠ none ∧
        (∀ hash' ≠ hash, p'.disk.fp2ChunkDB hash' = p.disk.fp2ChunkDB hash') ∧
        (p.disk.fp2ChunkDB hash = none →
          ∀ d, d = data → (generateHash sha256 d).toList = hash → d ∈ K'))
      (Disk.LeftOf sha256 disk₀ K₀ n₀ used₀) := by
  rw [Killable.dedupChunk]
  cases hentry : p.disk.fp2ChunkDB hash with
  | some key =>
      have hstays : ¬ p.Rotates hash data := fun hrot => by
        rw [hrot.1] at hentry
        cases hentry
      refine Interruptible.Safe.pure ⟨K, subset_rfl, ?_, ?_, fun _ _ => rfl, fun hnone =>
        absurd hnone (Option.some_ne_none key)⟩
      · rwa [if_neg hstays]
      · rw [hentry]
        exact Option.some_ne_none key
  | none =>
      have hroom : (Killable.makeRoom data p).Safe
          (fun p' => p'.Saves sha256 disk₀ n₀ used₀ K
              (n + if p.Rotates hash data then 1 else 0) ∧
            p'.disk.fp2ChunkDB = p.disk.fp2ChunkDB)
          (Disk.LeftOf sha256 disk₀ K₀ n₀ used₀) := by
        rw [Killable.makeRoom]
        by_cases hfits : p.core.Fits data
        · rw [if_pos hfits, if_neg fun hrot => hrot.2 hfits]
          exact Interruptible.Safe.pure ⟨h, rfl⟩
        · rw [if_neg hfits, if_pos ⟨hentry, hfits⟩]
          exact h.rotate h₀ hopens hK ((Nat.le_add_right ..).trans_lt hn)
      refine hroom.bind fun p₁ hp₁ => ?_
      obtain ⟨hsaves, hsame⟩ := hp₁
      refine (hsaves.record h₀ hK hn (hsame ▸ hentry)).mono (fun p₂ hp₂ => ?_) fun _ => id
      obtain ⟨hsaves₂, key, hupdate⟩ := hp₂
      refine ⟨_, Set.subset_union_left, hsaves₂, ?_, fun hash' hne => ?_, fun _ d hd hkey =>
        Or.inr ⟨hd, hkey⟩⟩
      · rw [hupdate, Function.update_self]
        exact Option.some_ne_none key
      · rw [hupdate, Function.update_of_ne hne, hsame]

end

end Dedup
