import JpegStorage.Dedup.StorageCore
import JpegStorage.Lib.Packing

/-!
# The container store keeps a packing

The store is described by a packing of chunks into containers.  `Holds` says that the
container files and the database show a packing, `Consistent` adds what a process has
in memory, and `Stored` says what is left on the disk between two processes.

Each operation has one lemma: a process that is consistent with a packing gets
through the operation, and it is consistent with the packing after it.  Container
names come back after `15!` rotations, so the lemmas are about fewer.
-/

namespace Dedup

open Packing

/-- A packing of chunks, by their hashes. -/
abbrev Chunks := Packs Bytes UInt8

/-! ## Names -/

/-- The name of container `i`. -/
def containerName (i : Nat) : Name := Permute.step^[i] firstContainerFileName

/-- As many names as there are before they come back. -/
def nameCount : Nat := Nat.factorial 15

theorem containerName_succ (i : Nat) : containerName (i + 1) = Permute.step (containerName i) :=
  Function.iterate_succ_apply' ..

theorem first_ascending : firstContainerFileName.Pairwise (· < ·) := by decide

theorem length_containerName (i : Nat) : (containerName i).length = 15 := by
  have hnodup : firstContainerFileName.Nodup := first_ascending.imp fun hlt => hlt.ne
  exact (Permute.iterate_perm hnodup i).length_eq

theorem containerName_ne_nil (i : Nat) : containerName i ≠ [] := by
  intro h
  have hlen := length_containerName i
  rw [h] at hlen
  cases hlen

theorem containerName_inj {i j : Nat} (hi : i < nameCount) (hj : j < nameCount)
    (h : containerName i = containerName j) : i = j :=
  Permute.iterate_inj first_ascending hi hj h

/-! ## What a packing looks like -/

/-- The closed containers are on the disk, and the database knows every chunk. -/
structure Disk.Holds (disk : Disk) (P : Chunks) : Prop where
  /-- No container is larger than a body. -/
  fits : ∀ pack ∈ P.packs, (content pack).length ≤ bodySize
  /-- The files of the closed containers. -/
  files : ∀ i < P.closed.length, disk.containers (containerName i) = some (P.contentOf i)
  /-- The entries of the database. -/
  entries : ∀ hash key, disk.fp2ChunkDB hash = some key ↔
    ∃ i off data, P.At hash i off data ∧ key = ⟨containerName i, off, data.length⟩

/-- A process between two operations. -/
structure Process.Consistent (p : Process) (P : Chunks) : Prop where
  /-- The disk. -/
  disk : p.disk.Holds P
  /-- The open container has the last name. -/
  name : p.core.lastContainerFileName = containerName P.closed.length
  /-- The size of the open container. -/
  used : p.core.currentContainer.used = (content P.current).length
  /-- The open container is in memory. -/
  body : Buffer.read p.core.currentContainer.body 0 p.core.currentContainer.used = content P.current
  /-- A closed container is in the cache, or none. -/
  cache : p.core.currentReadContainerFileName = [] ∨ ∃ i < P.closed.length,
    p.core.currentReadContainerFileName = containerName i ∧
      Buffer.read p.core.currentReadContainer.body 0 (P.contentOf i).length = P.contentOf i
  /-- A container has room for `maxContainerSize_` bytes. -/
  maxSize : p.core.maxContainerSize ≤ 2 ^ 24

/-- The disk between two processes: nothing was stored yet, or the open container
is in its file. -/
structure Disk.Stored (disk : Disk) (P : Chunks) : Prop where
  /-- The closed containers. -/
  holds : disk.Holds P
  /-- The open container. -/
  last : disk.storageConfig = none ∧ P = .empty ∨
    disk.storageConfig = some (containerName P.closed.length, (content P.current).length) ∧
      disk.containers (containerName P.closed.length) = some (content P.current)

/-- What the container store does not touch. -/
def Disk.catalog (disk : Disk) : (Bytes → Option Name) × (Name → Option Bytes) :=
  (disk.fileName2metaDB, disk.recipes)

theorem bodySize_eq : bodySize = 2 ^ 24 := rfl

theorem Disk.Holds.fits_current {disk : Disk} {P : Chunks} (h : disk.Holds P) :
    (content P.current).length ≤ bodySize :=
  h.fits P.current (List.mem_append_right _ (List.mem_singleton_self _))

theorem Disk.Holds.fits_closed {disk : Disk} {P : Chunks} (h : disk.Holds P) {i : Nat}
    (hi : i < P.closed.length) : (P.contentOf i).length ≤ bodySize := by
  rw [P.contentOf_closed hi]
  exact h.fits _ (List.mem_append_left _ (List.getElem_mem hi))

/-- The database knows the hashes of the packing. -/
theorem Disk.Holds.entry_none {disk : Disk} {P : Chunks} (h : disk.Holds P) {hash : Bytes} :
    disk.fp2ChunkDB hash = none ↔ ¬ P.Has hash := by
  constructor
  · intro hnone hhas
    obtain ⟨i, off, data, hat⟩ := hhas.at
    have hsome := (h.entries hash _).mpr ⟨i, off, data, hat, rfl⟩
    rw [hnone] at hsome
    cases hsome
  · intro hhas
    cases hentry : disk.fp2ChunkDB hash with
    | none => rfl
    | some key =>
        obtain ⟨_, _, _, hat, _⟩ := (h.entries hash key).mp hentry
        exact absurd hat.has hhas

/-! ## Closing a container -/

theorem Container.copy_ok (c : Container) {off n : Nat} (h : off + n ≤ bodySize) :
    c.copy off n = .ok (Buffer.read c.body off n) := if_pos h

theorem Container.memcpy_ok (c : Container) {off : Nat} {data : Bytes}
    (h : off + data.length ≤ bodySize) :
    c.memcpy off data = .ok { c with body := Buffer.write c.body off data } := if_pos h

/-- The open container goes to the file with its name. -/
theorem Process.Consistent.saveTOFile {p : Process} {P : Chunks} (h : p.Consistent P) :
    p.saveTOFile =
      .ok ⟨p.core, p.disk.putContainer (containerName P.closed.length) (content P.current)⟩ := by
  have hfits : 0 + p.core.currentContainer.used ≤ bodySize := by
    rw [Nat.zero_add, h.used]
    exact h.disk.fits_current
  rw [Process.saveTOFile, Container.copy_ok _ hfits, h.body, h.name]
  rfl

/-- The files of the closed containers stay as they are. -/
theorem Disk.Holds.putContainer {disk : Disk} {P : Chunks} (h : disk.Holds P)
    (hfew : P.closed.length < nameCount) (bytes : Bytes) :
    (disk.putContainer (containerName P.closed.length) bytes).Holds P := by
  refine ⟨h.fits, fun i hi => ?_, h.entries⟩
  have hne : containerName i ≠ containerName P.closed.length := fun heq =>
    Nat.ne_of_lt hi (containerName_inj (hi.trans hfew) hfew heq)
  rw [Disk.containers_putContainer, Function.update_of_ne hne, h.files i hi]

/-- When the open container is in its file it may be closed. -/
theorem Disk.Holds.rotate {disk : Disk} {P : Chunks} (h : disk.Holds P)
    (hlast : disk.containers (containerName P.closed.length) = some (content P.current)) :
    disk.Holds P.rotate := by
  refine ⟨fun pack hpack => ?_, fun i hi => ?_, fun hash key => ?_⟩
  · cases List.mem_append.mp hpack with
    | inl hold => exact h.fits pack hold
    | inr hnew =>
        rw [List.mem_singleton.mp hnew]
        exact Nat.zero_le _
  · have hle : i ≤ P.closed.length := by
      have hlen : P.rotate.closed.length = P.closed.length + 1 := List.length_append
      omega
    rw [P.contentOf_rotate hi]
    cases Nat.lt_or_eq_of_le hle with
    | inl hlt => exact h.files i hlt
    | inr heq => rw [heq, hlast, P.contentOf_current]
  · rw [h.entries hash key]
    constructor
    · rintro ⟨i, off, data, hat, hkey⟩
      exact ⟨i, off, data, P.at_rotate.mpr hat, hkey⟩
    · rintro ⟨i, off, data, hat, hkey⟩
      exact ⟨i, off, data, P.at_rotate.mp hat, hkey⟩

theorem length_closed_rotate (P : Chunks) : P.rotate.closed.length = P.closed.length + 1 :=
  List.length_append

theorem Process.Consistent.rotate {p : Process} {P : Chunks} (h : p.Consistent P)
    (hfew : P.closed.length < nameCount) :
    ∃ p', p.rotate = .ok p' ∧ p'.Consistent P.rotate ∧ p'.disk.catalog = p.disk.catalog := by
  rw [Process.rotate, h.saveTOFile]
  refine ⟨_, rfl, ?_, rfl⟩
  constructor
  case disk => exact (h.disk.putContainer hfew _).rotate (Function.update_self ..)
  case name => rw [length_closed_rotate, containerName_succ, ← h.name]
  case used => rfl
  case body => rfl
  case cache =>
    cases h.cache with
    | inl hnone => exact Or.inl hnone
    | inr hsome =>
        obtain ⟨i, hi, hname, hread⟩ := hsome
        have hi' : i < P.rotate.closed.length := by rw [length_closed_rotate]; omega
        refine Or.inr ⟨i, hi', hname, ?_⟩
        rw [P.contentOf_rotate hi']
        exact hread
  case maxSize => exact h.maxSize

/-! ## Saving a chunk -/

/-- What a chunk adds to the database is what it adds to the packing. -/
theorem Disk.Holds.add {disk : Disk} {P : Chunks} (h : disk.Holds P) {hash data : Bytes}
    (hnew : ¬ P.Has hash) (hfits : (content P.current).length + data.length ≤ bodySize) :
    (disk.putEntry hash
      ⟨containerName P.closed.length, (content P.current).length, data.length⟩).Holds
        (P.add hash data hnew) := by
  refine ⟨fun pack hpack => ?_, fun i hi => ?_, fun hash' key => ?_⟩
  · cases List.mem_append.mp hpack with
    | inl hold => exact h.fits pack (List.mem_append_left _ hold)
    | inr hcurrent =>
        rw [List.mem_singleton.mp hcurrent]
        change (content (P.current ++ [(hash, data)])).length ≤ bodySize
        rw [content_append, content_singleton, List.length_append]
        exact hfits
  · rw [P.contentOf_add hnew hi]
    exact h.files i hi
  · simp only [P.at_add hnew]
    rw [Disk.fp2ChunkDB_putEntry]
    constructor
    · intro hentry
      by_cases heq : hash' = hash
      · subst heq
        rw [Function.update_self] at hentry
        exact ⟨_, _, data, Or.inr ⟨rfl, rfl, rfl, rfl⟩, (Option.some.inj hentry).symm⟩
      · rw [Function.update_of_ne heq] at hentry
        obtain ⟨i, off, data', hat, hkey⟩ := (h.entries hash' key).mp hentry
        exact ⟨i, off, data', Or.inl hat, hkey⟩
    · rintro ⟨i, off, data', hat, rfl⟩
      cases hat with
      | inl hold =>
          have hne : hash' ≠ hash := fun heq => hnew (heq ▸ hold.has)
          rw [Function.update_of_ne hne]
          exact (h.entries hash' _).mpr ⟨i, off, data', hold, rfl⟩
      | inr hlast =>
          obtain ⟨rfl, rfl, rfl, rfl⟩ := hlast
          exact Function.update_self ..

/-- A chunk that has room goes behind the others. -/
theorem Process.Consistent.add {p : Process} {P : Chunks} (h : p.Consistent P)
    {hash data : Bytes} (hnew : ¬ P.Has hash)
    (hfits : (content P.current).length + data.length ≤ bodySize) :
    ∃ p' key, p.place data = .ok (p', key) ∧
      (p'.record hash key).Consistent (P.add hash data hnew) ∧
        (p'.record hash key).disk.catalog = p.disk.catalog := by
  have hmemcpy := Container.memcpy_ok p.core.currentContainer (h.used ▸ hfits)
  have hsize : ¬ containerNameSize < p.core.lastContainerFileName.length := by
    rw [h.name, length_containerName]
    decide
  have hcontent : content (P.add hash data hnew).current = content P.current ++ data := by
    change content (P.current ++ [(hash, data)]) = _
    rw [content_append, content_singleton]
  have hu32 : u32 (p.core.currentContainer.used + data.length) =
      p.core.currentContainer.used + data.length := by
    rw [bodySize_eq, ← h.used] at hfits
    exact Nat.mod_eq_of_lt (by omega)
  rw [Process.place, hmemcpy]
  refine ⟨_, _, if_neg hsize, ?_, rfl⟩
  constructor
  case disk =>
    rw [Process.record, h.name, h.used]
    exact h.disk.add hnew hfits
  case name => exact h.name
  case used => rw [hcontent, List.length_append, ← h.used, ← hu32]; rfl
  case body =>
    have hread := Buffer.read_write_append p.core.currentContainer.body 0
      p.core.currentContainer.used data
    rw [Nat.zero_add, h.body, ← hu32] at hread
    rw [hcontent, ← hread]
    rfl
  case cache =>
    cases h.cache with
    | inl hnone => exact Or.inl hnone
    | inr hsome =>
        obtain ⟨i, hi, hname, hread⟩ := hsome
        refine Or.inr ⟨i, hi, hname, ?_⟩
        rw [P.contentOf_add hnew hi]
        exact hread
  case maxSize => exact h.maxSize

/-- A chunk that fits has room. -/
theorem Process.Consistent.fits_room {p : Process} {P : Chunks} (h : p.Consistent P)
    {data : Bytes} (hsize : data.length ≤ maxChunkSize) (hfits : p.core.Fits data) :
    (content P.current).length + data.length ≤ bodySize := by
  have hbody := h.disk.fits_current
  have hmax := h.maxSize
  rw [StorageCore.Fits, u32, h.used] at hfits
  rw [maxChunkSize] at hsize
  rw [bodySize_eq] at hbody ⊢
  rw [Nat.mod_eq_of_lt (by omega)] at hfits
  omega

/-- The packing that takes the next chunk. -/
def Process.packing (p : Process) (P : Chunks) (data : Bytes) : Chunks :=
  if p.core.Fits data then P else P.rotate

theorem Process.holds_packing {p : Process} {P : Chunks} {data : Bytes} {hash d : Bytes} :
    (p.packing P data).Holds hash d ↔ P.Holds hash d := by
  rw [Process.packing]
  split
  · exact .rfl
  · exact Packs.holds_rotate

theorem Process.Consistent.makeRoom {p : Process} {P : Chunks} (h : p.Consistent P)
    (hfew : P.closed.length < nameCount) {data : Bytes} (hsize : data.length ≤ maxChunkSize) :
    ∃ p', p.makeRoom data = .ok p' ∧ p'.Consistent (p.packing P data) ∧
      (content (p.packing P data).current).length + data.length ≤ bodySize ∧
        p'.disk.catalog = p.disk.catalog := by
  rw [Process.makeRoom, Process.packing]
  by_cases hfits : p.core.Fits data
  · rw [if_pos hfits, if_pos hfits]
    exact ⟨p, rfl, h, h.fits_room hsize hfits, rfl⟩
  · rw [if_neg hfits, if_neg hfits]
    obtain ⟨p', hrotate, hp', hcatalog⟩ := h.rotate hfew
    refine ⟨p', hrotate, hp', ?_, hcatalog⟩
    change 0 + data.length ≤ bodySize
    rw [maxChunkSize] at hsize
    rw [bodySize_eq]
    omega

theorem Process.Consistent.saveChunk {p : Process} {P : Chunks} (h : p.Consistent P)
    (hfew : P.closed.length < nameCount) {hash data : Bytes} (hsize : data.length ≤ maxChunkSize)
    (hnew : ¬ (p.packing P data).Has hash) :
    ∃ p', p.saveChunk hash data = .ok p' ∧
      p'.Consistent ((p.packing P data).add hash data hnew) ∧
        p'.disk.catalog = p.disk.catalog := by
  obtain ⟨p₁, hrun, hp₁, hroom, hcatalog₁⟩ := h.makeRoom hfew hsize
  obtain ⟨p₂, key, hplace, hp₂, hcatalog₂⟩ := hp₁.add hnew hroom
  refine ⟨p₂.record hash key, ?_, hp₂, hcatalog₂.trans hcatalog₁⟩
  rw [Process.saveChunk, Process.writeContainer, hrun]
  change (p₁.place data >>= _) = _
  rw [hplace]
  rfl

/-- The chunk makes the container rotate. -/
def Process.Rotates (p : Process) (hash data : Bytes) : Prop :=
  p.disk.fp2ChunkDB hash = none ∧ ¬ p.core.Fits data

instance (p : Process) (hash data : Bytes) : Decidable (p.Rotates hash data) :=
  inferInstanceAs (Decidable (_ ∧ _))

/-- A chunk the database does not know is stored. -/
theorem Process.Consistent.dedupChunk {p : Process} {P : Chunks} (h : p.Consistent P)
    (hfew : P.closed.length < nameCount) (hash : Bytes) {data : Bytes}
    (hsize : data.length ≤ maxChunkSize) :
    ∃ p' P', p.dedupChunk hash data = .ok p' ∧ p'.Consistent P' ∧
      p'.disk.catalog = p.disk.catalog ∧
      P'.closed.length = P.closed.length + (if p.Rotates hash data then 1 else 0) ∧
      ∀ k d, P'.Holds k d ↔ P.Holds k d ∨ ¬ P.Has hash ∧ k = hash ∧ d = data := by
  rw [Process.dedupChunk]
  cases hentry : p.disk.fp2ChunkDB hash with
  | some key =>
      have hhas : P.Has hash := by
        by_contra hnot
        rw [h.disk.entry_none.mpr hnot] at hentry
        cases hentry
      have hstays : ¬ p.Rotates hash data := fun hrot => by
        rw [hrot.1] at hentry
        cases hentry
      refine ⟨p, P, rfl, h, rfl, by rw [if_neg hstays, Nat.add_zero], fun k d => ?_⟩
      exact ⟨Or.inl, fun hor => hor.elim id fun hnew => absurd hhas hnew.1⟩
  | none =>
      have hnot : ¬ P.Has hash := h.disk.entry_none.mp hentry
      have hnew : ¬ (p.packing P data).Has hash := by
        rw [Packs.has_iff_holds] at hnot ⊢
        exact fun ⟨d, hd⟩ => hnot ⟨d, Process.holds_packing.mp hd⟩
      obtain ⟨p', hsave, hp', hcatalog⟩ := h.saveChunk hfew hsize hnew
      refine ⟨p', _, hsave, hp', hcatalog, ?_, fun k d => ?_⟩
      · change (p.packing P data).closed.length = _
        by_cases hfits : p.core.Fits data
        · rw [Process.packing, if_pos hfits, if_neg fun hrot => hrot.2 hfits, Nat.add_zero]
        · rw [Process.packing, if_neg hfits, if_pos ⟨hentry, hfits⟩, length_closed_rotate]
      · rw [Packs.holds_add hnew, Process.holds_packing]
        exact or_congr_right ⟨fun hkd => ⟨hnot, hkd⟩, And.right⟩

/-! ## Reading a chunk -/

/-- A part of a container is copied out of a body that holds it. -/
theorem Container.copy_slice {c : Container} {bytes : Bytes} {off n : Nat}
    (hbound : off + n ≤ bytes.length) (hfits : bytes.length ≤ bodySize)
    (hbody : Buffer.read c.body 0 bytes.length = bytes) :
    c.copy off n = .ok ((bytes.drop off).take n) := by
  have hread := @Buffer.read_slice _ c.body 0 _ _ _ hbound
  rw [hbody, Nat.zero_add] at hread
  rw [Container.copy_ok c (hbound.trans hfits), hread]

/-- A chunk is copied out of a body that holds its container. -/
theorem Container.copy_chunk {c : Container} {P : Chunks} {hash data : Bytes} {i off : Nat}
    (hat : P.At hash i off data) (hfits : (P.contentOf i).length ≤ bodySize)
    (hbody : Buffer.read c.body 0 (P.contentOf i).length = P.contentOf i) :
    c.copy off data.length = .ok data := by
  obtain ⟨hbound, hslice⟩ := hat.slice
  rw [copy_slice hbound hfits hbody, hslice]

/-- The cache holds the container it names. -/
theorem Process.Consistent.cached {p : Process} {P : Chunks} (h : p.Consistent P)
    (hfew : P.closed.length < nameCount) {i : Nat} (hi : i < nameCount)
    (hname : containerName i = p.core.currentReadContainerFileName) :
    i < P.closed.length ∧
      Buffer.read p.core.currentReadContainer.body 0 (P.contentOf i).length = P.contentOf i := by
  cases h.cache with
  | inl hnone => exact absurd (hname.trans hnone) (containerName_ne_nil i)
  | inr hsome =>
      obtain ⟨j, hj, hname', hbody⟩ := hsome
      obtain rfl := containerName_inj hi (hj.trans hfew) (hname.trans hname')
      exact ⟨hj, hbody⟩

theorem Process.Consistent.loadContainer {p : Process} {P : Chunks} (h : p.Consistent P) {i : Nat}
    (hi : i < P.closed.length) :
    ∃ p', p.loadContainer (containerName i) = .ok p' ∧ p'.Consistent P ∧ p'.disk = p.disk ∧
      containerName i = p'.core.currentReadContainerFileName := by
  have hroom : 0 + (P.contentOf i).length ≤ bodySize := by
    rw [Nat.zero_add]
    exact h.disk.fits_closed hi
  have hcontainer := Container.memcpy_ok p.core.currentReadContainer hroom
  have hread := Buffer.read_write p.core.currentReadContainer.body 0 (P.contentOf i)
  rw [Process.loadContainer, h.disk.files i hi]
  simp only [hcontainer]
  refine ⟨_, rfl, ?_, rfl, rfl⟩
  exact ⟨h.disk, h.name, h.used, h.body, Or.inr ⟨i, hi, rfl, hread⟩, h.maxSize⟩

/-- A chunk is read where its entry says, from the cache, from the open container or
from a file. -/
theorem Process.Consistent.readContainer {p : Process} {P : Chunks} (h : p.Consistent P)
    (hfew : P.closed.length < nameCount) {hash data : Bytes} {i off : Nat}
    (hat : P.At hash i off data) :
    ∃ p', p.readContainer ⟨containerName i, off, data.length⟩ = .ok (data, p') ∧
      p'.Consistent P ∧ p'.disk = p.disk := by
  have hi : i < nameCount := hat.le.trans_lt hfew
  have htake : (containerName i).take p.core.lastContainerFileName.length = containerName i := by
    rw [h.name, length_containerName, ← length_containerName i, List.take_length]
  rw [Process.readContainer, htake]
  by_cases hcached : containerName i = p.core.currentReadContainerFileName
  · obtain ⟨hclosed, hbody⟩ := h.cached hfew hi hcached
    refine ⟨p, ?_, h, rfl⟩
    rw [if_pos hcached, Container.copy_chunk hat (h.disk.fits_closed hclosed) hbody]
    rfl
  · rw [if_neg hcached]
    by_cases hlast : containerName i = p.core.lastContainerFileName
    · obtain rfl := containerName_inj hi hfew (hlast.trans h.name)
      have hbody := h.body
      rw [h.used, ← P.contentOf_current] at hbody
      have hfits := h.disk.fits_current
      rw [← P.contentOf_current] at hfits
      refine ⟨p, ?_, h, rfl⟩
      rw [if_pos hlast, Container.copy_chunk hat hfits hbody]
      rfl
    · have hclosed : i < P.closed.length := by
        refine Nat.lt_of_le_of_ne hat.le fun heq => hlast ?_
        rw [h.name, heq]
      obtain ⟨p', hload, hp', hdisk, hname⟩ := h.loadContainer hclosed
      refine ⟨p', ?_, hp', hdisk⟩
      rw [if_neg hlast, hload]
      change (Container.copy _ off data.length >>= _) = _
      rw [Container.copy_chunk hat (h.disk.fits_closed hclosed) (hp'.cached hfew hi hname).2]
      rfl

theorem Process.Consistent.restoreChunk {p : Process} {P : Chunks} (h : p.Consistent P)
    (hfew : P.closed.length < nameCount) {hash data : Bytes} (hdata : P.Holds hash data) :
    ∃ p', p.restoreChunk hash = .ok (data, p') ∧ p'.Consistent P ∧ p'.disk = p.disk := by
  obtain ⟨i, off, hat⟩ := hdata
  rw [Process.restoreChunk, (h.disk.entries hash _).mpr ⟨i, off, data, hat, rfl⟩]
  exact h.readContainer hfew hat

/-! ## Processes -/

theorem Process.Consistent.finish {p : Process} {P : Chunks} (h : p.Consistent P)
    (hfew : P.closed.length < nameCount) :
    ∃ disk, p.finish = .ok disk ∧ disk.Stored P ∧ disk.catalog = p.disk.catalog := by
  have hconfig : Process.Consistent
      ⟨p.core, p.disk.putConfig (p.core.lastContainerFileName, p.core.currentContainer.used)⟩ P :=
    ⟨⟨h.disk.fits, h.disk.files, h.disk.entries⟩, h.name, h.used, h.body, h.cache, h.maxSize⟩
  have hrun : p.finish = .ok
      ((p.disk.putConfig (p.core.lastContainerFileName, p.core.currentContainer.used)).putContainer
        (containerName P.closed.length) (content P.current)) := by
    rw [Process.finish, hconfig.saveTOFile]
    rfl
  refine ⟨_, hrun, ⟨hconfig.disk.putContainer hfew _, Or.inr ⟨?_, Function.update_self ..⟩⟩, rfl⟩
  rw [← h.name, ← h.used]
  rfl

/-- Nothing is stored before the first process. -/
theorem Disk.stored_empty : Disk.Stored .empty .empty := by
  refine ⟨⟨fun pack hpack => ?_, nofun, fun hash key => ⟨nofun, ?_⟩⟩, Or.inl ⟨rfl, rfl⟩⟩
  · rw [List.mem_singleton.mp hpack]
    exact Nat.zero_le _
  · rintro ⟨i, off, data, hat, _⟩
    exact absurd ⟨i, off, hat⟩ Packs.holds_empty

theorem Disk.Stored.start {disk : Disk} {P : Chunks} (h : disk.Stored P)
    (fresh : Nat → UInt8) {maxContainerSize : Nat} (hmax : maxContainerSize ≤ 2 ^ 24) :
    ∃ p, Process.start fresh maxContainerSize disk = .ok p ∧ p.Consistent P ∧ p.disk = disk := by
  rw [Process.start]
  cases h.last with
  | inl hempty =>
      obtain ⟨hnone, rfl⟩ := hempty
      rw [hnone]
      exact ⟨_, rfl, ⟨h.holds, rfl, rfl, rfl, Or.inl rfl, hmax⟩, rfl⟩
  | inr hlast =>
      obtain ⟨hsome, hfile⟩ := hlast
      have hroom : 0 + (content P.current).length ≤ bodySize := by
        rw [Nat.zero_add]
        exact h.holds.fits_current
      have hcontainer := Container.memcpy_ok ⟨(content P.current).length, fresh⟩ hroom
      rw [hsome]
      simp only [hfile, List.take_length, hcontainer]
      refine ⟨_, rfl, ?_, rfl⟩
      exact ⟨h.holds, rfl, rfl, Buffer.read_write .., Or.inl rfl, hmax⟩

end Dedup
