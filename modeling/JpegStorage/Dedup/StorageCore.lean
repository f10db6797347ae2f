import JpegStorage.Lib.Buffer
import JpegStorage.Lib.NextPermutation
import JpegStorage.Lib.Run
import Mathlib.Algebra.Group.Nat.Defs
import Mathlib.Data.Char
import Mathlib.Data.UInt

/-!
# The container store

Chunks are packed into containers of some megabytes.  The current container is in
memory and goes to a file when the next chunk does not fit.  A database maps the
hash of a chunk to its container, offset and length.  When a process ends, the
current container goes to a file as well, and `.StorageConfig` remembers its name and
how much of it is used.

The files and the databases are a `Disk`, and a running process is a `StorageCore`
with the disk it works on.  File operations succeed.
-/

namespace Dedup

/-! ## Data -/

/-- A number stored in a `uint16_t`. -/
def u16 (n : Nat) : Nat := n % 2 ^ 16

/-- A number stored in a `uint32_t`. -/
def u32 (n : Nat) : Nat := n % 2 ^ 32

theorem u32_lt (n : Nat) : u32 n < 2 ^ 32 := by
  rw [u32]
  omega

/-- A number stored in a `uint64_t`. -/
def u64 (n : Int) : Nat := (n % 2 ^ 64).toNat

/-- A number stored in an `int`. -/
def i32 (n : Int) : Int := n.bmod (2 ^ 32)

theorem i32_of_fits {n : Int} (hlow : 0 ≤ n) (hhigh : n < 2 ^ 31) : i32 n = n := by
  rw [i32, Int.bmod_eq_of_le] <;> omega

/-- `string`s of bytes. -/
abbrev Bytes := List UInt8

/-- The name of a container, without the prefix and the tail. -/
abbrev Name := List Char

/-- How an operation fails. -/
inductive Fault where
  /-- Undefined behaviour. -/
  | undefined
  /-- It returns `false`. -/
  | failed
  /-- It does not return. -/
  | hangs
deriving DecidableEq, Repr

/-- `sizeof(body_)`. -/
def bodySize : Nat := 2 <<< 23

/-- `MAX_CHUNK_SIZE`. -/
def maxChunkSize : Nat := 16384

/-- `Container`. -/
structure Container where
  /-- `used_`. -/
  used : Nat
  /-- `body_`. -/
  body : Nat → UInt8

/-- `keyForChunkHashDB_t`. -/
structure KeyForChunkHashDB where
  /-- `containerName`. -/
  containerName : Name
  /-- `offset`. -/
  offset : Nat
  /-- `length`. -/
  length : Nat
deriving DecidableEq, Repr

/-- `sizeof(keyForChunkHashDB_t::containerName)`. -/
def containerNameSize : Nat := 16

/-- What outlives a process. -/
structure Disk where
  /-- `fp2ChunkDB`. -/
  fp2ChunkDB : Bytes → Option KeyForChunkHashDB
  /-- `fileName2metaDB`. -/
  fileName2metaDB : Bytes → Option Name
  /-- `.StorageConfig`: `lastContainerFileName_` and `used_`. -/
  storageConfig : Option (Name × Nat)
  /-- The container files. -/
  containers : Name → Option Bytes
  /-- The recipe files. -/
  recipes : Name → Option Bytes

/-- The disk before the first process. -/
def Disk.empty : Disk := ⟨fun _ => none, fun _ => none, none, fun _ => none, fun _ => none⟩

/-- A container file is written. -/
def Disk.putContainer (disk : Disk) (name : Name) (bytes : Bytes) : Disk :=
  { disk with containers := Function.update disk.containers name (some bytes) }

@[simp] theorem Disk.containers_putContainer (disk : Disk) (name : Name) (bytes : Bytes) :
    (disk.putContainer name bytes).containers =
      Function.update disk.containers name (some bytes) := rfl

/-- `.StorageConfig` is written. -/
def Disk.putConfig (disk : Disk) (config : Name × Nat) : Disk :=
  { disk with storageConfig := some config }

/-- `fp2ChunkDB.insert`. -/
def Disk.putEntry (disk : Disk) (hash : Bytes) (key : KeyForChunkHashDB) : Disk :=
  { disk with fp2ChunkDB := Function.update disk.fp2ChunkDB hash (some key) }

@[simp] theorem Disk.fp2ChunkDB_putEntry (disk : Disk) (hash : Bytes) (key : KeyForChunkHashDB) :
    (disk.putEntry hash key).fp2ChunkDB = Function.update disk.fp2ChunkDB hash (some key) := rfl

/-- `StorageCore`. -/
structure StorageCore where
  /-- `lastContainerFileName_`. -/
  lastContainerFileName : Name
  /-- `currentReadContainerFileName_`. -/
  currentReadContainerFileName : Name
  /-- `currentContainer_`. -/
  currentContainer : Container
  /-- `currentReadContainer_`. -/
  currentReadContainer : Container
  /-- `maxContainerSize_`. -/
  maxContainerSize : Nat

/-- A process and its disk. -/
structure Process where
  /-- The `StorageCore` of the process. -/
  core : StorageCore
  /-- The disk. -/
  disk : Disk

/-! ## Containers -/

/-- `memcpy` into a body, and `read` into it. -/
def Container.memcpy (c : Container) (off : Nat) (data : Bytes) : Except Fault Container :=
  if off + data.length ≤ bodySize then .ok { c with body := Buffer.write c.body off data }
  else .error .undefined

/-- `memcpy` out of a body, and `write` out of it. -/
def Container.copy (c : Container) (off n : Nat) : Except Fault Bytes :=
  if off + n ≤ bodySize then .ok (Buffer.read c.body off n) else .error .undefined

/-- `saveTOFile` of the current container under its name. -/
def Process.saveTOFile (p : Process) : Except Fault Process := do
  let bytes ← p.core.currentContainer.copy 0 p.core.currentContainer.used
  .ok { p with disk := p.disk.putContainer p.core.lastContainerFileName bytes }

/-- The chunk fits into the current container. -/
def StorageCore.Fits (core : StorageCore) (data : Bytes) : Prop :=
  u32 (data.length + core.currentContainer.used) < core.maxContainerSize

instance (core : StorageCore) (data : Bytes) : Decidable (core.Fits data) := Nat.decLt ..

/-- The current container goes to its file, and an empty one with the next name
takes its place. -/
def Process.rotate (p : Process) : Except Fault Process := do
  let p ← p.saveTOFile
  .ok { p with core :=
    { p.core with lastContainerFileName := Permute.step p.core.lastContainerFileName,
                  currentContainer := { p.core.currentContainer with used := 0 } } }

/-- The begin of both branches of `writeContainer`. -/
def Process.makeRoom (data : Bytes) (p : Process) : Except Fault Process :=
  if p.core.Fits data then .ok p else p.rotate

/-- The end of both branches of `writeContainer`. -/
def Process.place (data : Bytes) (p : Process) : Except Fault (Process × KeyForChunkHashDB) := do
  let used := p.core.currentContainer.used
  let container ← p.core.currentContainer.memcpy used data
  if containerNameSize < p.core.lastContainerFileName.length then .error .undefined
  else
    .ok ({ p with core := { p.core with currentContainer := container } },
      ⟨p.core.lastContainerFileName, used, data.length⟩)

/-- `writeContainer`. -/
def Process.writeContainer (data : Bytes) (p : Process) :
    Except Fault (Process × KeyForChunkHashDB) := do
  let p ← p.makeRoom data
  p.place data

/-- The end of `saveChunk`. -/
def Process.record (hash : Bytes) (key : KeyForChunkHashDB) (p : Process) : Process :=
  let used := u32 (p.core.currentContainer.used + key.length)
  let core := { p.core with currentContainer := { p.core.currentContainer with used := used } }
  ⟨core, p.disk.putEntry hash key⟩

/-- `saveChunk`. -/
def Process.saveChunk (hash data : Bytes) (p : Process) : Except Fault Process := do
  let (p, key) ← p.writeContainer data
  .ok (p.record hash key)

/-- What the chunker does with a chunk: nothing when its hash is known. -/
def Process.dedupChunk (hash data : Bytes) (p : Process) : Except Fault Process :=
  match p.disk.fp2ChunkDB hash with
  | some _ => .ok p
  | none => p.saveChunk hash data

/-- A container file comes into the cache. -/
def Process.loadContainer (name : Name) (p : Process) : Except Fault Process :=
  match p.disk.containers name with
  | none => .error .failed
  | some bytes => do
      let container ← p.core.currentReadContainer.memcpy 0 bytes
      let container := { container with used := bytes.length }
      let core := { p.core with
        currentReadContainer := container, currentReadContainerFileName := name }
      .ok ⟨core, p.disk⟩

/-- `readContainer`. -/
def Process.readContainer (key : KeyForChunkHashDB) (p : Process) :
    Except Fault (Bytes × Process) :=
  let containerNameStr := key.containerName.take p.core.lastContainerFileName.length
  if containerNameStr = p.core.currentReadContainerFileName then do
    let data ← p.core.currentReadContainer.copy key.offset key.length
    .ok (data, p)
  else if containerNameStr = p.core.lastContainerFileName then do
    let data ← p.core.currentContainer.copy key.offset key.length
    .ok (data, p)
  else do
    let p ← p.loadContainer containerNameStr
    let data ← p.core.currentReadContainer.copy key.offset key.length
    .ok (data, p)

/-- `restoreChunk`. -/
def Process.restoreChunk (hash : Bytes) (p : Process) : Except Fault (Bytes × Process) :=
  match p.disk.fp2ChunkDB hash with
  | none => .error .failed
  | some key => p.readContainer key

/-! ## Processes -/

/-- The name of the first container. -/
def firstContainerFileName : Name :=
  ['a', 'b', 'c', 'd', 'e', 'f', 'g', 'h', 'i', 'j', 'k', 'l', 'm', 'n', 'o']

/-- The constructor.  `fresh` is what new memory holds. -/
def Process.start (fresh : Nat → UInt8) (maxContainerSize : Nat) (disk : Disk) :
    Except Fault Process :=
  let core (name : Name) (container : Container) : StorageCore :=
    ⟨name, [], container, ⟨0, fresh⟩, maxContainerSize⟩
  match disk.storageConfig with
  | none => .ok ⟨core firstContainerFileName ⟨0, fresh⟩, disk⟩
  | some (name, used) =>
      match disk.containers name with
      | none => .ok ⟨core name ⟨used, fresh⟩, disk⟩
      | some bytes => do
          let container ← Container.memcpy ⟨used, fresh⟩ 0 (bytes.take used)
          .ok ⟨core name container, disk⟩

/-- The destructor. -/
def Process.finish (p : Process) : Except Fault Disk := do
  let config := (p.core.lastContainerFileName, p.core.currentContainer.used)
  let p ← Process.saveTOFile ⟨p.core, p.disk.putConfig config⟩
  .ok p.disk

/-! ## Entries -/

theorem Process.makeRoom_entries {p p' : Process} {data : Bytes}
    (h : p.makeRoom data = .ok p') : p'.disk.fp2ChunkDB = p.disk.fp2ChunkDB := by
  rw [Process.makeRoom] at h
  split at h
  · obtain rfl := Except.ok.inj h
    rfl
  · rw [Process.rotate] at h
    obtain ⟨p₁, hsave, hok⟩ := Run.except_bind_eq_ok.mp h
    rw [Process.saveTOFile] at hsave
    obtain ⟨bytes, _, hdisk⟩ := Run.except_bind_eq_ok.mp hsave
    obtain rfl := Except.ok.inj hdisk
    obtain rfl := Except.ok.inj hok
    rfl

/-- The data is copied behind what is used. -/
theorem Process.place_ok {p p' : Process} {data : Bytes} {key : KeyForChunkHashDB}
    (hplace : p.place data = .ok (p', key)) :
    p.core.currentContainer.used + data.length ≤ bodySize ∧
      p' = { p with core := { p.core with currentContainer := { p.core.currentContainer with
        body := Buffer.write p.core.currentContainer.body p.core.currentContainer.used data } } } ∧
      key = ⟨p.core.lastContainerFileName, p.core.currentContainer.used, data.length⟩ := by
  obtain ⟨container, hmemcpy, hplace⟩ := Run.except_bind_eq_ok.mp hplace
  rw [Container.memcpy] at hmemcpy
  split at hmemcpy
  next hroom =>
    cases hmemcpy
    split at hplace
    · cases hplace
    · cases hplace
      exact ⟨hroom, rfl, rfl⟩
  next => cases hmemcpy

/-- `writeContainer` adds no entry. -/
theorem Process.writeContainer_entries {p p' : Process} {key : KeyForChunkHashDB} {data : Bytes}
    (h : p.writeContainer data = .ok (p', key)) : p'.disk.fp2ChunkDB = p.disk.fp2ChunkDB := by
  obtain ⟨p₁, hroom, hplace⟩ := Run.except_bind_eq_ok.mp h
  obtain ⟨_, rfl, _⟩ := Process.place_ok hplace
  rw [← makeRoom_entries hroom]

end Dedup
