import JpegStorage.Dedup.ChunkKey
import JpegStorage.Dedup.RestoreRuns

/-!
# Restoring a stored file

`Yields` is a disk with the recipe of a file whose chunks a process can all restore, whatever it
has read before.  Every thread pushes them in their order, and the retriever writes as many
chunks as there are (`Yields.ends`).

`StoresFile` is such a file in a store without a kill.
-/

namespace Dedup

open Packing

/-! ## A file in the store -/

/-- The chunks of a recipe. -/
def restoredChunks (entries : List RecipeEntry) (chunks : List Bytes) : List Chunk :=
  List.zipWith (fun entry data => ⟨entry.chunkID, data, entry.chunkHash, entry.chunkKey⟩)
    entries chunks

/-- A file is in the store: its recipe, and the chunks the recipe describes. -/
structure Disk.StoresFile (sha256 : Bytes → Hash) (P : Chunks) (fileName : Bytes)
    (entries : List RecipeEntry) (chunks : List Bytes) (disk : Disk) : Prop where
  /-- The containers. -/
  stored : disk.Stored P
  /-- The container names are different. -/
  few : P.closed.length < nameCount
  /-- The recipe file, which may be longer than the recipe. -/
  recipe : ∃ (name : Name) (recipe : Recipe) (rest : Bytes),
    disk.fileName2metaDB (generateHash sha256 fileName).toList = some name ∧
      disk.recipes name = some (recipe.toBytes ++ (entries.flatMap RecipeEntry.toBytes ++ rest)) ∧
        recipe.fileRecipeHead.Fits ∧ recipe.keyRecipeHead.Fits ∧
          recipe.fileRecipeHead.totalChunkNumber = entries.length
  /-- An entry describes its chunk. -/
  describes : List.Forall₂ (RecipeEntry.Describes sha256) entries chunks
  /-- The chunks are in the containers. -/
  holds : ∀ data ∈ chunks, P.Holds (generateHash sha256 data).toList data
  /-- A `uint32_t` counts them. -/
  count : entries.length < 2 ^ 32

/-- The recipe of a file is on the disk, and the processes with `Inv` restore its chunks. -/
structure Disk.Yields (sha256 : Bytes → Hash) (Inv : Process → Prop) (fileName : Bytes)
    (entries : List RecipeEntry) (chunks : List Bytes) (disk : Disk) : Prop where
  /-- The recipe file, which may be longer than the recipe. -/
  recipe : ∃ (name : Name) (recipe : Recipe) (rest : Bytes),
    disk.fileName2metaDB (generateHash sha256 fileName).toList = some name ∧
      disk.recipes name = some (recipe.toBytes ++ (entries.flatMap RecipeEntry.toBytes ++ rest)) ∧
        recipe.fileRecipeHead.Fits ∧ recipe.keyRecipeHead.Fits ∧
          recipe.fileRecipeHead.totalChunkNumber = entries.length
  /-- An entry describes its chunk. -/
  describes : List.Forall₂ (RecipeEntry.Describes sha256) entries chunks
  /-- A `uint32_t` counts them. -/
  count : entries.length < 2 ^ 32
  /-- The processes work on the disk. -/
  disk : ∀ p, Inv p → p.disk = disk
  /-- They stay what they are. -/
  stays : ∀ hash p data p', Inv p → p.restoreChunk hash = .ok (data, p') → Inv p'
  /-- They find the chunks. -/
  restores : ∀ data ∈ chunks, ∀ p, Inv p →
    ∃ p', p.restoreChunk (generateHash sha256 data).toList = .ok (data, p')

theorem length_restoredChunks {sha256 : Bytes → Hash} {entries : List RecipeEntry}
    {chunks : List Bytes} (h : List.Forall₂ (RecipeEntry.Describes sha256) entries chunks) :
    (restoredChunks entries chunks).length = entries.length := by
  rw [restoredChunks, List.length_zipWith, h.length_eq, Nat.min_self]

theorem logicData_restoredChunks {sha256 : Bytes → Hash} {entries : List RecipeEntry}
    {chunks : List Bytes} (h : List.Forall₂ (RecipeEntry.Describes sha256) entries chunks) :
    (restoredChunks entries chunks).map Chunk.logicData = chunks := by
  induction h with
  | nil => rfl
  | cons _ _ ih => exact congrArg (List.cons _) ih

/-- The storage of a process that restores files. -/
def Process.Keeps (P : Chunks) (disk : Disk) (p : Process) : Prop := p.Consistent P ∧ p.disk = disk

theorem Process.Keeps.restoreChunk {P : Chunks} {disk : Disk} {p p' : Process}
    (hfew : P.closed.length < nameCount) (h : p.Keeps P disk) {hash data : Bytes}
    (hrun : p.restoreChunk hash = .ok (data, p')) : p'.Keeps P disk := by
  have hcases := hrun
  rw [Process.restoreChunk] at hcases
  cases hentry : p.disk.fp2ChunkDB hash with
  | none =>
      rw [hentry] at hcases
      cases hcases
  | some key =>
      obtain ⟨i, off, data', hat, _⟩ := (h.1.disk.entries hash key).mp hentry
      obtain ⟨p'', hrun', hp'', hdisk⟩ := h.1.restoreChunk hfew ⟨i, off, hat⟩
      cases hrun.symm.trans hrun'
      exact ⟨hp'', hdisk.trans h.2⟩

/-- What reading a chunk keeps, reading an entry keeps. -/
theorem restoreEntry_stays {Inv : Process → Prop}
    (hstays : ∀ hash p data p', Inv p → p.restoreChunk hash = .ok (data, p') → Inv p')
    {p p' : Process} (h : Inv p) {entry : RecipeEntry} {chunk : Option Chunk}
    (hrun : p.restoreEntry entry = .ok (chunk, p')) : Inv p' := by
  rw [Process.restoreEntry] at hrun
  cases hread : p.restoreChunk entry.chunkHash.toList with
  | error fault =>
      rw [hread] at hrun
      cases fault <;> cases hrun
      exact h
  | ok read =>
      obtain ⟨data, p''⟩ := read
      have hp'' := hstays _ p data p'' h hread
      rw [hread] at hrun
      dsimp only at hrun
      split at hrun
      · cases hrun
        exact hp''
      · split at hrun <;> cases hrun
        exact hp''

theorem Process.Keeps.kept {P : Chunks} {disk : Disk} (hfew : P.closed.length < nameCount)
    (r : RecvDecode) :
    Kept r (disk.recipeFile r.fileNameHash.toList) (Process.Keeps P disk) where
  file := fun p hp => by rw [hp.2]
  stays := fun _ _ _ _ hp hrun =>
    restoreEntry_stays (fun _ _ _ _ h hread => h.restoreChunk hfew hread) hp hrun

section
variable {sha256 : Bytes → Hash} {Inv : Process → Prop} {fileName : Bytes}
  {entries : List RecipeEntry} {chunks : List Bytes} {disk : Disk}

theorem Disk.Yields.recipeFile (h : disk.Yields sha256 Inv fileName entries chunks) :
    ∃ recipe rest, disk.recipeFile (generateHash sha256 fileName).toList =
      some (Recipe.toBytes recipe ++ (entries.flatMap RecipeEntry.toBytes ++ rest)) := by
  obtain ⟨name, recipe, rest, hname, hfile, _⟩ := h.recipe
  refine ⟨recipe, rest, ?_⟩
  rw [Disk.recipeFile, hname]
  exact hfile

theorem Disk.Yields.totalChunkNumber (h : disk.Yields sha256 Inv fileName entries chunks)
    (uninit : UInt64) :
    disk.totalChunkNumber uninit (generateHash sha256 fileName).toList = entries.length := by
  obtain ⟨name, recipe, rest, hname, hfile, hhead, hkey, htotal⟩ := h.recipe
  rw [Disk.totalChunkNumber, Disk.restoreRecipeHead_ok hname hfile hhead hkey]
  exact htotal

/-- Every entry gives its chunk. -/
theorem Disk.Yields.restoreEntry (h : disk.Yields sha256 Inv fileName entries chunks)
    {bytes : Bytes}
    (hfile : disk.recipeFile (generateHash sha256 fileName).toList = some bytes)
    (stack : Nat → UInt8) {j : Nat} {chunk : Chunk}
    (hchunk : (restoredChunks entries chunks)[j]? = some chunk) {p : Process}
    (hp : Inv p) : ∃ p', p.restoreEntry (entryAt bytes stack j) = .ok (some chunk, p') := by
  obtain ⟨recipe, rest, hfile'⟩ := h.recipeFile
  cases Option.some.inj (hfile.symm.trans hfile')
  obtain ⟨entry, data, hentry, hdata, rfl⟩ := List.getElem?_zipWith_eq_some.mp hchunk
  have hdescribes : entry.Describes sha256 data := by
    obtain ⟨hj, rfl⟩ := List.getElem?_eq_some_iff.mp hentry
    obtain ⟨hj', rfl⟩ := List.getElem?_eq_some_iff.mp hdata
    exact h.describes.get hj hj'
  obtain ⟨p', hread⟩ := h.restores data (List.mem_of_getElem? hdata) p hp
  refine ⟨p', ?_⟩
  rw [entryAt_eq hentry hdescribes.fits, Process.restoreEntry, hdescribes.chunkHash, hread]
  dsimp only
  rw [if_neg (not_not_intro hdescribes.chunkSize.symm), if_neg (Nat.not_lt.mpr hdescribes.size)]

variable {uninit : UInt64} {config : Configure} {stackOf : Nat → Nat → UInt8} {threads : Nat}

theorem Disk.Yields.kept (h : disk.Yields sha256 Inv fileName entries chunks) :
    Kept (recvDecode sha256 uninit config fileName disk)
      (disk.recipeFile (generateHash sha256 fileName).toList) Inv where
  file := fun p hp => by
    rw [h.disk p hp]
    rfl
  stays := fun _ _ _ _ hp hrun => restoreEntry_stays h.stays hp hrun

theorem Disk.Yields.restorable (h : disk.Yields sha256 Inv fileName entries chunks)
    (stack : Nat → UInt8) {j : Nat} (hj : j < entries.length) :
    Restorable Inv (disk.recipeFile (generateHash sha256 fileName).toList) stack j := by
  obtain ⟨recipe, rest, hfile⟩ := h.recipeFile
  have hlen : j < (restoredChunks entries chunks).length := by
    rwa [length_restoredChunks h.describes]
  refine ⟨_, hfile, fun p hp => ⟨(restoredChunks entries chunks)[j], ?_⟩⟩
  exact h.restoreEntry hfile stack (List.getElem?_eq_getElem hlen) hp

/-- Every thread stops behind the last entry. -/
theorem Disk.Yields.halting (h : disk.Yields sha256 Inv fileName entries chunks)
    (hbatch : i32 config.sendChunkBatchSize ≠ 0 ∨ entries.length = 0) :
    Halting (recvDecode sha256 uninit config fileName disk) Inv
      (disk.recipeFile (generateHash sha256 fileName).toList) stackOf threads
      fun _ => entries.length where
  restores := fun t _ =>
    ⟨h.count, (h.totalChunkNumber uninit).ge, fun _ hj => h.restorable (stackOf t) hj⟩
  stops := fun _ _ => .all (h.totalChunkNumber uninit).symm
  kept := h.kept
  batch := by
    cases hbatch with
    | inl hne => exact Or.inl ((RecvDecode.restoreChunkBatchSize_eq_zero _).not.mpr hne)
    | inr hzero => exact Or.inr (Or.inr ((h.totalChunkNumber uninit).trans hzero))

end

/-! ## What is pushed -/

/-- What the threads have pushed. -/
structure Restoring.Pushed (expected : List Chunk) (threads : Nat) (n : Nat → Nat)
    (s : Restoring) : Prop where
  /-- One thread pushes in order. -/
  single : threads = 1 → s.received ++ s.queue = expected.take (n 0)
  /-- Nothing else is pushed. -/
  members : ∀ chunk ∈ s.received ++ s.queue, chunk ∈ expected

section
variable {sha256 : Bytes → Hash} {Inv : Process → Prop} {fileName : Bytes}
  {entries : List RecipeEntry} {chunks : List Bytes} {disk : Disk} {uninit : UInt64}
  {config : Configure} {stackOf : Nat → Nat → UInt8} {threads : Nat}

theorem Restoring.Pushed.recv {expected : List Chunk} {n : Nat → Nat} {s : Restoring}
    (h : s.Pushed expected threads n) {newData : Chunk} {queue : List Chunk}
    (hqueue : s.queue = newData :: queue) :
    Restoring.Pushed expected threads n
      ⟨s.storage, s.decoders, queue, s.received ++ [newData]⟩ := by
  have hsame : (s.received ++ [newData]) ++ queue = s.received ++ s.queue := by
    rw [hqueue, List.append_assoc, List.singleton_append]
  constructor
  case single => exact fun hone => hsame.trans (h.single hone)
  case members => exact fun chunk hchunk => h.members chunk (hsame ▸ hchunk)

/-- A thread pushes the next chunk, or nothing. -/
theorem Disk.Yields.pushed (h : disk.Yields sha256 Inv fileName entries chunks)
    {stack : Nat → UInt8} {n : Nat} {decoder decoder' : Decoder} {p p' : Process}
    {pushed : List Chunk}
    (htracks : decoder.Tracks (recvDecode sha256 uninit config fileName disk)
      (disk.recipeFile (generateHash sha256 fileName).toList) stack entries.length n)
    (hle : n ≤ entries.length) (hp : Inv p)
    (hdecode : (recvDecode sha256 uninit config fileName disk).decode stack p decoder =
      some (decoder', pushed, p')) :
    pushed = [] ∨
      ∃ chunk, (restoredChunks entries chunks)[n]? = some chunk ∧ pushed = [chunk] := by
  have hupTo : RestoresUpTo (recvDecode sha256 uninit config fileName disk) Inv
      (disk.recipeFile (generateHash sha256 fileName).toList) stack entries.length :=
    ⟨h.count, (h.totalChunkNumber uninit).ge, fun _ hj => h.restorable stack hj⟩
  cases htracks.step hle hupTo h.kept hp hdecode with
  | inl hquiet => exact Or.inl hquiet.1
  | inr hpush =>
      obtain ⟨bytes, chunk, hfile, htotal, rfl, hentry, _⟩ := hpush
      have hlt : n < (restoredChunks entries chunks).length := by
        rw [length_restoredChunks h.describes]
        exact Nat.lt_of_le_of_ne hle fun heq => htotal (heq.trans (h.totalChunkNumber uninit).symm)
      obtain ⟨p'', hentry'⟩ := h.restoreEntry hfile stack (List.getElem?_eq_getElem hlt) hp
      cases hentry.symm.trans hentry'
      exact Or.inr ⟨_, List.getElem?_eq_getElem hlt, rfl⟩

theorem Restoring.Pushed.decode {expected : List Chunk} {n : Nat → Nat} {s : Restoring}
    (h : s.Pushed expected threads n) {t : Nat} (ht : t < threads) {decoder : Decoder}
    {pushed : List Chunk} {p : Process}
    (hpush : pushed = [] ∨ ∃ chunk, expected[n t]? = some chunk ∧ pushed = [chunk]) :
    Restoring.Pushed expected threads
      (Function.update n t (n t + pushed.length))
      ⟨p, Function.update s.decoders t decoder, s.queue ++ pushed, s.received⟩ := by
  constructor
  case single =>
    intro heq
    obtain rfl : t = 0 := by omega
    rw [Function.update_self]
    change s.received ++ (s.queue ++ pushed) = _
    rw [← List.append_assoc, h.single heq]
    rcases hpush with rfl | ⟨chunk, hchunk, rfl⟩
    · exact List.append_nil _
    · rw [List.length_singleton, List.take_add_one, hchunk]
      rfl
  case members =>
    intro chunk hchunk
    change chunk ∈ s.received ++ (s.queue ++ pushed) at hchunk
    rw [← List.append_assoc] at hchunk
    cases List.mem_append.mp hchunk with
    | inl hold => exact h.members chunk hold
    | inr hnew =>
        rcases hpush with rfl | ⟨chunk', hchunk', rfl⟩
        · cases hnew
        · rw [List.mem_singleton.mp hnew]
          exact List.mem_of_getElem? hchunk'

theorem Disk.Yields.reaches (h : disk.Yields sha256 Inv fileName entries chunks)
    (hbatch : i32 config.sendChunkBatchSize ≠ 0 ∨ entries.length = 0) {p : Process}
    (hp : Inv p) {s : Restoring}
    (hrun : Relation.ReflTransGen
      (Restoring.Step (recvDecode sha256 uninit config fileName disk) stackOf threads)
      (Restoring.start (recvDecode sha256 uninit config fileName disk) p) s) :
    ∃ n, s.Exact (recvDecode sha256 uninit config fileName disk) Inv
        (disk.recipeFile (generateHash sha256 fileName).toList) stackOf threads
        (fun _ => entries.length) n ∧
      s.Pushed (restoredChunks entries chunks) threads n := by
  induction hrun with
  | refl => exact ⟨_, Restoring.exact_start hp, ⟨fun _ => rfl, nofun⟩⟩
  | tail _ hstep ih =>
      obtain ⟨n, hexact, hpushed⟩ := ih
      cases hstep with
      | @decode t decoder pushed p ht hdecode =>
          have hpush := h.pushed (hexact.counts.tracks t ht) (hexact.le t ht)
            hexact.counts.storage hdecode
          exact ⟨_, (hexact.decode (h.halting hbatch) ht hdecode).1, hpushed.decode ht hpush⟩
      | recv hwaits hqueue => exact ⟨n, hexact.recv hwaits hqueue, hpushed.recv hqueue⟩

/-- The chunks are written, and nothing moves any more. -/
structure Restoring.Through (expected : List Chunk) (Inv : Process → Prop) (threads : Nat)
    (s : Restoring) : Prop where
  /-- What is written. -/
  received : s.received = expected
  /-- The storage. -/
  storage : Inv s.storage
  /-- The threads have returned. -/
  returned : ∀ t < threads, s.decoders t = .returned

/-- The retriever gets as many chunks as there are. -/
theorem Disk.Yields.length_received (h : disk.Yields sha256 Inv fileName entries chunks)
    (hthreads : 0 < threads) {s : Restoring}
    (hended : s.Ended (recvDecode sha256 uninit config fileName disk) Inv
      threads fun _ => entries.length) : s.received.length = entries.length := by
  have htotal := hended.total
  have hu32 : u32 (recvDecode sha256 uninit config fileName disk).totalChunkNumber =
      entries.length := by
    change u32 (disk.totalChunkNumber uninit _) = _
    rw [h.totalChunkNumber uninit]
    exact Nat.mod_eq_of_lt h.count
  have hmul := Nat.le_mul_of_pos_left entries.length hthreads
  rw [Finset.sum_const, Finset.card_range, smul_eq_mul] at htotal
  cases hended.retriever with
  | inl hall => exact hall.trans hu32
  | inr hwaits =>
      obtain ⟨hlt, hqueue⟩ := hwaits
      rw [hqueue, List.length_nil] at htotal
      omega

theorem Disk.Yields.ends (h : disk.Yields sha256 Inv fileName entries chunks)
    (hbatch : i32 config.sendChunkBatchSize ≠ 0 ∨ entries.length = 0) {p : Process}
    (hp : Inv p) (hthreads : 0 < threads) (horder : threads = 1 ∨ entries.length ≤ 1) :
    Ends (Restoring.Step (recvDecode sha256 uninit config fileName disk) stackOf threads)
      (Restoring.Through (restoredChunks entries chunks) Inv threads)
      (Restoring.start (recvDecode sha256 uninit config fileName disk) p) := by
  refine (Restoring.ends (h.halting hbatch) hp).mono fun s hrun hended => ?_
  obtain ⟨n, _, hpushed⟩ := h.reaches hbatch hp hrun
  refine ⟨?_, hended.storage, hended.returned⟩
  have hlen : s.received.length = (restoredChunks entries chunks).length := by
    rw [h.length_received hthreads hended, length_restoredChunks h.describes]
  cases horder with
  | inl hone =>
      have hprefix : s.received <+: restoredChunks entries chunks :=
        List.IsPrefix.trans ⟨s.queue, hpushed.single hone⟩ (List.take_prefix _ _)
      exact hprefix.eq_of_length hlen
  | inr hshort =>
      rw [← length_restoredChunks h.describes] at hshort
      cases hexpected : restoredChunks entries chunks with
      | nil =>
          rw [hexpected] at hlen
          exact List.length_eq_zero_iff.mp hlen
      | cons chunk rest =>
          rw [hexpected] at hshort hlen hpushed
          obtain rfl : rest = [] := by
            rw [List.length_cons] at hshort
            exact List.length_eq_zero_iff.mp (by omega)
          obtain ⟨received, hreceived⟩ := List.length_eq_one_iff.mp hlen
          have hmem := hpushed.members received (by
            rw [hreceived]
            exact List.mem_append_left _ (List.mem_singleton_self _))
          rw [hreceived, List.mem_singleton.mp hmem]

end

/-! ## Files in a store -/

section
variable {sha256 : Bytes → Hash} {P : Chunks} {fileName : Bytes} {entries : List RecipeEntry}
  {chunks : List Bytes} {disk : Disk} {uninit : UInt64} {config : Configure}
  {stackOf : Nat → Nat → UInt8} {threads : Nat}

theorem Disk.StoresFile.yields (h : disk.StoresFile sha256 P fileName entries chunks) :
    disk.Yields sha256 (Process.Keeps P disk) fileName entries chunks where
  recipe := h.recipe
  describes := h.describes
  count := h.count
  disk := fun _ hp => hp.2
  stays := fun _ _ _ _ hp hrun => hp.restoreChunk h.few hrun
  restores := by
    intro data hdata p hp
    obtain ⟨p', hread, _⟩ := hp.1.restoreChunk h.few (h.holds data hdata)
    exact ⟨p', hread⟩

theorem Disk.StoresFile.recipeFile (h : disk.StoresFile sha256 P fileName entries chunks) :
    ∃ recipe rest, disk.recipeFile (generateHash sha256 fileName).toList =
      some (Recipe.toBytes recipe ++ (entries.flatMap RecipeEntry.toBytes ++ rest)) :=
  h.yields.recipeFile

theorem Disk.StoresFile.totalChunkNumber (h : disk.StoresFile sha256 P fileName entries chunks)
    (uninit : UInt64) :
    disk.totalChunkNumber uninit (generateHash sha256 fileName).toList = entries.length :=
  h.yields.totalChunkNumber uninit

theorem Disk.StoresFile.kept (h : disk.StoresFile sha256 P fileName entries chunks) :
    Kept (recvDecode sha256 uninit config fileName disk)
      (disk.recipeFile (generateHash sha256 fileName).toList) (Process.Keeps P disk) :=
  h.yields.kept

theorem Disk.StoresFile.halting (h : disk.StoresFile sha256 P fileName entries chunks)
    (hbatch : i32 config.sendChunkBatchSize ≠ 0 ∨ entries.length = 0) :
    Halting (recvDecode sha256 uninit config fileName disk) (Process.Keeps P disk)
      (disk.recipeFile (generateHash sha256 fileName).toList) stackOf threads
      fun _ => entries.length :=
  h.yields.halting hbatch

theorem Disk.StoresFile.pushed (h : disk.StoresFile sha256 P fileName entries chunks)
    {stack : Nat → UInt8} {n : Nat} {decoder decoder' : Decoder} {p p' : Process}
    {pushed : List Chunk}
    (htracks : decoder.Tracks (recvDecode sha256 uninit config fileName disk)
      (disk.recipeFile (generateHash sha256 fileName).toList) stack entries.length n)
    (hle : n ≤ entries.length) (hp : p.Keeps P disk)
    (hdecode : (recvDecode sha256 uninit config fileName disk).decode stack p decoder =
      some (decoder', pushed, p')) :
    pushed = [] ∨
      ∃ chunk, (restoredChunks entries chunks)[n]? = some chunk ∧ pushed = [chunk] :=
  h.yields.pushed htracks hle hp hdecode

/-- The file is restored. -/
structure Restoring.Done (expected : List Chunk) (P : Chunks) (disk : Disk) (threads : Nat)
    (s : Restoring) : Prop where
  /-- What is written. -/
  received : s.received = expected
  /-- The storage. -/
  storage : s.storage.Keeps P disk
  /-- The threads have returned. -/
  returned : ∀ t < threads, s.decoders t = .returned

theorem Disk.StoresFile.ends (h : disk.StoresFile sha256 P fileName entries chunks)
    (hbatch : i32 config.sendChunkBatchSize ≠ 0 ∨ entries.length = 0) {p : Process}
    (hp : p.Keeps P disk) (hthreads : 0 < threads) (horder : threads = 1 ∨ entries.length ≤ 1) :
    Ends (Restoring.Step (recvDecode sha256 uninit config fileName disk) stackOf threads)
      (Restoring.Done (restoredChunks entries chunks) P disk threads)
      (Restoring.start (recvDecode sha256 uninit config fileName disk) p) :=
  (h.yields.ends hbatch hp hthreads horder).mono fun _ _ hdone =>
    ⟨hdone.received, hdone.storage, hdone.returned⟩

end

end Dedup
