import JpegStorage.Dedup.ContainerStore

/-!
# A container that is not written

`saveTOFile` returns `false` when it cannot open the file, and the insertion into the
database may fail.  `writeContainer` does not look at the first result: the container is
given up, and only the second one reaches the caller.

A process is `Backed` by a packing when it would be consistent with it if the missing files
were there, and only the files of empty containers are missing.  So a chunk of the packing
is restored (`Backed.restores`).  It stays so when a container is given up that has no
chunk, or that is in its file already (`Flushed`).
-/

namespace Dedup

open Packing

/-! ## The program -/

/-- `saveTOFile`, which returns `false` when the file cannot be opened. -/
def Process.trySaveTOFile (opens : Bool) (p : Process) : Except Fault (Bool × Process) :=
  if opens then do
    let p ← p.saveTOFile
    .ok (true, p)
  else .ok (false, p)

/-- An empty container with the next name. -/
def Process.nextContainer (p : Process) : Process :=
  { p with core :=
    { p.core with lastContainerFileName := Permute.step p.core.lastContainerFileName,
                  currentContainer := { p.core.currentContainer with used := 0 } } }

/-- The begin of both branches of `writeContainer`.  What `saveTOFile` returns is not used. -/
def Process.tryMakeRoom (opens : Bool) (data : Bytes) (p : Process) : Except Fault Process :=
  if p.core.Fits data then .ok p
  else do
    let (_, p) ← p.trySaveTOFile opens
    .ok p.nextContainer

/-- `saveChunk`, when the file can be opened or not, and the insertion succeeds or not. -/
def Process.trySaveChunk (opens inserts : Bool) (hash data : Bytes) (p : Process) :
    Except Fault (Bool × Process) := do
  let p ← p.tryMakeRoom opens data
  let (p, key) ← p.place data
  if inserts then .ok (true, p.record hash key) else .ok (false, p)

/-- Without failures it is the `saveChunk` of a store with working files. -/
theorem Process.trySaveChunk_working (hash data : Bytes) (p : Process) :
    p.trySaveChunk true true hash data = p.saveChunk hash data >>= fun p => .ok (true, p) := by
  have hroom : p.tryMakeRoom true data = p.makeRoom data := by
    rw [tryMakeRoom, makeRoom]
    split
    · rfl
    · rw [trySaveTOFile, if_pos rfl, rotate, bind_assoc]
      rfl
  rw [trySaveChunk, hroom, saveChunk, writeContainer, bind_assoc, bind_assoc]
  rfl

/-! ## The files that should be there -/

/-- The process with other container files. -/
def Process.withContainers (p : Process) (containers : Name → Option Bytes) : Process :=
  ⟨p.core, { p.disk with containers := containers }⟩

/-- The packing is in memory and in the files, but for the files of empty containers. -/
structure Process.Backed (p : Process) (P : Chunks) : Prop where
  /-- With the missing files it would be consistent. -/
  mirror : ∃ containers, (p.withContainers containers).Consistent P
  /-- The files that are there. -/
  files : ∀ i < P.closed.length, P.closed[i]? ≠ some [] →
    p.disk.containers (containerName i) = some (P.contentOf i)

theorem Process.Consistent.backed {p : Process} {P : Chunks} (h : p.Consistent P) :
    p.Backed P :=
  ⟨⟨p.disk.containers, h⟩, fun i hi _ => h.disk.files i hi⟩

/-- No entry names the open container, or it is in its file already. -/
def Process.Flushed (p : Process) : Prop :=
  (∀ hash key, p.disk.fp2ChunkDB hash = some key →
    key.containerName ≠ p.core.lastContainerFileName) ∨
  p.disk.containers p.core.lastContainerFileName =
    some (Buffer.read p.core.currentContainer.body 0 p.core.currentContainer.used)

section
variable {p p' : Process} {P : Chunks} {f : Name → Option Bytes}

/-- A container that may be given up is in its file or is empty. -/
theorem Process.Flushed.file (h : p.Flushed) (hf : (p.withContainers f).Consistent P)
    (hne : P.current ≠ []) :
    p.disk.containers (containerName P.closed.length) = some (content P.current) := by
  have hname : p.core.lastContainerFileName = containerName P.closed.length := hf.name
  have hbody : Buffer.read p.core.currentContainer.body 0 p.core.currentContainer.used =
      content P.current := hf.body
  rcases h with hnone | hfile
  · obtain ⟨⟨hash, data⟩, rest, hcurrent⟩ := List.exists_cons_of_ne_nil hne
    have hat : P.At hash P.closed.length 0 data :=
      ⟨[], rest, by rw [P.packs_current, hcurrent]; rfl, rfl⟩
    have hentry : p.disk.fp2ChunkDB hash = some ⟨containerName P.closed.length, 0, data.length⟩ :=
      (hf.disk.entries hash _).mpr ⟨_, _, _, hat, rfl⟩
    exact absurd hname.symm (hnone hash _ hentry)
  · rw [← hname, hfile, hbody]

/-! ## Giving up a container -/

/-- The next container, when the open one is in the files that should be there. -/
theorem Process.Consistent.nextContainer (hf : (p.withContainers f).Consistent P)
    (hfew : P.closed.length < nameCount) :
    (p.nextContainer.withContainers (Function.update f (containerName P.closed.length)
      (some (content P.current)))).Consistent P.rotate := by
  obtain ⟨q, hrotate, hq, _⟩ := hf.rotate hfew
  rw [Process.rotate, hf.saveTOFile] at hrotate
  cases hrotate
  exact hq

theorem Process.saveTOFile_ok (hsave : p.saveTOFile = .ok p') :
    p' = ⟨p.core, p.disk.putContainer p.core.lastContainerFileName
      (Buffer.read p.core.currentContainer.body 0 p.core.currentContainer.used)⟩ := by
  obtain ⟨bytes, hcopy, hsave⟩ := Run.except_bind_eq_ok.mp hsave
  rw [Container.copy] at hcopy
  split at hcopy
  · cases hcopy
    cases hsave
    rfl
  · cases hcopy

/-- The files of the closed containers, when one more is closed. -/
theorem files_rotate {disk : Disk}
    (hold : ∀ i < P.closed.length, P.closed[i]? ≠ some [] →
      disk.containers (containerName i) = some (P.contentOf i))
    (hlast : P.current ≠ [] →
      disk.containers (containerName P.closed.length) = some (content P.current)) :
    ∀ i < P.rotate.closed.length, P.rotate.closed[i]? ≠ some [] →
      disk.containers (containerName i) = some (P.rotate.contentOf i) := by
  intro i hi hne
  rw [P.contentOf_rotate hi]
  change (P.closed ++ [P.current])[i]? ≠ some [] at hne
  rw [length_closed_rotate] at hi
  rcases Nat.lt_or_eq_of_le (Nat.le_of_lt_succ hi) with hlt | rfl
  · rw [List.getElem?_append_left hlt] at hne
    exact hold i hlt hne
  · rw [List.getElem?_concat_length] at hne
    rw [P.contentOf_current]
    exact hlast fun hnil => hne (by rw [hnil])

theorem Process.Backed.tryMakeRoom {opens : Bool} {data : Bytes} (h : p.Backed P)
    (hfew : P.closed.length < nameCount)
    (hflushed : ¬ p.core.Fits data → opens = false → p.Flushed)
    (hrun : p.tryMakeRoom opens data = .ok p') : p'.Backed (p.packing P data) := by
  obtain ⟨f, hf⟩ := h.mirror
  rw [Process.tryMakeRoom] at hrun
  rw [Process.packing]
  by_cases hfits : p.core.Fits data
  · rw [if_pos hfits] at hrun ⊢
    cases hrun
    exact h
  · rw [if_neg hfits] at hrun ⊢
    obtain ⟨⟨saved, p₁⟩, htry, hrun⟩ := Run.except_bind_eq_ok.mp hrun
    cases hrun
    have hnext := hf.nextContainer hfew
    have hname : p.core.lastContainerFileName = containerName P.closed.length := hf.name
    have hbody : Buffer.read p.core.currentContainer.body 0 p.core.currentContainer.used =
        content P.current := hf.body
    rw [Process.trySaveTOFile] at htry
    cases opens with
    | true =>
        rw [if_pos rfl] at htry
        obtain ⟨p₂, hsave, htry⟩ := Run.except_bind_eq_ok.mp htry
        cases htry
        rw [Process.saveTOFile_ok hsave, hname, hbody]
        refine ⟨⟨_, hnext⟩, files_rotate (fun i hi hne => ?_) fun _ => ?_⟩
        · have hother : containerName i ≠ containerName P.closed.length := fun heq =>
            Nat.ne_of_lt hi (containerName_inj (hi.trans hfew) hfew heq)
          change Function.update p.disk.containers _ _ (containerName i) = _
          rw [Function.update_of_ne hother]
          exact h.files i hi hne
        · exact Function.update_self ..
    | false =>
        cases htry
        refine ⟨⟨_, hnext⟩, files_rotate h.files fun hne => ?_⟩
        exact (hflushed hfits rfl).file hf hne

/-! ## Saving a chunk -/

/-- Other files of containers do not matter. -/
theorem Process.place_withContainers {data : Bytes} {key : KeyForChunkHashDB}
    (hplace : p.place data = .ok (p', key)) (f : Name → Option Bytes) :
    (p.withContainers f).place data = .ok (p'.withContainers f, key) := by
  obtain ⟨container, hmemcpy, hplace⟩ := Run.except_bind_eq_ok.mp hplace
  have hwith : (p.withContainers f).place data =
      p.core.currentContainer.memcpy p.core.currentContainer.used data >>= fun container =>
        if containerNameSize < p.core.lastContainerFileName.length then .error .undefined
        else .ok ({ p.withContainers f with
          core := { p.core with currentContainer := container } },
            ⟨p.core.lastContainerFileName, p.core.currentContainer.used, data.length⟩) := rfl
  rw [hwith, hmemcpy, Run.ok_bind]
  split at hplace
  · cases hplace
  next hshort =>
    cases hplace
    rw [if_neg hshort]
    rfl

/-- Bytes behind the used part of the body change nothing. -/
theorem Process.Backed.place {data : Bytes} {key : KeyForChunkHashDB} (h : p.Backed P)
    (hplace : p.place data = .ok (p', key)) : p'.Backed P := by
  obtain ⟨_, rfl, _⟩ := Process.place_ok hplace
  obtain ⟨f, hf⟩ := h.mirror
  refine ⟨⟨f, hf.disk, hf.name, hf.used, ?_, hf.cache, hf.maxSize⟩, h.files⟩
  refine (Buffer.read_write_below _ data ?_).trans hf.body
  exact (Nat.zero_add _).le

theorem Process.Backed.record {hash data : Bytes} {key : KeyForChunkHashDB} (h : p.Backed P)
    (hnew : ¬ P.Has hash) (hplace : p.place data = .ok (p', key)) :
    (p'.record hash key).Backed (P.add hash data hnew) := by
  obtain ⟨hroom, hp', _⟩ := Process.place_ok hplace
  obtain ⟨f, hf⟩ := h.mirror
  have hused : p.core.currentContainer.used = (content P.current).length := hf.used
  rw [hused] at hroom
  obtain ⟨q, key', hq, hadd, _⟩ := hf.add hnew hroom
  cases (Process.place_withContainers hplace f).symm.trans hq
  refine ⟨⟨f, hadd⟩, fun i hi hne => ?_⟩
  rw [P.contentOf_add hnew hi, ← h.files i hi hne, hp']
  rfl

theorem Process.Backed.trySaveChunk {opens inserts returned : Bool} {hash data : Bytes}
    (h : p.Backed P) (hfew : P.closed.length < nameCount)
    (hnew : p.disk.fp2ChunkDB hash = none)
    (hflushed : ¬ p.core.Fits data → opens = false → p.Flushed)
    (hrun : p.trySaveChunk opens inserts hash data = .ok (returned, p')) :
    ∃ P' : Chunks, p'.Backed P' ∧
      P'.closed.length = P.closed.length + (if p.core.Fits data then 0 else 1) ∧
      ∀ k d, P.Holds k d → P'.Holds k d := by
  obtain ⟨f, hf⟩ := h.mirror
  obtain ⟨p₁, hroom, hrun⟩ := Run.except_bind_eq_ok.mp hrun
  obtain ⟨⟨p₂, key⟩, hplace, hrun⟩ := Run.except_bind_eq_ok.mp hrun
  have h₁ := h.tryMakeRoom hfew hflushed hroom
  have hlen : (p.packing P data).closed.length =
      P.closed.length + (if p.core.Fits data then 0 else 1) := by
    rw [Process.packing]
    split
    · rfl
    · exact length_closed_rotate P
  cases inserts with
  | false =>
      cases hrun
      exact ⟨p.packing P data, h₁.place hplace, hlen, fun k d => Process.holds_packing.mpr⟩
  | true =>
      cases hrun
      have hnot : ¬ (p.packing P data).Has hash := by
        rw [Packs.has_iff_holds]
        rintro ⟨d, hd⟩
        exact hf.disk.entry_none.mp hnew
          (Packs.has_iff_holds.mpr ⟨d, Process.holds_packing.mp hd⟩)
      refine ⟨_, h₁.record hnot hplace, hlen, fun k d hd => ?_⟩
      exact (Packs.holds_add hnot).mpr (Or.inl (Process.holds_packing.mpr hd))

/-! ## Reading a chunk -/

/-- The chunk can be restored. -/
def Process.RestoresChunk (p : Process) (hash data : Bytes) : Prop :=
  ∃ p', p.restoreChunk hash = .ok (data, p')

/-- A read needs the file only of a container that is not open. -/
theorem Process.readContainer_with {key : KeyForChunkHashDB} {data : Bytes} {q : Process}
    (hsame : key.containerName.take p.core.lastContainerFileName.length ≠
        p.core.lastContainerFileName →
      f (key.containerName.take p.core.lastContainerFileName.length) =
        p.disk.containers (key.containerName.take p.core.lastContainerFileName.length))
    (hread : (p.withContainers f).readContainer key = .ok (data, q)) :
    ∃ p', p.readContainer key = .ok (data, p') ∧ p'.disk = p.disk ∧ q = p'.withContainers f := by
  change Process.readContainer key ⟨p.core, { p.disk with containers := f }⟩ = _ at hread
  rw [Process.readContainer] at hread ⊢
  by_cases hcached : key.containerName.take p.core.lastContainerFileName.length =
      p.core.currentReadContainerFileName
  · rw [if_pos hcached] at hread ⊢
    obtain ⟨bytes, hcopy, hread⟩ := Run.except_bind_eq_ok.mp hread
    cases hread
    rw [hcopy]
    exact ⟨p, rfl, rfl, rfl⟩
  · rw [if_neg hcached] at hread ⊢
    by_cases hlast : key.containerName.take p.core.lastContainerFileName.length =
        p.core.lastContainerFileName
    · rw [if_pos hlast] at hread ⊢
      obtain ⟨bytes, hcopy, hread⟩ := Run.except_bind_eq_ok.mp hread
      cases hread
      rw [hcopy]
      exact ⟨p, rfl, rfl, rfl⟩
    · rw [if_neg hlast] at hread ⊢
      obtain ⟨q', hload, hread⟩ := Run.except_bind_eq_ok.mp hread
      rw [Process.loadContainer] at hload ⊢
      dsimp only at hload
      rw [hsame hlast] at hload
      cases hfile : p.disk.containers
          (key.containerName.take p.core.lastContainerFileName.length) with
      | none =>
          rw [hfile] at hload
          cases hload
      | some bytes =>
          rw [hfile] at hload
          obtain ⟨container, hmemcpy, hload⟩ := Run.except_bind_eq_ok.mp hload
          cases hload
          obtain ⟨bytes', hcopy, hread⟩ := Run.except_bind_eq_ok.mp hread
          cases hread
          dsimp only at hcopy ⊢
          rw [hmemcpy, Run.ok_bind, Run.ok_bind, hcopy]
          exact ⟨_, rfl, rfl, rfl⟩

theorem Process.Backed.restoreChunk {hash data : Bytes} (h : p.Backed P)
    (hfew : P.closed.length < nameCount) (hdata : P.Holds hash data) :
    ∃ p', p.restoreChunk hash = .ok (data, p') ∧ p'.Backed P := by
  obtain ⟨f, hf⟩ := h.mirror
  obtain ⟨i, off, hat⟩ := hdata
  have hentry : p.disk.fp2ChunkDB hash = some ⟨containerName i, off, data.length⟩ :=
    (hf.disk.entries hash _).mpr ⟨i, off, data, hat, rfl⟩
  have hname : p.core.lastContainerFileName = containerName P.closed.length := hf.name
  have htake : (containerName i).take p.core.lastContainerFileName.length = containerName i := by
    rw [hname, length_containerName, ← length_containerName i, List.take_length]
  obtain ⟨q, hread, hq, _⟩ := hf.readContainer hfew hat
  have hsame : (containerName i).take p.core.lastContainerFileName.length ≠
      p.core.lastContainerFileName →
        f ((containerName i).take p.core.lastContainerFileName.length) =
          p.disk.containers ((containerName i).take p.core.lastContainerFileName.length) := by
    rw [htake]
    intro hlast
    have hclosed : i < P.closed.length := by
      refine Nat.lt_of_le_of_ne hat.le fun heq => hlast ?_
      rw [hname, heq]
    have hne : P.closed[i]? ≠ some [] := by
      obtain ⟨pre, post, hpack, _⟩ := hat
      rw [← P.packs_closed hclosed, hpack]
      simp
    exact (hf.disk.files i hclosed).trans (h.files i hclosed hne).symm
  obtain ⟨p', hread', hdisk, rfl⟩ := Process.readContainer_with hsame hread
  refine ⟨p', ?_, ⟨f, hq⟩, ?_⟩
  · rw [Process.restoreChunk, hentry]
    exact hread'
  · rw [hdisk]
    exact h.files

/-- What is restored is what is in the packing. -/
theorem Process.Backed.restores (h : p.Backed P) (hfew : P.closed.length < nameCount)
    {hash data : Bytes} : p.RestoresChunk hash data ↔ P.Holds hash data := by
  constructor
  · rintro ⟨p', hrun⟩
    obtain ⟨f, hf⟩ := h.mirror
    have hhas : P.Has hash := by
      by_contra hnot
      have hnone : p.disk.fp2ChunkDB hash = none := hf.disk.entry_none.mpr hnot
      rw [Process.restoreChunk, hnone] at hrun
      cases hrun
    obtain ⟨data', hdata'⟩ := Packs.has_iff_holds.mp hhas
    obtain ⟨p₁, hrun', _⟩ := h.restoreChunk hfew hdata'
    cases hrun.symm.trans hrun'
    exact hdata'
  · intro hdata
    obtain ⟨p', hrun, _⟩ := h.restoreChunk hfew hdata
    exact ⟨p', hrun⟩

/-! ## The next process -/

theorem Process.finish_ok {disk : Disk} (hfinish : p.finish = .ok disk) :
    disk = (p.disk.putConfig
      (p.core.lastContainerFileName, p.core.currentContainer.used)).putContainer
        p.core.lastContainerFileName
          (Buffer.read p.core.currentContainer.body 0 p.core.currentContainer.used) := by
  obtain ⟨p₁, hsave, hfinish⟩ := Run.except_bind_eq_ok.mp hfinish
  cases hfinish
  rw [Process.saveTOFile_ok hsave]

theorem Process.Backed.reopen {fresh : Nat → UInt8} {maxContainerSize : Nat} {disk : Disk}
    (hmax : maxContainerSize ≤ 2 ^ 24) (h : p.Backed P) (hfew : P.closed.length < nameCount)
    (hfinish : p.finish = .ok disk) (hstart : Process.start fresh maxContainerSize disk = .ok p') :
    p'.Backed P := by
  obtain ⟨f, hf⟩ := h.mirror
  have hname : p.core.lastContainerFileName = containerName P.closed.length := hf.name
  obtain ⟨disk', hfinish', hstored, _⟩ := hf.finish hfew
  obtain ⟨q, hq, hconsistent, _⟩ := hstored.start fresh hmax
  rw [Process.finish_ok hfinish] at hstart
  rw [Process.finish_ok hfinish'] at hq
  rw [Process.start] at hstart hq
  dsimp only [Disk.putContainer, Disk.putConfig, Process.withContainers] at hstart hq
  rw [Function.update_self] at hstart hq
  obtain ⟨container, hmemcpy, hstart⟩ := Run.except_bind_eq_ok.mp hstart
  obtain ⟨container', hmemcpy', hq⟩ := Run.except_bind_eq_ok.mp hq
  cases hmemcpy.symm.trans hmemcpy'
  cases hstart
  cases hq
  refine ⟨⟨_, hconsistent⟩, fun i hi hne => ?_⟩
  have hother : containerName i ≠ p.core.lastContainerFileName := fun heq =>
    Nat.ne_of_lt hi (containerName_inj (hi.trans hfew) hfew (heq.trans hname))
  exact (Function.update_of_ne hother ..).trans (h.files i hi hne)

end

/-! ## Runs -/

/-- What is done with a store. -/
inductive StoreOp where
  /-- A chunk is saved when its hash is not known. -/
  | save (opens inserts : Bool) (hash data : Bytes)
  /-- A chunk is read. -/
  | restore (hash : Bytes)
  /-- The process ends and the next one starts. -/
  | reopen (fresh : Nat → UInt8)

/-- An operation, and what it returns. -/
def Process.perform (p : Process) : StoreOp → Except Fault (Bool × Process)
  | .save opens inserts hash data =>
      match p.disk.fp2ChunkDB hash with
      | some _ => .ok (true, p)
      | none => p.trySaveChunk opens inserts hash data
  | .restore hash =>
      match p.restoreChunk hash with
      | .ok (_, p) => .ok (true, p)
      | .error .failed => .ok (false, p)
      | .error fault => .error fault
  | .reopen fresh => do
      let disk ← p.finish
      let p ← Process.start fresh p.core.maxContainerSize disk
      .ok (true, p)

/-- The operation is a `saveChunk` that cannot write the full container to its file. -/
def Process.FlushFails (p : Process) : StoreOp → Prop
  | .save opens _ hash data => opens = false ∧ p.Rotates hash data
  | _ => False

/-- When the container cannot be written, the insertion fails as well and nothing is given
up that is not in a file. -/
def Process.Harmless (p : Process) : StoreOp → Prop
  | .save opens inserts hash data =>
      opens = false → p.Rotates hash data → inserts = false ∧ p.Flushed
  | _ => True

/-- How often an operation rotates the container. -/
def Process.rotationOf (p : Process) : StoreOp → Nat
  | .save _ _ hash data => if p.Rotates hash data then 1 else 0
  | _ => 0

theorem Process.rotationOf_le (p : Process) (op : StoreOp) : p.rotationOf op ≤ 1 := by
  cases op with
  | save opens inserts hash data =>
      rw [rotationOf]
      split <;> simp
  | restore hash => simp [rotationOf]
  | reopen fresh => simp [rotationOf]

/-- Operations that are harmless, with the count of rotations. -/
inductive HarmlessRun : Process → Nat → Process → Prop where
  | refl (p : Process) : HarmlessRun p 0 p
  | step {p p' p'' : Process} {n : Nat} {op : StoreOp} {returned : Bool} :
      HarmlessRun p n p' → p'.Harmless op → p'.perform op = .ok (returned, p'') →
      HarmlessRun p (n + p'.rotationOf op) p''

/-- A harmless operation keeps what is in the packing. -/
theorem Process.Backed.perform {p p' : Process} {P : Chunks} {op : StoreOp} {returned : Bool}
    (h : p.Backed P) (hfew : P.closed.length < nameCount) (hharmless : p.Harmless op)
    (hrun : p.perform op = .ok (returned, p')) :
    ∃ P' : Chunks, p'.Backed P' ∧ P'.closed.length = P.closed.length + p.rotationOf op ∧
      ∀ k d, P.Holds k d → P'.Holds k d := by
  cases op with
  | save opens inserts hash data =>
      cases hfind : p.disk.fp2ChunkDB hash with
      | some key =>
          rw [Process.perform, hfind] at hrun
          cases hrun
          have hstays : ¬ p.Rotates hash data := by simp [Process.Rotates, hfind]
          exact ⟨P, h, by rw [Process.rotationOf, if_neg hstays]; rfl, fun k d => id⟩
      | none =>
          rw [Process.perform, hfind] at hrun
          obtain ⟨P', hbacked, hlen, hholds⟩ := h.trySaveChunk hfew hfind
            (fun hfits hopens => (hharmless hopens ⟨hfind, hfits⟩).2) hrun
          refine ⟨P', hbacked, ?_, hholds⟩
          rw [hlen, Process.rotationOf]
          simp [Process.Rotates, hfind]
  | restore hash =>
      refine ⟨P, ?_, rfl, fun k d => id⟩
      rw [Process.perform] at hrun
      cases hread : p.restoreChunk hash with
      | error fault =>
          rw [hread] at hrun
          cases fault with
          | failed =>
              cases hrun
              exact h
          | undefined => cases hrun
          | hangs => cases hrun
      | ok found =>
          obtain ⟨data, p₁⟩ := found
          rw [hread] at hrun
          cases hrun
          obtain ⟨p₂, hread', hbacked⟩ := h.restoreChunk hfew ((h.restores hfew).mp ⟨_, hread⟩)
          cases hread.symm.trans hread'
          exact hbacked
  | reopen fresh =>
      obtain ⟨disk, hfinish, hrun⟩ := Run.except_bind_eq_ok.mp hrun
      obtain ⟨p₁, hstart, hrun⟩ := Run.except_bind_eq_ok.mp hrun
      cases hrun
      obtain ⟨f, hf⟩ := h.mirror
      exact ⟨P, h.reopen hf.maxSize hfew hfinish hstart, rfl, fun k d => id⟩

theorem Process.Backed.run {p p' : Process} {P : Chunks} {n : Nat} (h : p.Backed P)
    (hrun : HarmlessRun p n p') (hfew : P.closed.length + n < nameCount) :
    ∃ P' : Chunks, p'.Backed P' ∧ P'.closed.length = P.closed.length + n ∧
      ∀ k d, P.Holds k d → P'.Holds k d := by
  induction hrun with
  | refl => exact ⟨P, h, rfl, fun k d => id⟩
  | step _ hharmless hperform ih =>
      obtain ⟨P₁, hbacked₁, hlen₁, hholds₁⟩ := ih (by omega)
      obtain ⟨P₂, hbacked₂, hlen₂, hholds₂⟩ := hbacked₁.perform (by omega) hharmless hperform
      refine ⟨P₂, hbacked₂, by omega, fun k d hd => hholds₂ k d (hholds₁ k d hd)⟩

/-- A harmless flush that fails is reported. -/
theorem Process.Backed.reported {p : Process} {P : Chunks} (h : p.Backed P) {opens inserts : Bool}
    {hash data : Bytes}
    (hsize : data.length ≤ bodySize) (hfails : p.FlushFails (.save opens inserts hash data))
    (hharmless : p.Harmless (.save opens inserts hash data)) :
    ∃ q, p.perform (.save opens inserts hash data) = .ok (false, q) := by
  obtain ⟨rfl, hunknown, hfits⟩ := hfails
  obtain ⟨rfl, _⟩ := hharmless rfl ⟨hunknown, hfits⟩
  obtain ⟨f, hf⟩ := h.mirror
  have hname : p.nextContainer.core.lastContainerFileName =
      containerName (P.closed.length + 1) := by
    rw [containerName_succ]
    exact congrArg Permute.step hf.name
  have hshort : ¬ containerNameSize < p.nextContainer.core.lastContainerFileName.length := by
    rw [hname, length_containerName]
    decide
  have hplace : ∃ placed, p.nextContainer.place data = .ok placed := by
    have hroom : 0 + data.length ≤ bodySize := (Nat.zero_add _).trans_le hsize
    rw [Process.place]
    change ∃ placed, (p.nextContainer.core.currentContainer.memcpy 0 data >>= _) = .ok placed
    rw [Container.memcpy_ok _ hroom, Run.ok_bind]
    dsimp only
    rw [if_neg hshort]
    exact ⟨_, rfl⟩
  obtain ⟨placed, hplace⟩ := hplace
  refine ⟨placed.1, ?_⟩
  rw [Process.perform, hunknown]
  dsimp only
  rw [Process.trySaveChunk, Process.tryMakeRoom, if_neg hfits]
  change (p.nextContainer.place data >>= _) = _
  rw [hplace]
  rfl

/-- In a run of harmless operations a failed flush is reported, and no chunk is ever lost
that could be restored before. -/
theorem failed_flush_loses_nothing {fresh : Nat → UInt8} {maxContainerSize : Nat}
    (hmax : maxContainerSize ≤ 2 ^ 24) {p₀ p p' : Process} {m n : Nat}
    (hstart : Process.start fresh maxContainerSize .empty = .ok p₀)
    (hreach : HarmlessRun p₀ m p) (hlater : HarmlessRun p n p')
    (hfew : m + n < Nat.factorial 15) :
    (∀ op returned q, p.FlushFails op → p.Harmless op → p.perform op = .ok (returned, q) →
      returned = false) ∧
    (∀ opens inserts hash data, data.length ≤ bodySize →
      p.FlushFails (.save opens inserts hash data) → p.Harmless (.save opens inserts hash data) →
        ∃ q, p.perform (.save opens inserts hash data) = .ok (false, q)) ∧
    ∀ hash data, p.RestoresChunk hash data → p'.RestoresChunk hash data := by
  obtain ⟨p₁, hstart', hconsistent, _⟩ := Disk.stored_empty.start fresh hmax
  cases hstart.symm.trans hstart'
  have hzero : (Packs.empty : Chunks).closed.length = 0 := rfl
  obtain ⟨P, hbacked, hlen, _⟩ := hconsistent.backed.run hreach (by rw [nameCount]; omega)
  obtain ⟨P', hbacked', hlen', hholds⟩ := hbacked.run hlater (by rw [nameCount]; omega)
  refine ⟨fun op returned q hfails hharmless hperform => ?_,
    fun _ _ _ _ hsize hfails hharmless => hbacked.reported hsize hfails hharmless,
    fun hash data hrestores => ?_⟩
  · cases op with
    | save opens inserts hash data =>
        obtain ⟨rfl, hunknown, hfits⟩ := hfails
        obtain ⟨rfl, _⟩ := hharmless rfl ⟨hunknown, hfits⟩
        rw [Process.perform, hunknown] at hperform
        obtain ⟨p₂, _, hperform⟩ := Run.except_bind_eq_ok.mp hperform
        obtain ⟨⟨p₃, key⟩, _, hperform⟩ := Run.except_bind_eq_ok.mp hperform
        cases hperform
        rfl
    | restore hash => cases hfails
    | reopen fresh => cases hfails
  · rw [hbacked.restores (by rw [nameCount]; omega)] at hrestores
    rw [hbacked'.restores (by rw [nameCount]; omega)]
    exact hholds hash data hrestores

/-- Directly after a restart the open container is in its file, and a failed flush whose
insertion fails too loses nothing. -/
theorem failed_flush_loses_nothing_restarted :
    ∃ p q : Process, p.FlushFails (.save false false [2] [4, 5]) ∧
      p.perform (.save false false [2] [4, 5]) = .ok (false, q) ∧ q.RestoresChunk [1] [1, 2, 3] := by
  have hruns : ∃ p₀ p₁ p q, Process.start 0 4 .empty = .ok p₀ ∧
      p₀.perform (.save true true [1] [1, 2, 3]) = .ok (true, p₁) ∧
      p₁.perform (.reopen 0) = .ok (true, p) ∧
      p.perform (.save false false [2] [4, 5]) = .ok (false, q) ∧
      p.Rotates [2] [4, 5] ∧ p.Flushed ∧ p.RestoresChunk [1] [1, 2, 3] :=
    ⟨_, _, _, _, rfl, rfl, rfl, rfl, by decide, Or.inr rfl, _, rfl⟩
  obtain ⟨p₀, p₁, p, q, hstart, hsave, hreopen, hfail, hrotates, hflushed, hrestores⟩ := hruns
  have hreach := ((HarmlessRun.refl p₀).step (by simp [Process.Harmless]) hsave).step
    (by simp [Process.Harmless]) hreopen
  have hharmless : p.Harmless (.save false false [2] [4, 5]) := fun _ _ => ⟨rfl, hflushed⟩
  have hlater := (HarmlessRun.refl p).step hharmless hfail
  have hfew : 0 + p₀.rotationOf (.save true true [1] [1, 2, 3]) + p₁.rotationOf (.reopen 0) +
      (0 + p.rotationOf (.save false false [2] [4, 5])) < Nat.factorial 15 := by
    have h₀ := p₀.rotationOf_le (.save true true [1] [1, 2, 3])
    have h₁ := p₁.rotationOf_le (.reopen 0)
    have h₂ := p.rotationOf_le (.save false false [2] [4, 5])
    have hmany : 3 < Nat.factorial 15 := by decide
    omega
  have hkeeps := failed_flush_loses_nothing (by simp) hstart hreach hlater hfew
  exact ⟨p, q, ⟨rfl, hrotates⟩, hfail, hkeeps.2.2 [1] [1, 2, 3] hrestores⟩

/-- A container that was not restarted is given up: `saveChunk` returns `true`, and the chunk
in it is lost. -/
theorem flushed_chunk_lost :
    ∃ p₀ p q, Process.start 0 4 .empty = .ok p₀ ∧
      p₀.perform (.save true true [1] [1, 2, 3]) = .ok (true, p) ∧
      p.FlushFails (.save false true [2] [4, 5]) ∧
      p.perform (.save false true [2] [4, 5]) = .ok (true, q) ∧
      p.RestoresChunk [1] [1, 2, 3] ∧ ¬ q.RestoresChunk [1] [1, 2, 3] := by
  refine ⟨_, _, _, rfl, rfl, ⟨rfl, by decide⟩, rfl, ⟨_, rfl⟩, ?_⟩
  rintro ⟨q', hread⟩
  cases hread

end Dedup
