import JpegStorage.Dedup.Blocks
import JpegStorage.Dedup.ChunkKey

/-!
# Uploading a file

`varSizeChunking` saves each chunk as soon as it is cut off and keeps an entry for the
recipe.  What it cuts off is `Chunker.chunks` (`varSizeChunking_eq`), whatever the size
of the blocks the file is read in, as long as an `int` holds the size of a block.
-/

namespace Dedup

/-- What memory holds before the program writes to it. -/
structure Memory where
  /-- The body of a container. -/
  body : Nat → UInt8
  /-- `winFp`. -/
  winFp : UInt16
  /-- `tempChunk.chunk.encryptKey`. -/
  encryptKey : Nat → Hash
  /-- The memory behind `hash`. -/
  afterHash : Nat → Bytes

/-- Memory that is zero. -/
def zeroMemory : Memory := ⟨fun _ => 0, 0, fun _ => Vector.replicate 32 0, fun _ => [0]⟩

/-- What the chunker has saved. -/
structure Saving where
  /-- `chunkIDCnt`. -/
  chunkIDCnt : Nat
  /-- `recipeList`. -/
  recipeList : List RecipeEntry
  /-- `storageObj_` and the databases. -/
  storage : Process

/-- A chunk is cut off.  The source has this three times: at an anchor, at
`maxChunkSize` and for the final chunk. -/
def Saving.emit (sha256 : Bytes → Hash) (memory : Memory) (data : Bytes) (saving : Saving) :
    Except Fault Saving :=
  if maxChunkSize < data.length then .error .undefined
  else do
    let chunkID := saving.chunkIDCnt
    let hash := generateHash sha256 data
    let entry := savedEntry sha256 chunkID (memory.encryptKey chunkID) data
    let key ← savedKey hash (memory.afterHash chunkID)
    let storage ← saving.storage.dedupChunk key data
    .ok ⟨u64 (chunkID + 1), saving.recipeList ++ [entry], storage⟩

/-- Chunks that are cut off one after the other. -/
def Saving.emitAll (sha256 : Bytes → Hash) (memory : Memory) :
    List Bytes → Saving → Except Fault Saving
  | [], saving => .ok saving
  | data :: chunks, saving => do
      let saving ← saving.emit sha256 memory data
      saving.emitAll sha256 memory chunks

/-- The final chunk. -/
def Saving.emitFinal (sha256 : Bytes → Hash) (memory : Memory) (cutter : Cutter)
    (saving : Saving) : Except Fault Saving :=
  if cutter.chunkBuffer = [] then .ok saving else saving.emit sha256 memory cutter.chunkBuffer

namespace Chunker

/-- The loop body of `varSizeChunking`. -/
def putByte (sha256 : Bytes → Hash) (memory : Memory) (chunker : Chunker) (byte : UInt8)
    (cutter : Cutter) (saving : Saving) : Except Fault (Cutter × Saving) :=
  if chunker.maxChunkSize ≤ cutter.chunkBuffer.length then .error .undefined
  else
    match chunker.cutByte byte cutter with
    | (cutter, none) => .ok (cutter, saving)
    | (cutter, some chunk) => do
        let saving ← saving.emit sha256 memory chunk
        .ok (cutter, saving)

/-- The bytes of a block. -/
def putBytes (sha256 : Bytes → Hash) (memory : Memory) (chunker : Chunker) :
    Bytes → Cutter → Saving → Except Fault (Cutter × Saving)
  | [], cutter, saving => .ok (cutter, saving)
  | byte :: bytes, cutter, saving => do
      let (cutter, saving) ← chunker.putByte sha256 memory byte cutter saving
      chunker.putBytes sha256 memory bytes cutter saving

/-- The blocks of the file, until one is not full.  `len` is an `int`, and blocks of
no bytes have no end. -/
def readFile (sha256 : Bytes → Hash) (memory : Memory) (chunker : Chunker) :
    Nat → Bytes → Cutter → Saving → Nat → Except Fault (Cutter × Saving × Nat)
  | 0, _, _, _, _ => .error .hangs
  | fuel + 1, file, cutter, saving, fileSize => do
      let block := file.take chunker.readSize
      let len := i32 block.length
      let fileSize := u64 (fileSize + len)
      let (cutter, saving) ← chunker.putBytes sha256 memory (block.take len.toNat) cutter saving
      if block.length < chunker.readSize then .ok (cutter, saving, fileSize)
      else
        chunker.readFile sha256 memory fuel (file.drop chunker.readSize) cutter saving fileSize

/-- `varSizeChunking`. -/
def varSizeChunking (sha256 : Bytes → Hash) (memory : Memory) (chunker : Chunker)
    (fileNameHash : Hash) (file : Bytes) (p : Process) : Except Fault Process := do
  let (cutter, saving, fileSize) ←
    chunker.readFile sha256 memory (file.length + 1) file ⟨[], memory.winFp.toNat⟩ ⟨0, [], p⟩ 0
  let saving ← saving.emitFinal sha256 memory cutter
  let head : RecipeHead := ⟨fileSize, fileNameHash, saving.chunkIDCnt⟩
  let disk := saving.storage.disk.checkRecipeStatus ⟨head, head⟩ saving.recipeList
  .ok ⟨saving.storage.core, disk⟩

end Chunker

/-- `client -s`: the file is at the path `name`. -/
def upload (sha256 : Bytes → Hash) (memory : Memory) (config : Configure) (name file : Bytes)
    (disk : Disk) : Except Fault Disk := do
  let p ← Process.start memory.body config.maxContainerSize disk
  let chunker ← config.chunkerInit
  let p ← chunker.varSizeChunking sha256 memory (generateHash sha256 name) file p
  p.finish

/-! ## What is cut off is saved -/

theorem Saving.emitFinal_eq {sha256 : Bytes → Hash} {memory : Memory} (cutter : Cutter)
    (saving : Saving) :
    saving.emitFinal sha256 memory cutter = saving.emitAll sha256 memory cutter.final := by
  rw [Saving.emitFinal, Cutter.final]
  split
  · rfl
  · rw [Saving.emitAll]
    cases saving.emit sha256 memory cutter.chunkBuffer <;> rfl

theorem Saving.emitAll_append {sha256 : Bytes → Hash} {memory : Memory}
    (chunks chunks' : List Bytes) (saving : Saving) :
    saving.emitAll sha256 memory (chunks ++ chunks') =
      saving.emitAll sha256 memory chunks >>= Saving.emitAll sha256 memory chunks' := by
  induction chunks generalizing saving with
  | nil => rfl
  | cons data chunks ih =>
      rw [List.cons_append, Saving.emitAll, Saving.emitAll, bind_assoc]
      exact bind_congr fun saving => ih saving

namespace Chunker

section
variable {sha256 : Bytes → Hash} {memory : Memory} {chunker : Chunker} {cutter cutter' : Cutter}
  {chunks : List Bytes}

/-- The chunks cut off in a block are saved. -/
theorem putBytes_cutBytes {bytes : Bytes}
    (h : chunker.cutBytes bytes cutter = .ok (chunks, cutter')) (saving : Saving) :
    chunker.putBytes sha256 memory bytes cutter saving =
      saving.emitAll sha256 memory chunks >>= fun saving => .ok (cutter', saving) := by
  induction bytes generalizing cutter chunks saving with
  | nil =>
      cases h
      rfl
  | cons byte bytes ih =>
      obtain ⟨hroom, chunks', hrest, rfl⟩ := cutBytes_cons_ok h
      rw [putBytes, putByte, if_neg (Nat.not_le_of_lt hroom)]
      cases hcut : chunker.cutByte byte cutter with
      | mk cutter₁ chunk =>
          rw [hcut] at hrest
          cases chunk with
          | none => exact ih hrest saving
          | some data =>
              change (saving.emit sha256 memory data >>= fun saving => .ok (cutter₁, saving)) >>=
                _ = saving.emitAll sha256 memory ([data] ++ chunks') >>= _
              rw [bind_assoc, List.singleton_append, Saving.emitAll, bind_assoc]
              exact bind_congr fun saving => ih hrest saving

/-- The chunks cut off in a file are saved. -/
theorem readFile_cutBlocks {fuel : Nat} {file : Bytes} {fileSize fileSize' : Nat}
    (h : chunker.cutBlocks fuel file cutter fileSize = .ok (chunks, cutter', fileSize'))
    (saving : Saving) :
    chunker.readFile sha256 memory fuel file cutter saving fileSize =
      saving.emitAll sha256 memory chunks >>= fun saving =>
        .ok (cutter', saving, fileSize') := by
  induction fuel generalizing file cutter chunks saving fileSize with
  | zero => cases h
  | succ fuel ih =>
      rw [cutBlocks_succ] at h
      obtain ⟨⟨chunks₁, cutter₁⟩, hblock, h⟩ := Run.except_bind_eq_ok.mp h
      rw [readFile]
      simp only [putBytes_cutBytes hblock, bind_assoc]
      split at h
      next hlast =>
        cases h
        simp only [if_pos hlast]
        rfl
      next hmore =>
        obtain ⟨⟨chunks₂, cutter₂, fileSize₂⟩, hrest, h⟩ := Run.except_bind_eq_ok.mp h
        cases h
        simp only [if_neg hmore, Saving.emitAll_append, bind_assoc]
        exact bind_congr fun saving => ih hrest saving

/-- The chunks that are cut off are saved, and then the recipe with their number. -/
theorem varSizeChunking_chunksRead {file : Bytes} {fileSize : Nat}
    (h : chunker.chunksRead memory.winFp file = .ok (chunks, fileSize)) (fileNameHash : Hash)
    (p : Process) :
    chunker.varSizeChunking sha256 memory fileNameHash file p =
      Saving.emitAll sha256 memory chunks ⟨0, [], p⟩ >>= fun saving =>
        let head : RecipeHead := ⟨fileSize, fileNameHash, saving.chunkIDCnt⟩
        .ok ⟨saving.storage.core,
          saving.storage.disk.checkRecipeStatus ⟨head, head⟩ saving.recipeList⟩ := by
  obtain ⟨⟨chunks₁, cutter, fileSize₁⟩, hblocks, h⟩ := Run.except_bind_eq_ok.mp h
  cases h
  rw [varSizeChunking, readFile_cutBlocks hblocks]
  simp only [Saving.emitAll_append, Saving.emitFinal_eq, bind_assoc]
  rfl

end

/-- Blocks of no bytes have no end. -/
theorem readFile_hangs {sha256 : Bytes → Hash} {memory : Memory} {chunker : Chunker}
    (hzero : chunker.readSize = 0) (fuel : Nat) (file : Bytes) (cutter : Cutter) (saving : Saving)
    (fileSize : Nat) :
    chunker.readFile sha256 memory fuel file cutter saving fileSize = .error .hangs := by
  induction fuel generalizing file fileSize with
  | zero => rfl
  | succ fuel ih =>
      have hblock : file.take chunker.readSize = [] := by rw [hzero, List.take_zero]
      have hlast : ¬ ([] : Bytes).length < chunker.readSize := by
        rw [hzero]
        exact Nat.lt_irrefl 0
      rw [readFile, hblock]
      simp only [if_neg hlast]
      exact ih ..

/-- The chunks of the file are saved, and then its recipe. -/
theorem varSizeChunking_eq {sha256 : Bytes → Hash} {memory : Memory} {chunker : Chunker}
    (h : chunker.HasRoom) (hlow : 1 ≤ chunker.readSize) {file : Bytes}
    (hblocks : chunker.ShortBlocks file) (fileNameHash : Hash) (p : Process) :
    chunker.varSizeChunking sha256 memory fileNameHash file p =
      Saving.emitAll sha256 memory (chunker.chunks memory.winFp file) ⟨0, [], p⟩ >>= fun saving =>
        let head : RecipeHead := ⟨u64 file.length, fileNameHash, saving.chunkIDCnt⟩
        .ok ⟨saving.storage.core,
          saving.storage.disk.checkRecipeStatus ⟨head, head⟩ saving.recipeList⟩ := by
  refine varSizeChunking_chunksRead ?_ fileNameHash p
  have hempty : (⟨[], memory.winFp.toNat⟩ : Cutter).chunkBuffer.length < chunker.maxChunkSize :=
    h.pos
  rw [chunksRead_eq hlow hblocks, cutFile_eq h file hempty]
  rfl

end Chunker

theorem readSize_pos {sha256 : Bytes → Hash} {memory : Memory} {config : Configure}
    {chunker : Chunker} {name file : Bytes} {disk disk' : Disk}
    (hinit : config.chunkerInit = .ok chunker)
    (h : upload sha256 memory config name file disk = .ok disk') : 1 ≤ chunker.readSize := by
  refine Nat.pos_of_ne_zero fun hzero => ?_
  obtain ⟨p, _, hrest⟩ := Run.except_bind_eq_ok.mp h
  obtain ⟨chunker', hinit', hrest⟩ := Run.except_bind_eq_ok.mp hrest
  cases hinit.symm.trans hinit'
  obtain ⟨p', hchunking, _⟩ := Run.except_bind_eq_ok.mp hrest
  rw [Chunker.varSizeChunking, Chunker.readFile_hangs hzero] at hchunking
  cases hchunking

/-! ## What a process stores -/

/-- The memory behind the hash begins with a zero byte. -/
def Memory.Terminated (memory : Memory) : Prop := ∀ i, (memory.afterHash i).head? = some 0

/-- How often the container rotates while chunks are saved. -/
def Process.rotations (sha256 : Bytes → Hash) : List Bytes → Process → Nat
  | [], _ => 0
  | data :: chunks, p =>
      let hash := (generateHash sha256 data).toList
      (if p.Rotates hash data then 1 else 0) +
        match p.dedupChunk hash data with
        | .ok p => p.rotations sha256 chunks
        | .error _ => 0

theorem Process.rotations_le {sha256 : Bytes → Hash} (chunks : List Bytes) (p : Process) :
    p.rotations sha256 chunks ≤ chunks.length := by
  induction chunks generalizing p with
  | nil => exact Nat.le_refl 0
  | cons data chunks ih =>
      rw [Process.rotations, List.length_cons]
      cases p.dedupChunk (generateHash sha256 data).toList data with
      | error fault =>
          dsimp only
          split <;> omega
      | ok p' =>
          have hrest := ih p'
          dsimp only
          split <;> omega

/-- The packing holds chunks from a set, each with its hash. -/
def Chunks.Keyed (sha256 : Bytes → Hash) (S : Set Bytes) (P : Chunks) : Prop :=
  ∀ key data, P.Holds key data → data ∈ S ∧ key = (generateHash sha256 data).toList

/-- What is there after chunks are saved. -/
structure Saving.Extends (sha256 : Bytes → Hash) (chunks : List Bytes) (saving saving' : Saving)
    (P P' : Chunks) : Prop where
  /-- The store. -/
  consistent : saving'.storage.Consistent P'
  /-- The recipes and names are as before. -/
  catalog : saving'.storage.disk.catalog = saving.storage.disk.catalog
  /-- The containers that were closed. -/
  closed : P'.closed.length = P.closed.length + saving.storage.rotations sha256 chunks
  /-- The chunks are counted. -/
  count : saving'.chunkIDCnt = saving.chunkIDCnt + chunks.length
  /-- The chunks are described. -/
  entries : ∃ entries, saving'.recipeList = saving.recipeList ++ entries ∧
    List.Forall₂ (RecipeEntry.Describes sha256) entries chunks ∧
      entries.map RecipeEntry.chunkID = (List.range' saving.chunkIDCnt chunks.length).map u32
  /-- The chunks are stored. -/
  holds : ∀ key data, P'.Holds key data ↔
    P.Holds key data ∨ data ∈ chunks ∧ key = (generateHash sha256 data).toList

theorem savedEntry_describes (sha256 : Bytes → Hash) (chunkID : Nat) (encryptKey : Hash)
    {data : Bytes} (hsize : data.length ≤ maxChunkSize) :
    (savedEntry sha256 chunkID encryptKey data).Describes sha256 data where
  chunkID := u32_lt chunkID
  chunkSize := by
    rw [maxChunkSize] at hsize
    have hlt : (data.length : Int) < 2 ^ 31 := by omega
    rw [savedEntry, i32_of_fits (Int.natCast_nonneg _) hlt]
  chunkHash := rfl
  size := hsize

theorem Saving.emit_eq {sha256 : Bytes → Hash} {memory : Memory} (hmemory : memory.Terminated)
    {data : Bytes} (hsize : data.length ≤ maxChunkSize) (saving : Saving) :
    saving.emit sha256 memory data =
      saving.storage.dedupChunk (generateHash sha256 data).toList data >>= fun storage =>
        .ok ⟨u64 (saving.chunkIDCnt + 1), saving.recipeList ++
          [savedEntry sha256 saving.chunkIDCnt (memory.encryptKey saving.chunkIDCnt) data],
          storage⟩ := by
  rw [Saving.emit, if_neg (Nat.not_lt.mpr hsize)]
  simp only [savedKey_eq_hash.mpr (hmemory _)]
  rfl

/-- A chunk with a hash that is known is stored already. -/
theorem Chunks.Keyed.holds {sha256 : Bytes → Hash} {S : Set Bytes} {P P' : Chunks}
    (h : Chunks.Keyed sha256 S P) (hinj : Set.InjOn (generateHash sha256) S) {data : Bytes}
    (hdata : data ∈ S)
    (hP' : ∀ k d, P'.Holds k d ↔ P.Holds k d ∨
      ¬ P.Has (generateHash sha256 data).toList ∧ k = (generateHash sha256 data).toList ∧ d = data)
    (k d : Bytes) :
    P'.Holds k d ↔ P.Holds k d ∨ d = data ∧ k = (generateHash sha256 d).toList := by
  rw [hP']
  by_cases hhas : P.Has (generateHash sha256 data).toList
  · obtain ⟨old, hold⟩ := Packing.Packs.has_iff_holds.mp hhas
    obtain ⟨hS, hkey⟩ := h _ _ hold
    obtain rfl := hinj hdata hS (Vector.toList_inj.mp hkey)
    constructor
    · exact fun hor => hor.elim Or.inl fun hnew => absurd hhas hnew.1
    · rintro (hd | ⟨rfl, rfl⟩)
      · exact Or.inl hd
      · exact Or.inl hold
  · constructor
    · rintro (hd | ⟨_, rfl, rfl⟩)
      · exact Or.inl hd
      · exact Or.inr ⟨rfl, rfl⟩
    · rintro (hd | ⟨rfl, rfl⟩)
      · exact Or.inl hd
      · exact Or.inr ⟨hhas, rfl, rfl⟩

theorem Saving.emitAll_ok {sha256 : Bytes → Hash} {memory : Memory} (hmemory : memory.Terminated)
    {S : Set Bytes} (hinj : Set.InjOn (generateHash sha256) S) {chunks : List Bytes}
    (hchunks : ∀ data ∈ chunks, data ∈ S ∧ data.length ≤ maxChunkSize) {saving : Saving}
    {P : Chunks} (hp : saving.storage.Consistent P) (hkeyed : Chunks.Keyed sha256 S P)
    (hfew : P.closed.length + saving.storage.rotations sha256 chunks < nameCount)
    (hcount : saving.chunkIDCnt + chunks.length < 2 ^ 64) :
    ∃ saving' P', saving.emitAll sha256 memory chunks = .ok saving' ∧
      Saving.Extends sha256 chunks saving saving' P P' := by
  induction chunks generalizing saving P with
  | nil =>
      refine ⟨saving, P, rfl, hp, rfl, rfl, rfl, ⟨[], (List.append_nil _).symm, .nil, rfl⟩, ?_⟩
      exact fun key data => ⟨Or.inl, fun hor => hor.elim id nofun⟩
  | cons data chunks ih =>
      obtain ⟨hdata, hsize⟩ := hchunks data (List.mem_cons_self ..)
      have hfew' : P.closed.length < nameCount := by omega
      obtain ⟨p₁, P₁, hdedup, hp₁, hcatalog₁, hlen₁, hholds₁⟩ :=
        hp.dedupChunk hfew' (generateHash sha256 data).toList hsize
      have hadds := hkeyed.holds hinj hdata hholds₁
      have hkeyed₁ : Chunks.Keyed sha256 S P₁ := by
        intro key d hd
        rcases (hadds key d).mp hd with hold | ⟨rfl, hkey⟩
        · exact hkeyed key d hold
        · exact ⟨hdata, hkey⟩
      have hrotations : saving.storage.rotations sha256 (data :: chunks) =
          (if saving.storage.Rotates (generateHash sha256 data).toList data then 1 else 0) +
            p₁.rotations sha256 chunks := by
        rw [Process.rotations, hdedup]
      rw [hrotations] at hfew
      rw [List.length_cons] at hcount
      have hID : u64 (saving.chunkIDCnt + 1) = saving.chunkIDCnt + 1 := by
        rw [u64]
        omega
      let saving₁ : Saving := ⟨saving.chunkIDCnt + 1, saving.recipeList ++
        [savedEntry sha256 saving.chunkIDCnt (memory.encryptKey saving.chunkIDCnt) data], p₁⟩
      have hp₁' : saving₁.storage.Consistent P₁ := hp₁
      obtain ⟨saving₂, P₂, hrun, hextends⟩ := ih
        (fun d hd => hchunks d (List.mem_cons_of_mem _ hd)) hp₁' hkeyed₁
        (by rw [hlen₁]; dsimp only [saving₁]; omega) (by dsimp only [saving₁]; omega)
      refine ⟨saving₂, P₂, ?_, ?_⟩
      · rw [Saving.emitAll, Saving.emit_eq hmemory hsize, hdedup, hID]
        exact hrun
      · constructor
        case consistent => exact hextends.consistent
        case catalog => exact hextends.catalog.trans hcatalog₁
        case closed => rw [hextends.closed, hlen₁, hrotations, Nat.add_assoc]
        case count => rw [hextends.count, List.length_cons]; dsimp only [saving₁]; omega
        case entries =>
          obtain ⟨entries, hlist, hdescribes, hids⟩ := hextends.entries
          refine ⟨savedEntry sha256 saving.chunkIDCnt (memory.encryptKey saving.chunkIDCnt) data ::
            entries, ?_, .cons (savedEntry_describes sha256 _ _ hsize) hdescribes, ?_⟩
          · rw [hlist, List.append_assoc]
            rfl
          · rw [List.map_cons, hids, List.length_cons, List.range'_succ, List.map_cons]
            rfl
        case holds =>
          intro key d
          rw [hextends.holds, hadds, List.mem_cons]
          tauto

end Dedup
