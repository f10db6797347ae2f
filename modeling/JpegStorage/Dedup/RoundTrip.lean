import JpegStorage.Dedup.Fingerprint
import JpegStorage.Dedup.Library

/-!
# What is uploaded is restored

`Runs` is any sequence of processes, each of which uploads one file or restores one.
The disk is a library after each of them (`Runs.library`).  Restoring a name gives the
file of its first upload (`Library.ends`), so a name that is uploaded once gives its
file.
-/

namespace Dedup

/-- The chunks that are written, one behind the other.  It is what `recvThread` hands to
`retrieveFile_`, which `main` never closes. -/
def Restoring.written (s : Restoring) : Bytes := s.received.flatMap Chunk.logicData

/-- The disk after processes that uploaded these files, and how often they rotated
the container. -/
inductive Runs (sha256 : Bytes → Hash) : List Uploaded → Nat → Disk → Prop where
  | first : Runs sha256 [] 0 .empty
  | upload {uploads : List Uploaded} {rotations : Nat} {disk disk' : Disk} {config : Configure}
      {chunker : Chunker} {memory : Memory} {name file : Bytes} {p : Process} :
      Runs sha256 uploads rotations disk → Uploads config chunker memory file →
      Process.start memory.body config.maxContainerSize disk = .ok p →
      upload sha256 memory config name file disk = .ok disk' →
      Runs sha256 (uploads ++ [⟨name, file, chunker.chunks memory.winFp file⟩])
        (rotations + p.rotations sha256 (chunker.chunks memory.winFp file)) disk'
  | restore {uploads : List Uploaded} {rotations : Nat} {disk disk' : Disk} {config : Configure}
      {fresh : Nat → UInt8} {uninit : UInt64} {stackOf : Nat → Nat → UInt8} {name : Bytes}
      {p : Process} {s : Restoring} :
      Runs sha256 uploads rotations disk → config.Sound →
      Process.start fresh config.maxContainerSize disk = .ok p →
      Relation.ReflTransGen (Restoring.Step (recvDecode sha256 uninit config name disk) stackOf
        config.recvDecodeThreadLimit.toNat)
        (Restoring.start (recvDecode sha256 uninit config name disk) p) s →
      (∀ t < config.recvDecodeThreadLimit.toNat, s.decoders t = .returned) →
      s.received.length = u32 (recvDecode sha256 uninit config name disk).totalChunkNumber →
      s.storage.finish = .ok disk' → Runs sha256 uploads rotations disk'

section
variable {sha256 : Bytes → Hash} {uploads : List Uploaded} {rotations : Nat}
  {P : Packing.Packs Bytes UInt8} {disk : Disk}

theorem Library.of_keeps (h : Library sha256 uploads rotations P disk) (hfew : rotations < nameCount)
    {p : Process} (hp : p.Keeps P disk) {disk' : Disk} (hfinish : p.finish = .ok disk') :
    Library sha256 uploads rotations P disk' := by
  obtain ⟨disk'', hfinish', hstored, hcatalog⟩ := hp.1.finish (h.closed.trans_lt hfew)
  cases hfinish.symm.trans hfinish'
  rw [hp.2] at hcatalog
  refine ⟨hstored, h.closed, h.keyed, h.holds, h.files, fun name u hfirst => ?_,
    fun key hkey => (h.unknown key hkey).of_catalog hcatalog⟩
  obtain ⟨recipe, entries, hrecords⟩ := h.known name u hfirst
  exact ⟨recipe, entries, hrecords.of_catalog hcatalog⟩

theorem names_append (uploads : List Uploaded) (u : Uploaded) :
    names (uploads ++ [u]) = insert u.name (names uploads) := by
  ext name
  constructor
  · rintro ⟨v, hv, rfl⟩
    cases List.mem_append.mp hv with
    | inl hold => exact Set.mem_insert_of_mem _ ⟨v, hold, rfl⟩
    | inr hnew =>
        rw [List.mem_singleton.mp hnew]
        exact Set.mem_insert ..
  · intro hname
    cases hname with
    | inl heq => exact ⟨u, List.mem_append_right _ (List.mem_singleton_self _), heq.symm⟩
    | inr hold =>
        obtain ⟨v, hv, hname⟩ := hold
        exact ⟨v, List.mem_append_left _ hv, hname⟩

theorem Runs.library (h : Runs sha256 uploads rotations disk)
    (hchunks : Set.InjOn (generateHash sha256) (contents uploads))
    (hnames : Set.InjOn (generateHash sha256) (names uploads)) (hfew : rotations < nameCount) :
    ∃ P, Library sha256 uploads rotations P disk := by
  induction h with
  | first => exact ⟨.empty, Library.empty sha256⟩
  | @upload uploads rotations disk disk' config chunker memory name file p _ huploads hstart hrun
      ih =>
      rw [names_append] at hnames
      have hold : Set.InjOn (generateHash sha256) (contents uploads) := by
        rw [contents_append] at hchunks
        exact hchunks.mono Set.subset_union_left
      obtain ⟨P, hP⟩ := ih hold (hnames.mono (Set.subset_insert ..)) (by omega)
      obtain ⟨disk'', P', hrun', hP'⟩ := hP.upload name huploads (readSize_pos huploads.init hrun)
        hstart hchunks hnames hfew
      cases hrun.symm.trans hrun'
      exact ⟨P', hP'⟩
  | @restore uploads rotations disk disk' config fresh uninit stackOf name p s _ hsound hstart hrun
      _ _ hfinish ih =>
      obtain ⟨P, hP⟩ := ih hchunks hnames hfew
      have hclosed := hP.closed.trans_lt hfew
      obtain ⟨p', hstart', hp, hdisk⟩ := hP.stored.start fresh hsound.container
      cases hstart.symm.trans hstart'
      have hs : s.storage.Keeps P disk :=
        Restoring.steps_kept (Process.Keeps.kept hclosed _) ⟨hp, hdisk⟩ hrun
      exact ⟨P, hP.of_keeps hfew hs hfinish⟩

/-- A process that restores a name writes the file of its first upload, and ends. -/
theorem Library.restores (h : Library sha256 uploads rotations P disk)
    (hfew : rotations < nameCount) {name : Bytes} {u : Uploaded}
    (hfirst : firstUpload uploads name = some u) {config : Configure} (hsound : config.Sound)
    (fresh : Nat → UInt8) (uninit : UInt64) (stackOf : Nat → Nat → UInt8) :
    ∃ p, Process.start fresh config.maxContainerSize disk = .ok p ∧
      Ends (Restoring.Step (recvDecode sha256 uninit config name disk) stackOf
          config.recvDecodeThreadLimit.toNat)
        (fun s => s.written = u.file ∧
          (∀ t < config.recvDecodeThreadLimit.toNat, s.decoders t = .returned) ∧
            ∃ disk', s.storage.finish = .ok disk')
        (Restoring.start (recvDecode sha256 uninit config name disk) p) := by
  obtain ⟨entries, hstores, _⟩ := h.storesFile hfew hfirst
  obtain ⟨p, hstart, hp, hdisk⟩ := h.stored.start fresh hsound.container
  have hbatch : i32 config.sendChunkBatchSize ≠ 0 := by
    have hlow := hsound.batch
    omega
  have hone : config.recvDecodeThreadLimit.toNat = 1 := by
    rw [hsound.threads]
    rfl
  have hpos : 0 < config.recvDecodeThreadLimit.toNat := hone ▸ Nat.one_pos
  have hends : Ends (Restoring.Step (recvDecode sha256 uninit config name disk) stackOf
      config.recvDecodeThreadLimit.toNat) _ _ :=
    hstores.ends (Or.inl hbatch) ⟨hp, hdisk⟩ hpos (Or.inl hone)
  refine ⟨p, hstart, hends.mono fun s _ hdone => ⟨?_, hdone.returned, ?_⟩⟩
  · have hu : u ∈ uploads := List.mem_of_find?_eq_some hfirst
    rw [Restoring.written, hdone.received, List.flatMap_def,
      logicData_restoredChunks hstores.describes, h.files u hu]
  · obtain ⟨disk', hfinish, _⟩ := hdone.storage.1.finish hstores.few
    exact ⟨disk', hfinish⟩

theorem firstUpload_of_nodup (honce : (uploads.map Uploaded.name).Nodup) {u : Uploaded}
    (hu : u ∈ uploads) : firstUpload uploads u.name = some u := by
  induction uploads with
  | nil => cases hu
  | cons v uploads ih =>
      rw [List.map_cons, List.nodup_cons] at honce
      rw [firstUpload, List.find?_cons]
      cases List.mem_cons.mp hu with
      | inl heq => simp [heq]
      | inr hlater =>
          have hne : v.name ≠ u.name := fun heq =>
            honce.1 (heq ▸ List.mem_map_of_mem hlater)
          simp only [hne, decide_false]
          exact ih honce.2 hlater

/-- In every sequence of processes each name is restored as it was uploaded, when every
name is uploaded once. -/
theorem uploaded_restored (hruns : Runs sha256 uploads rotations disk)
    (honce : (uploads.map Uploaded.name).Nodup)
    (hchunks : Set.InjOn (generateHash sha256) (contents uploads))
    (hnames : Set.InjOn (generateHash sha256) (names uploads)) (hfew : rotations < nameCount)
    {config : Configure} (hsound : config.Sound) (fresh : Nat → UInt8) (uninit : UInt64)
    (stackOf : Nat → Nat → UInt8) :
    ∀ u ∈ uploads, ∃ p, Process.start fresh config.maxContainerSize disk = .ok p ∧
      Ends (Restoring.Step (recvDecode sha256 uninit config u.name disk) stackOf
          config.recvDecodeThreadLimit.toNat)
        (fun s => s.written = u.file ∧
          (∀ t < config.recvDecodeThreadLimit.toNat, s.decoders t = .returned) ∧
            ∃ disk', s.storage.finish = .ok disk')
        (Restoring.start (recvDecode sha256 uninit config u.name disk) p) := by
  intro u hu
  obtain ⟨P, hlibrary⟩ := hruns.library hchunks hnames hfew
  exact hlibrary.restores hfew (firstUpload_of_nodup honce hu) hsound fresh uninit stackOf

end

/-! ## Uploads of the name `abc` -/

theorem configJson_sound : configJson.Sound where
  window := by decide
  min := by decide
  average := by decide
  max := by decide
  container := by decide
  batch := by decide
  threads := rfl

/-- The chunker of `config.json`. -/
def chunkerJson : Chunker := ⟨4096, 16384, 256, 134217728, 8191⟩

theorem chunkerInit_configJson : configJson.chunkerInit = .ok chunkerJson := by
  rw [configJson, chunkerJson]
  rfl

/-- A short file is one chunk, or none. -/
theorem chunks_chunkerJson {file : Bytes} (hlen : file.length ≤ 4096) :
    chunkerJson.chunks zeroMemory.winFp file = if file = [] then [] else [file] :=
  Chunker.chunks_short hlen (by decide)

theorem uploads_configJson {file : Bytes} (hlen : file.length ≤ 4096) :
    Uploads configJson chunkerJson zeroMemory file where
  sound := configJson_sound
  init := chunkerInit_configJson
  terminated := fun _ => rfl
  blocks := (Nat.min_le_right ..).trans_lt (by omega)
  count := by
    rw [chunks_chunkerJson hlen]
    split
    · decide
    · exact (List.length_singleton).trans_lt (by decide)

/-- A library of files that are at most the chunk `abc`, all of the name `abc`. -/
structure LibraryABC (uploads : List Uploaded) (rotations : Nat) (P : Packing.Packs Bytes UInt8)
    (disk : Disk) : Prop where
  /-- The processes. -/
  runs : Runs (fun _ => digestABC) uploads rotations disk
  /-- The disk after them. -/
  library : Library (fun _ => digestABC) uploads rotations P disk
  /-- The chunk. -/
  contents : contents uploads ⊆ {[97, 98, 99]}
  /-- The name. -/
  names : names uploads ⊆ {[97, 98, 99]}

theorem injOn_singleton {S : Set Bytes} {data : Bytes} (h : S ⊆ {data}) :
    Set.InjOn (generateHash fun _ => digestABC) S :=
  (Set.subsingleton_singleton.anti h).injOn _

theorem LibraryABC.empty : LibraryABC [] 0 .empty .empty where
  runs := .first
  library := Library.empty _
  contents := by
    rintro data ⟨u, hu, _⟩
    cases hu
  names := by
    rintro name ⟨u, hu, _⟩
    cases hu

theorem LibraryABC.upload {uploads : List Uploaded} {rotations : Nat}
    {P : Packing.Packs Bytes UInt8} {disk : Disk} (h : LibraryABC uploads rotations P disk)
    (hfew : rotations + 1 < nameCount) {file : Bytes} (hfile : file = [] ∨ file = [97, 98, 99]) :
    ∃ rotations' P' disk', rotations' ≤ rotations + 1 ∧
      LibraryABC (uploads ++ [⟨[97, 98, 99], file, if file = [] then [] else [file]⟩])
        rotations' P' disk' := by
  have hlen : file.length ≤ 4096 := by
    rcases hfile with rfl | rfl <;> decide
  have huploads := uploads_configJson hlen
  obtain ⟨p, hstart, _⟩ := h.library.stored.start zeroMemory.body configJson_sound.container
  have hcontents : Dedup.contents
      (uploads ++ [⟨[97, 98, 99], file, chunkerJson.chunks zeroMemory.winFp file⟩]) ⊆
        {[97, 98, 99]} := by
    rw [contents_append, chunks_chunkerJson hlen]
    refine Set.union_subset h.contents fun data hdata => ?_
    rcases hfile with rfl | rfl
    · cases hdata
    · exact List.mem_singleton.mp hdata
  have hnames : insert [97, 98, 99] (Dedup.names uploads) ⊆ {[97, 98, 99]} :=
    Set.insert_subset rfl h.names
  have hrotations : p.rotations (fun _ => digestABC) (chunkerJson.chunks zeroMemory.winFp file) ≤
      1 := by
    refine (Process.rotations_le _ p).trans ?_
    rw [chunks_chunkerJson hlen]
    split
    · exact Nat.zero_le _
    · exact Nat.le_refl _
  obtain ⟨disk', P', hrun, hlibrary⟩ := h.library.upload [97, 98, 99] huploads (by decide) hstart
    (injOn_singleton hcontents) (injOn_singleton hnames) (by omega)
  have hruns := Runs.upload h.runs huploads hstart hrun
  rw [← names_append _ ⟨[97, 98, 99], file, chunkerJson.chunks zeroMemory.winFp file⟩] at hnames
  rw [chunks_chunkerJson hlen] at hlibrary hruns hcontents hnames hrotations
  exact ⟨_, P', disk', by omega, hruns, hlibrary, hcontents, hnames⟩

/-- The file `abc` is restored from its two chunks. -/
theorem uploaded_restored_abc :
    ∃ rotations disk p, Runs headHash [⟨[97], [97, 98, 99], [[97, 98], [99]]⟩] rotations disk ∧
      Process.start 0 evenConfigure.maxContainerSize disk = .ok p ∧
        Ends (Restoring.Step (recvDecode headHash 0 evenConfigure [97] disk) (fun _ _ => 0) 1)
          (fun s => s.written = [97, 98, 99] ∧ (∀ t < 1, s.decoders t = .returned) ∧
            ∃ disk', s.storage.finish = .ok disk')
          (Restoring.start (recvDecode headHash 0 evenConfigure [97] disk) p) := by
  obtain ⟨p₀, disk, P, hstart₀, hrotations, hupload, _⟩ := upload_abcInTwo
  have hruns := Runs.first.upload uploads_abcInTwo hstart₀ hupload
  rw [chunks_abcInTwo, Nat.zero_add, List.nil_append] at hruns
  obtain ⟨p, hstart, hends⟩ := uploaded_restored hruns (by decide) injOn_contents_abcInTwo
    injOn_names_abcInTwo (hrotations.trans_lt (by decide)) evenConfigure_sound 0 0 (fun _ _ => 0) _
    (List.mem_singleton_self _)
  exact ⟨_, disk, p, hruns, hstart, hends⟩

/-! ## A block that is too long -/

/-- The length of the block is negative in an `int`, and none of its bytes is used. -/
theorem Chunker.readFile_long {sha256 : Bytes → Hash} {memory : Memory} {chunker : Chunker}
    (hsize : chunker.readSize = 2 ^ 31) {file : Bytes} (hlen : file.length = 2 ^ 31)
    (cutter : Cutter) (saving : Saving) :
    ∃ fileSize, chunker.readFile sha256 memory (file.length + 1) file cutter saving 0 =
      .ok (cutter, saving, u64 fileSize) := by
  have htake : file.take chunker.readSize = file := by
    rw [hsize, ← hlen, List.take_length]
  have hdrop : file.drop chunker.readSize = [] := by
    rw [hsize, ← hlen, List.drop_length]
  have hnegative : (i32 file.length).toNat = 0 := by
    rw [hlen]
    decide
  have hfull : ¬ file.length < chunker.readSize := by
    rw [hsize, hlen]
    exact Nat.lt_irrefl _
  have hlow : 1 ≤ chunker.readSize := by
    rw [hsize]
    exact Nat.one_le_two_pow
  have hblocks : chunker.ShortBlocks [] := (Nat.min_le_right ..).trans_lt (Nat.two_pow_pos 31)
  have hfuel : ([] : Bytes).length < file.length := by
    rw [hlen]
    exact Nat.two_pow_pos 31
  rw [Chunker.readFile, htake, hnegative, List.take_zero]
  simp only [if_neg hfull, hdrop]
  change ∃ fileSize, chunker.readFile sha256 memory file.length [] cutter saving _ = _
  exact ⟨_, Chunker.readFile_cutBlocks (Chunker.cutBlocks_eq hlow hblocks hfuel ..) saving⟩

/-- `config.json` with blocks of 2048 megabytes. -/
def longBlocks : Configure := ⟨8192, 4096, 16384, 256, 2048, 1000, 1, 8388608⟩

theorem longBlocks_sound : longBlocks.Sound :=
  ⟨configJson_sound.window, configJson_sound.min, configJson_sound.average, configJson_sound.max,
    configJson_sound.container, configJson_sound.batch, configJson_sound.threads⟩

theorem chunkerInit_longBlocks : longBlocks.chunkerInit =
    .ok ⟨4096, 16384, 256, 2147483648, 8191⟩ := by
  rw [longBlocks]
  rfl

/-- A file of two gigabytes is stored as an empty file. -/
theorem upload_longBlocks {file : Bytes} (hlen : file.length = 2 ^ 31) :
    ∃ disk, upload (fun _ => digestABC) zeroMemory longBlocks [97, 98, 99] file .empty = .ok disk ∧
      Library (fun _ => digestABC) [⟨[97, 98, 99], [], []⟩] 0 .empty disk := by
  have hlibrary := LibraryABC.empty.library
  obtain ⟨p, hstart, hp, hdisk⟩ := hlibrary.stored.start zeroMemory.body longBlocks_sound.container
  have hread : ∃ fileSize, Chunker.readFile (fun _ => digestABC) zeroMemory
      ⟨4096, 16384, 256, 2147483648, 8191⟩ (file.length + 1) file
        ⟨[], zeroMemory.winFp.toNat⟩ ⟨0, [], p⟩ 0 =
      .ok (⟨[], zeroMemory.winFp.toNat⟩, ⟨0, [], p⟩, u64 fileSize) :=
    Chunker.readFile_long rfl hlen _ _
  obtain ⟨fileSize, hread⟩ := hread
  have hextends : Saving.Extends (fun _ => digestABC) [] ⟨0, [], p⟩ ⟨0, [], p⟩ .empty .empty := by
    refine ⟨hp, rfl, rfl, rfl, ⟨[], rfl, .nil, rfl⟩, fun key data => ⟨Or.inl, ?_⟩⟩
    exact fun hor => hor.elim id nofun
  have hnames : insert [97, 98, 99] (names []) ⊆ {[97, 98, 99]} :=
    Set.insert_subset rfl LibraryABC.empty.names
  have hfew : 0 + p.rotations (fun _ => digestABC) [] < nameCount := by
    rw [Process.rotations]
    decide
  let head : RecipeHead := ⟨u64 fileSize, generateHash (fun _ => digestABC) [97, 98, 99], 0⟩
  obtain ⟨disk, hfinish, hlibrary'⟩ := hlibrary.finish_upload (u := ⟨[97, 98, 99], [], []⟩) rfl
    hdisk hextends (injOn_singleton hnames) (by decide) hfew head rfl (u64_lt fileSize) rfl
  refine ⟨disk, ?_, hlibrary'⟩
  have hchunking : Chunker.varSizeChunking (fun _ => digestABC) zeroMemory
      ⟨4096, 16384, 256, 2147483648, 8191⟩ (generateHash (fun _ => digestABC) [97, 98, 99]) file p =
        .ok ⟨p.core, p.disk.checkRecipeStatus ⟨head, head⟩ []⟩ := by
    rw [Chunker.varSizeChunking, hread]
    rfl
  exact Run.except_bind_eq_ok.mpr ⟨p, hstart, Run.except_bind_eq_ok.mpr
    ⟨_, chunkerInit_longBlocks, Run.except_bind_eq_ok.mpr ⟨_, hchunking, hfinish⟩⟩⟩

/-- It is not restored. -/
theorem long_block_lost :
    ∃ disk p, longBlocks.Sound ∧
      upload (fun _ => digestABC) zeroMemory longBlocks [97, 98, 99] (List.replicate (2 ^ 31) 7)
        .empty = .ok disk ∧
      Process.start 0 longBlocks.maxContainerSize disk = .ok p ∧
        Ends (Restoring.Step (recvDecode (fun _ => digestABC) 0 longBlocks [97, 98, 99] disk)
            (fun _ _ => 0) 1)
          (fun s => s.written ≠ List.replicate (2 ^ 31) 7)
          (Restoring.start (recvDecode (fun _ => digestABC) 0 longBlocks [97, 98, 99] disk) p) := by
  have hfirst : firstUpload [⟨[97, 98, 99], [], []⟩] [97, 98, 99] =
      some ⟨[97, 98, 99], [], []⟩ := rfl
  obtain ⟨disk, hrun, hlibrary⟩ := upload_longBlocks (List.length_replicate (n := 2 ^ 31) (a := 7))
  obtain ⟨p, hstart, hends⟩ := hlibrary.restores (by decide) hfirst longBlocks_sound 0 0
    fun _ _ => 0
  refine ⟨disk, p, longBlocks_sound, hrun, hstart, Ends.mono hends fun s _ hs heq => ?_⟩
  have hlen : s.written.length = 0 := congrArg List.length hs.1
  rw [heq, List.length_replicate] at hlen
  exact (Nat.two_pow_pos 31).ne' hlen

/-! ## A name that is uploaded again -/

/-- The first upload of a name is the one that is restored: the head of the recipe and as
many entries as it says describe it. -/
theorem first_upload_restored {sha256 : Bytes → Hash} {uploads : List Uploaded} {rotations : Nat}
    {disk : Disk} (hruns : Runs sha256 uploads rotations disk)
    (hchunks : Set.InjOn (generateHash sha256) (contents uploads))
    (hnames : Set.InjOn (generateHash sha256) (names uploads)) (hfew : rotations < nameCount)
    {name : Bytes} {u : Uploaded} (hfirst : firstUpload uploads name = some u)
    {config : Configure} (hsound : config.Sound) (fresh : Nat → UInt8) (uninit : UInt64)
    (stackOf : Nat → Nat → UInt8) :
    (∃ recipe entries bytes,
      disk.restoreRecipeHead (generateHash sha256 name).toList = .ok recipe ∧
        recipe.fileRecipeHead.totalChunkNumber = entries.length ∧
        disk.recipeFile (generateHash sha256 name).toList = some bytes ∧
        (∀ stack j entry, entries[j]? = some entry → entryAt bytes stack j = entry) ∧
        List.Forall₂ (RecipeEntry.Describes sha256) entries u.chunks ∧
          u.chunks.flatten = u.file) ∧
    ∃ p, Process.start fresh config.maxContainerSize disk = .ok p ∧
      Ends (Restoring.Step (recvDecode sha256 uninit config name disk) stackOf
          config.recvDecodeThreadLimit.toNat)
        (fun s => s.written = u.file ∧
          (∀ t < config.recvDecodeThreadLimit.toNat, s.decoders t = .returned) ∧
            ∃ disk', s.storage.finish = .ok disk')
        (Restoring.start (recvDecode sha256 uninit config name disk) p) := by
  obtain ⟨P, hlibrary⟩ := hruns.library hchunks hnames hfew
  refine ⟨?_, hlibrary.restores hfew hfirst hsound fresh uninit stackOf⟩
  obtain ⟨recipe, entries, hrecords⟩ := hlibrary.known name u hfirst
  obtain ⟨rest, hfile⟩ := hrecords.file
  refine ⟨recipe, entries, recipe.toBytes ++ (entries.flatMap RecipeEntry.toBytes ++ rest), ?_,
    hrecords.total, ?_, fun stack j entry hentry => ?_,
    hrecords.describes, hlibrary.files u (List.mem_of_find?_eq_some hfirst)⟩
  · exact Disk.restoreRecipeHead_ok hrecords.name hfile hrecords.fileHead hrecords.keyHead
  · rw [Disk.recipeFile, hrecords.name]
    exact hfile
  · obtain ⟨hj, heq⟩ := List.getElem?_eq_some_iff.mp hentry
    have hdescribes := hrecords.describes.get hj (hrecords.describes.length_eq ▸ hj)
    have hfits : entry.Fits := by
      rw [← heq]
      exact hdescribes.fits
    exact entryAt_eq hentry hfits stack

theorem firstUpload_abc : firstUpload
    [⟨[97, 98, 99], [97, 98, 99], [[97, 98, 99]]⟩, ⟨[97, 98, 99], [], []⟩] [97, 98, 99] =
      some ⟨[97, 98, 99], [97, 98, 99], [[97, 98, 99]]⟩ := rfl

/-- The first of two uploads of the name `abc` is restored. -/
theorem first_upload_restored_abc :
    ∃ rotations disk p, Runs (fun _ => digestABC)
        [⟨[97, 98, 99], [97, 98, 99], [[97, 98, 99]]⟩, ⟨[97, 98, 99], [], []⟩] rotations disk ∧
      Process.start 0 configJson.maxContainerSize disk = .ok p ∧
        Ends (Restoring.Step (recvDecode (fun _ => digestABC) 0 configJson [97, 98, 99] disk)
            (fun _ _ => 0) 1)
          (fun s => s.written = [97, 98, 99] ∧ (∀ t < 1, s.decoders t = .returned) ∧
            ∃ disk', s.storage.finish = .ok disk')
          (Restoring.start (recvDecode (fun _ => digestABC) 0 configJson [97, 98, 99] disk)
            p) := by
  obtain ⟨rotations₁, P₁, disk₁, hle₁, habc₁⟩ := LibraryABC.empty.upload (by decide) (Or.inr rfl)
  have hfew₁ : rotations₁ + 1 < nameCount :=
    (Nat.succ_le_succ hle₁).trans_lt (by decide)
  obtain ⟨rotations, P, disk, hle, habc⟩ := habc₁.upload hfew₁ (Or.inl rfl)
  have hfew : rotations < nameCount := hle.trans_lt hfew₁
  obtain ⟨_, p, hstart, hends⟩ := first_upload_restored habc.runs
    (injOn_singleton habc.contents) (injOn_singleton habc.names) hfew firstUpload_abc
      configJson_sound 0 0 fun _ _ => 0
  exact ⟨rotations, disk, p, habc.runs, hstart, hends⟩

/-- After uploads of three bytes and of none, the empty file is not restored. -/
theorem last_upload_lost :
    ∃ rotations disk p, Runs (fun _ => digestABC)
        [⟨[97, 98, 99], [97, 98, 99], [[97, 98, 99]]⟩, ⟨[97, 98, 99], [], []⟩] rotations disk ∧
      Process.start 0 configJson.maxContainerSize disk = .ok p ∧
        Ends (Restoring.Step (recvDecode (fun _ => digestABC) 0 configJson [97, 98, 99] disk)
            (fun _ _ => 0) 1)
          (fun s => s.written ≠ [])
          (Restoring.start (recvDecode (fun _ => digestABC) 0 configJson [97, 98, 99] disk)
            p) := by
  obtain ⟨rotations₁, P₁, disk₁, hle₁, habc₁⟩ := LibraryABC.empty.upload (by decide) (Or.inr rfl)
  have hfew₁ : rotations₁ + 1 < nameCount :=
    (Nat.succ_le_succ hle₁).trans_lt (by decide)
  obtain ⟨rotations, P, disk, hle, habc⟩ := habc₁.upload hfew₁ (Or.inl rfl)
  have hfew : rotations < nameCount := hle.trans_lt hfew₁
  obtain ⟨p, hstart, hends⟩ := habc.library.restores hfew firstUpload_abc
    configJson_sound 0 0 fun _ _ => 0
  refine ⟨rotations, disk, p, habc.runs, hstart, Ends.mono hends fun s _ hs heq => ?_⟩
  rw [heq] at hs
  exact absurd hs.1 (List.cons_ne_nil _ _).symm

end Dedup
