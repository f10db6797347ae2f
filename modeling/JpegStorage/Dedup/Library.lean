import JpegStorage.Dedup.RestoreOrder
import JpegStorage.Dedup.Upload

/-!
# The files in a store

`Library` describes a disk after uploads: every chunk of every upload is in the
containers, and a name has the recipe of its first upload.  An upload keeps this
(`Library.upload`), whatever memory held before it.
-/

namespace Dedup

open Packing

/-! ## The recipe of a name -/

/-- The recipe of a name describes chunks.  What is behind it in the file does not
matter. -/
structure Disk.Records (sha256 : Bytes → Hash) (key : Hash) (recipe : Recipe)
    (entries : List RecipeEntry) (chunks : List Bytes) (disk : Disk) : Prop where
  /-- The name is known. -/
  name : disk.fileName2metaDB key.toList = some (recipeName key.toList)
  /-- The file begins with the recipe. -/
  file : ∃ rest, disk.recipes (recipeName key.toList) =
    some (recipe.toBytes ++ (entries.flatMap RecipeEntry.toBytes ++ rest))
  /-- The head. -/
  fileHead : recipe.fileRecipeHead.Fits
  /-- The other head. -/
  keyHead : recipe.keyRecipeHead.Fits
  /-- The entries are counted. -/
  total : recipe.fileRecipeHead.totalChunkNumber = entries.length
  /-- A `uint32_t` counts them. -/
  count : entries.length < 2 ^ 32
  /-- The entries describe the chunks. -/
  describes : List.Forall₂ (RecipeEntry.Describes sha256) entries chunks
  /-- They are numbered. -/
  ids : entries.map RecipeEntry.chunkID = List.range entries.length

/-- A name was not uploaded. -/
def Disk.Unknown (key : Hash) (disk : Disk) : Prop :=
  disk.fileName2metaDB key.toList = none ∧ disk.recipes (recipeName key.toList) = none

section
variable {sha256 : Bytes → Hash} {key key' : Hash} {recipe recipe' : Recipe}
  {entries entries' : List RecipeEntry} {chunks : List Bytes} {disk : Disk}

theorem Disk.catalog_eq {disk' : Disk} (h : disk'.catalog = disk.catalog) :
    disk'.fileName2metaDB = disk.fileName2metaDB ∧ disk'.recipes = disk.recipes :=
  Prod.mk.inj h

theorem Disk.Records.of_catalog {disk' : Disk} (h : disk.Records sha256 key recipe entries chunks)
    (hcatalog : disk'.catalog = disk.catalog) :
    disk'.Records sha256 key recipe entries chunks := by
  obtain ⟨hname, hrecipes⟩ := Disk.catalog_eq hcatalog
  exact ⟨hname ▸ h.name, hrecipes ▸ h.file, h.fileHead, h.keyHead, h.total, h.count, h.describes,
    h.ids⟩

theorem Disk.Unknown.of_catalog {disk' : Disk} (h : disk.Unknown key)
    (hcatalog : disk'.catalog = disk.catalog) : disk'.Unknown key := by
  obtain ⟨hname, hrecipes⟩ := Disk.catalog_eq hcatalog
  exact ⟨hname ▸ h.1, hrecipes ▸ h.2⟩

theorem savedEntries_eq (h : entries.length < 2 ^ 31) :
    savedEntries entries = entries.flatMap RecipeEntry.toBytes := by
  rw [savedEntries, i32_of_fits (Int.natCast_nonneg _) (by omega), Int.toNat_natCast,
    List.take_length]

/-- The recipe of a new name. -/
theorem Disk.Unknown.checkRecipeStatus (h : disk.Unknown recipe.fileRecipeHead.fileNameHash)
    (hfile : recipe.fileRecipeHead.Fits) (hkey : recipe.keyRecipeHead.Fits)
    (htotal : recipe.fileRecipeHead.totalChunkNumber = entries.length)
    (hcount : entries.length < 2 ^ 31)
    (hdescribes : List.Forall₂ (RecipeEntry.Describes sha256) entries chunks)
    (hids : entries.map RecipeEntry.chunkID = List.range entries.length) :
    (disk.checkRecipeStatus recipe entries).Records sha256 recipe.fileRecipeHead.fileNameHash
      recipe entries chunks := by
  obtain ⟨hname, hnone⟩ := h
  rw [Disk.checkRecipeStatus, hname]
  dsimp only
  constructor
  case name => exact Function.update_self ..
  case file =>
    refine ⟨[], ?_⟩
    rw [Disk.saveRecipe, Disk.recipes_appendRecipe, Disk.recipes_putName, hnone,
      Function.update_self, savedEntries_eq hcount, List.append_nil]
    rfl
  case fileHead => exact hfile
  case keyHead => exact hkey
  case total => exact htotal
  case count => exact hcount.trans (Nat.pow_lt_pow_right (by decide) (by decide))
  case describes => exact hdescribes
  case ids => exact hids

/-- The recipe of a known name stays. -/
theorem Disk.Records.checkRecipeStatus
    (h : disk.Records sha256 recipe'.fileRecipeHead.fileNameHash recipe entries chunks) :
    (disk.checkRecipeStatus recipe' entries').Records sha256 recipe'.fileRecipeHead.fileNameHash
      recipe entries chunks := by
  obtain ⟨rest, hfile⟩ := h.file
  rw [Disk.checkRecipeStatus, h.name]
  dsimp only
  rw [Disk.saveRecipe]
  constructor
  case name => exact h.name
  case file =>
    refine ⟨rest ++ savedEntries entries', ?_⟩
    rw [Disk.recipes_appendRecipe, hfile, Function.update_self, if_pos rfl, List.nil_append,
      Option.getD_some, List.append_assoc, List.append_assoc]
  case fileHead => exact h.fileHead
  case keyHead => exact h.keyHead
  case total => exact h.total
  case count => exact h.count
  case describes => exact h.describes
  case ids => exact h.ids

/-- The other names stay as they are. -/
theorem Disk.checkRecipeStatus_of_ne (entries : List RecipeEntry)
    (hne : key' ≠ recipe.fileRecipeHead.fileNameHash)
    (hname : ∀ name, disk.fileName2metaDB recipe.fileRecipeHead.fileNameHash.toList = some name →
      name = recipeName recipe.fileRecipeHead.fileNameHash.toList) :
    (disk.checkRecipeStatus recipe entries).fileName2metaDB key'.toList =
        disk.fileName2metaDB key'.toList ∧
      (disk.checkRecipeStatus recipe entries).recipes (recipeName key'.toList) =
        disk.recipes (recipeName key'.toList) := by
  have hkey : key'.toList ≠ recipe.fileRecipeHead.fileNameHash.toList :=
    fun heq => hne (Vector.toList_inj.mp heq)
  have hrecipe := recipeName_ne hne
  rw [Disk.checkRecipeStatus]
  cases hknown : disk.fileName2metaDB recipe.fileRecipeHead.fileNameHash.toList with
  | none =>
      exact ⟨Function.update_of_ne hkey .., Function.update_of_ne hrecipe ..⟩
  | some name =>
      obtain rfl := hname name hknown
      exact ⟨rfl, Function.update_of_ne hrecipe ..⟩

theorem Disk.Records.of_same {disk' : Disk} (h : disk.Records sha256 key recipe entries chunks)
    (hsame : disk'.fileName2metaDB key.toList = disk.fileName2metaDB key.toList ∧
      disk'.recipes (recipeName key.toList) = disk.recipes (recipeName key.toList)) :
    disk'.Records sha256 key recipe entries chunks :=
  ⟨hsame.1 ▸ h.name, hsame.2 ▸ h.file, h.fileHead, h.keyHead, h.total, h.count, h.describes, h.ids⟩

/-- The containers do not change when a recipe is saved. -/
theorem Process.Consistent.checkRecipeStatus {p : Process} {P : Chunks} (h : p.Consistent P)
    (recipe : Recipe) (entries : List RecipeEntry) :
    Process.Consistent ⟨p.core, p.disk.checkRecipeStatus recipe entries⟩ P := by
  have hdisk : (p.disk.checkRecipeStatus recipe entries).Holds P := by
    rw [Disk.checkRecipeStatus]
    split <;> exact ⟨h.disk.fits, h.disk.files, h.disk.entries⟩
  exact ⟨hdisk, h.name, h.used, h.body, h.cache, h.maxSize⟩

end

/-! ## Uploads -/

/-- A file that was uploaded, and the chunks it was cut into. -/
structure Uploaded where
  /-- The name. -/
  name : Bytes
  /-- The bytes of the file. -/
  file : Bytes
  /-- The chunks. -/
  chunks : List Bytes

/-- The contents of the chunks that were uploaded. -/
def contents (uploads : List Uploaded) : Set Bytes := {data | ∃ u ∈ uploads, data ∈ u.chunks}

/-- The names that were uploaded. -/
def names (uploads : List Uploaded) : Set Bytes := {name | ∃ u ∈ uploads, u.name = name}

/-- The first upload of a name. -/
def firstUpload (uploads : List Uploaded) (name : Bytes) : Option Uploaded :=
  uploads.find? fun u => u.name = name

/-- What is on a disk after uploads that rotated the container so many times. -/
structure Library (sha256 : Bytes → Hash) (uploads : List Uploaded) (rotations : Nat) (P : Chunks)
    (disk : Disk) : Prop where
  /-- The containers. -/
  stored : disk.Stored P
  /-- A container was closed at each rotation. -/
  closed : P.closed.length = rotations
  /-- Only uploaded chunks are in the containers. -/
  keyed : Chunks.Keyed sha256 (contents uploads) P
  /-- All of them are. -/
  holds : ∀ data ∈ contents uploads, P.Holds (generateHash sha256 data).toList data
  /-- A file is its chunks. -/
  files : ∀ u ∈ uploads, u.chunks.flatten = u.file
  /-- The recipe of a name is that of its first upload. -/
  known : ∀ name u, firstUpload uploads name = some u →
    ∃ recipe entries, disk.Records sha256 (generateHash sha256 name) recipe entries u.chunks
  /-- Other names are not known. -/
  unknown : ∀ key, (∀ u ∈ uploads, generateHash sha256 u.name ≠ key) → disk.Unknown key

/-- The configuration is one that is meant to be used. -/
structure Configure.Sound (config : Configure) : Prop where
  /-- `_slidingWinSize`. -/
  window : config.slidingWinSize ≤ config.minChunkSize
  /-- `_minChunkSize`. -/
  min : config.minChunkSize < config.averageChunkSize
  /-- `_averageChunkSize`. -/
  average : config.averageChunkSize < config.maxChunkSize
  /-- `_maxChunkSize`. -/
  max : config.maxChunkSize ≤ Dedup.maxChunkSize
  /-- `_maxContainerSize`. -/
  container : config.maxContainerSize ≤ 2 ^ 24
  /-- `_sendChunkBatchSize`. -/
  batch : 1 ≤ i32 config.sendChunkBatchSize
  /-- `_recvDecodeThreadLimit`. -/
  threads : config.recvDecodeThreadLimit = 1

theorem Library.empty (sha256 : Bytes → Hash) : Library sha256 [] 0 .empty .empty where
  stored := Disk.stored_empty
  closed := rfl
  keyed := fun _ _ hholds => absurd hholds Packs.holds_empty
  holds := by
    rintro data ⟨u, hu, _⟩
    cases hu
  files := nofun
  known := nofun
  unknown := fun _ _ => ⟨rfl, rfl⟩

theorem u64_lt (n : Int) : u64 n < 2 ^ 64 := by
  rw [u64]
  omega

theorem Configure.Sound.ordered {config : Configure} (h : config.Sound) : config.Ordered :=
  ⟨h.window, h.min, h.average, h.max⟩

/-- A chunk is cut off before it is too long for `logicData`. -/
theorem Configure.Sound.hasRoom {config : Configure} {chunker : Chunker} (h : config.Sound)
    (hchunker : config.chunkerInit = .ok chunker) :
    chunker.HasRoom ∧ chunker.maxChunkSize ≤ Dedup.maxChunkSize := by
  have hwindow := h.window.trans (h.min.le.trans (h.average.le.trans h.max))
  obtain ⟨hwin, _⟩ := Configure.chunkerInit_inv hchunker
  rw [i32_chunkSize hwindow] at hwin
  obtain ⟨anchorMask, hinit⟩ := h.ordered.chunkerInit_ok (by omega)
  obtain rfl := Except.ok.inj (hinit.symm.trans hchunker)
  exact ⟨h.ordered.hasRoom, h.max⟩

section
variable {sha256 : Bytes → Hash} {uploads : List Uploaded} {rotations : Nat} {P : Chunks}
  {disk : Disk}

theorem contents_append (uploads : List Uploaded) (u : Uploaded) :
    contents (uploads ++ [u]) = contents uploads ∪ {data | data ∈ u.chunks} := by
  ext data
  constructor
  · rintro ⟨v, hv, hdata⟩
    cases List.mem_append.mp hv with
    | inl hold => exact Or.inl ⟨v, hold, hdata⟩
    | inr hnew =>
        rw [List.mem_singleton.mp hnew] at hdata
        exact Or.inr hdata
  · rintro (⟨v, hv, hdata⟩ | hdata)
    · exact ⟨v, List.mem_append_left _ hv, hdata⟩
    · exact ⟨u, List.mem_append_right _ (List.mem_singleton_self _), hdata⟩

theorem firstUpload_append (uploads : List Uploaded) (u : Uploaded) (name : Bytes) :
    firstUpload (uploads ++ [u]) name =
      (firstUpload uploads name).or (if u.name = name then some u else none) := by
  rw [firstUpload, firstUpload, List.find?_append, List.find?_singleton]
  simp only [decide_eq_true_eq]

theorem firstUpload_eq_none {name : Bytes} :
    firstUpload uploads name = none ↔ ∀ u ∈ uploads, u.name ≠ name := by
  rw [firstUpload, List.find?_eq_none]
  simp only [decide_eq_true_eq]

/-- A name that was not uploaded is not known. -/
theorem Library.unknown_name (h : Library sha256 uploads rotations P disk) {name : Bytes}
    (hnames : Set.InjOn (generateHash sha256) (insert name (names uploads)))
    (hnone : firstUpload uploads name = none) : disk.Unknown (generateHash sha256 name) := by
  refine h.unknown _ fun u hu heq => firstUpload_eq_none.mp hnone u hu ?_
  exact hnames (Set.mem_insert_of_mem _ ⟨u, hu, rfl⟩) (Set.mem_insert _ _) heq

/-- A name that is known has its own recipe file. -/
theorem Library.recipeName_of_known (h : Library sha256 uploads rotations P disk) {name : Bytes}
    (hnames : Set.InjOn (generateHash sha256) (insert name (names uploads))) {file : Name}
    (hfile : disk.fileName2metaDB (generateHash sha256 name).toList = some file) :
    file = recipeName (generateHash sha256 name).toList := by
  cases hfirst : firstUpload uploads name with
  | none =>
      rw [(h.unknown_name hnames hfirst).1] at hfile
      cases hfile
  | some u =>
      obtain ⟨recipe, entries, hrecords⟩ := h.known name u hfirst
      exact Option.some.inj (hfile.symm.trans hrecords.name)

/-- The recipes after an upload. -/
theorem Library.catalog_upload (h : Library sha256 uploads rotations P disk) {u : Uploaded}
    (hnames : Set.InjOn (generateHash sha256) (insert u.name (names uploads))) {disk₁ disk₂ : Disk}
    {recipe : Recipe} {entries : List RecipeEntry} (hcatalog₁ : disk₁.catalog = disk.catalog)
    (hcatalog₂ : disk₂.catalog = (disk₁.checkRecipeStatus recipe entries).catalog)
    (hkey : recipe.fileRecipeHead.fileNameHash = generateHash sha256 u.name)
    (hnew : disk₁.Unknown recipe.fileRecipeHead.fileNameHash →
      (disk₁.checkRecipeStatus recipe entries).Records sha256
        recipe.fileRecipeHead.fileNameHash recipe entries u.chunks) :
    (∀ name v, firstUpload (uploads ++ [u]) name = some v →
      ∃ recipe entries, disk₂.Records sha256 (generateHash sha256 name) recipe entries v.chunks) ∧
    (∀ key, (∀ v ∈ uploads ++ [u], generateHash sha256 v.name ≠ key) → disk₂.Unknown key) := by
  have hfile : ∀ file,
      disk₁.fileName2metaDB recipe.fileRecipeHead.fileNameHash.toList = some file →
        file = recipeName recipe.fileRecipeHead.fileNameHash.toList := by
    intro file hfile
    rw [(Disk.catalog_eq hcatalog₁).1, hkey] at hfile
    rw [hkey]
    exact h.recipeName_of_known hnames hfile
  constructor
  · intro name v hfirst
    rw [firstUpload_append] at hfirst
    cases hold : firstUpload uploads name with
    | some w =>
        rw [hold, Option.some_or] at hfirst
        obtain rfl := Option.some.inj hfirst
        obtain ⟨recipe', entries', hrecords⟩ := h.known name w hold
        have hrecords₁ := hrecords.of_catalog hcatalog₁
        refine ⟨recipe', entries', Disk.Records.of_catalog ?_ hcatalog₂⟩
        by_cases heq : generateHash sha256 name = recipe.fileRecipeHead.fileNameHash
        · rw [heq] at hrecords₁ ⊢
          exact hrecords₁.checkRecipeStatus
        · exact hrecords₁.of_same (Disk.checkRecipeStatus_of_ne _ heq hfile)
    | none =>
        rw [hold, Option.none_or] at hfirst
        split at hfirst
        next heq =>
          obtain rfl := Option.some.inj hfirst
          subst heq
          have hunknown := (h.unknown_name hnames hold).of_catalog hcatalog₁
          rw [← hkey] at hunknown ⊢
          exact ⟨recipe, entries, (hnew hunknown).of_catalog hcatalog₂⟩
        next => cases hfirst
  · intro key hkeys
    have hne : key ≠ recipe.fileRecipeHead.fileNameHash := by
      intro heq
      refine hkeys u (List.mem_append_right _ (List.mem_singleton_self _)) ?_
      rw [heq, hkey]
    have hsame := Disk.checkRecipeStatus_of_ne entries hne hfile
    have hold := (h.unknown key fun v hv => hkeys v (List.mem_append_left _ hv)).of_catalog hcatalog₁
    refine Disk.Unknown.of_catalog ?_ hcatalog₂
    exact ⟨hsame.1.trans hold.1, hsame.2.trans hold.2⟩

/-- The chunks after an upload. -/
theorem Library.chunks_upload (h : Library sha256 uploads rotations P disk) {u : Uploaded}
    {P' : Chunks} (hadds : ∀ key data, P'.Holds key data ↔
      P.Holds key data ∨ data ∈ u.chunks ∧ key = (generateHash sha256 data).toList) :
    Chunks.Keyed sha256 (contents (uploads ++ [u])) P' ∧
      ∀ data ∈ contents (uploads ++ [u]), P'.Holds (generateHash sha256 data).toList data := by
  rw [contents_append]
  constructor
  · intro key data hholds
    cases (hadds key data).mp hholds with
    | inl hold =>
        obtain ⟨hdata, hkey⟩ := h.keyed key data hold
        exact ⟨Or.inl hdata, hkey⟩
    | inr hnew => exact ⟨Or.inr hnew.1, hnew.2⟩
  · intro data hdata
    cases hdata with
    | inl hold => exact (hadds _ _).mpr (Or.inl (h.holds data hold))
    | inr hnew => exact (hadds _ _).mpr (Or.inr ⟨hnew, rfl⟩)

/-- What the program that uploads a file relies on. -/
structure Uploads (config : Configure) (chunker : Chunker) (memory : Memory) (file : Bytes) :
    Prop where
  /-- The configuration. -/
  sound : config.Sound
  /-- The chunker. -/
  init : config.chunkerInit = .ok chunker
  /-- Keys have 32 bytes. -/
  terminated : memory.Terminated
  /-- An `int` holds the sizes of the blocks. -/
  blocks : chunker.ShortBlocks file
  /-- An `int` holds the number of the chunks. -/
  count : (chunker.chunks memory.winFp file).length < 2 ^ 31

/-- The end of an upload: the chunks are saved, and the recipe follows. -/
theorem Library.finish_upload (h : Library sha256 uploads rotations P disk) {u : Uploaded}
    (hfile : u.chunks.flatten = u.file) {p : Process} (hdisk : p.disk = disk) {saving : Saving}
    {P' : Chunks} (hextends : Saving.Extends sha256 u.chunks ⟨0, [], p⟩ saving P P')
    (hnames : Set.InjOn (generateHash sha256) (insert u.name (names uploads)))
    (hcount : u.chunks.length < 2 ^ 31) (hfew : rotations + p.rotations sha256 u.chunks < nameCount)
    (head : RecipeHead) (hkey : head.fileNameHash = generateHash sha256 u.name)
    (hsize : head.fileSize < 2 ^ 64) (htotal : head.totalChunkNumber = saving.chunkIDCnt) :
    ∃ disk', Process.finish ⟨saving.storage.core,
        saving.storage.disk.checkRecipeStatus ⟨head, head⟩ saving.recipeList⟩ = .ok disk' ∧
      Library sha256 (uploads ++ [u]) (rotations + p.rotations sha256 u.chunks) P' disk' := by
  obtain ⟨entries, hlist, hdescribes, hids⟩ := hextends.entries
  have hlen := hdescribes.length_eq
  have htotal' : head.totalChunkNumber = entries.length := by
    rw [htotal, hextends.count, hlen]
    exact Nat.zero_add _
  have hrange : entries.map RecipeEntry.chunkID = List.range entries.length := by
    have hsame : ∀ i ∈ List.range u.chunks.length, u32 i = i := fun i hi =>
      Nat.mod_eq_of_lt (((List.mem_range.mp hi).trans hcount).trans
        (Nat.pow_lt_pow_right (by decide) (by decide)))
    rw [hids, hlen, ← List.range_eq_range', List.map_congr_left hsame, List.map_id']
  have hfits : head.Fits := by
    refine ⟨hsize, ?_⟩
    rw [htotal', hlen]
    exact hcount.trans (Nat.pow_lt_pow_right (by decide) (by decide))
  have hp := hextends.consistent.checkRecipeStatus ⟨head, head⟩ saving.recipeList
  have hfew' : P'.closed.length < nameCount := by
    rw [hextends.closed, h.closed]
    exact hfew
  obtain ⟨disk', hfinish, hstored, hcatalog⟩ := hp.finish hfew'
  have hcatalog₁ : saving.storage.disk.catalog = disk.catalog := by
    rw [hextends.catalog, ← hdisk]
  obtain ⟨hknown, hunknown⟩ := h.catalog_upload hnames hcatalog₁ hcatalog hkey fun hnew => by
    rw [hlist, List.nil_append]
    exact hnew.checkRecipeStatus hfits hfits htotal' (hlen.trans_lt hcount) hdescribes hrange
  obtain ⟨hkeyed', hholds'⟩ := h.chunks_upload hextends.holds
  refine ⟨disk', hfinish, ?_⟩
  constructor
  case stored => exact hstored
  case closed => rw [hextends.closed, h.closed]
  case keyed => exact hkeyed'
  case holds => exact hholds'
  case files =>
    intro v hv
    cases List.mem_append.mp hv with
    | inl hold => exact h.files v hold
    | inr hnew => rwa [List.mem_singleton.mp hnew]
  case known => exact hknown
  case unknown => exact hunknown

/-- A name is stored with the chunks of its first upload. -/
theorem Library.storesFile (h : Library sha256 uploads rotations P disk)
    (hfew : rotations < nameCount) {name : Bytes} {u : Uploaded}
    (hfirst : firstUpload uploads name = some u) :
    ∃ entries, disk.StoresFile sha256 P name entries u.chunks ∧
      (entries.map RecipeEntry.chunkID).Nodup := by
  obtain ⟨recipe, entries, hrecords⟩ := h.known name u hfirst
  obtain ⟨rest, hfile⟩ := hrecords.file
  have hu : u ∈ uploads := List.mem_of_find?_eq_some hfirst
  refine ⟨entries, ?_, ?_⟩
  · constructor
    case stored => exact h.stored
    case few => exact h.closed.trans_lt hfew
    case recipe =>
      exact ⟨_, recipe, rest, hrecords.name, hfile, hrecords.fileHead, hrecords.keyHead,
        hrecords.total⟩
    case describes => exact hrecords.describes
    case holds => exact fun data hdata => h.holds data ⟨u, hu, hdata⟩
    case count => exact hrecords.count
  · rw [hrecords.ids]
    exact List.nodup_range

/-- An upload adds a file to the library. -/
theorem Library.upload (h : Library sha256 uploads rotations P disk) {config : Configure}
    {chunker : Chunker} {memory : Memory} {file : Bytes} (name : Bytes)
    (huploads : Uploads config chunker memory file) (hread : 1 ≤ chunker.readSize) {p : Process}
    (hstart : Process.start memory.body config.maxContainerSize disk = .ok p)
    (hchunks : Set.InjOn (generateHash sha256)
      (contents (uploads ++ [⟨name, file, chunker.chunks memory.winFp file⟩])))
    (hnames : Set.InjOn (generateHash sha256) (insert name (names uploads)))
    (hfew : rotations + p.rotations sha256 (chunker.chunks memory.winFp file) < nameCount) :
    ∃ disk' P', upload sha256 memory config name file disk = .ok disk' ∧
      Library sha256 (uploads ++ [⟨name, file, chunker.chunks memory.winFp file⟩])
        (rotations + p.rotations sha256 (chunker.chunks memory.winFp file)) P' disk' := by
  obtain ⟨hroom, hmax⟩ := huploads.sound.hasRoom huploads.init
  obtain ⟨p', hstart', hp, hdisk⟩ := h.stored.start memory.body huploads.sound.container
  cases hstart.symm.trans hstart'
  let chunks := chunker.chunks memory.winFp file
  have hmem : ∀ data ∈ chunks, data ∈ contents (uploads ++ [⟨name, file, chunks⟩]) ∧
      data.length ≤ maxChunkSize := by
    intro data hdata
    rw [contents_append]
    exact ⟨Or.inr hdata, (Chunker.chunks_sizes hroom hdata).2.trans hmax⟩
  have hkeyed : Chunks.Keyed sha256 (contents (uploads ++ [⟨name, file, chunks⟩])) P := by
    intro key data hholds
    rw [contents_append]
    exact ⟨Or.inl (h.keyed key data hholds).1, (h.keyed key data hholds).2⟩
  have hlen : (0 : Nat) + chunks.length < 2 ^ 64 := by
    rw [Nat.zero_add]
    exact huploads.count.trans (Nat.pow_lt_pow_right (by decide) (by decide))
  have hsaving : (⟨0, [], p⟩ : Saving).storage.Consistent P := hp
  obtain ⟨saving, P', hrun, hextends⟩ := Saving.emitAll_ok huploads.terminated hchunks hmem hsaving
    hkeyed (h.closed.symm ▸ hfew) hlen
  let head : RecipeHead := ⟨u64 file.length, generateHash sha256 name, saving.chunkIDCnt⟩
  have hchunking : chunker.varSizeChunking sha256 memory (generateHash sha256 name) file p =
      .ok ⟨saving.storage.core,
        saving.storage.disk.checkRecipeStatus ⟨head, head⟩ saving.recipeList⟩ := by
    rw [Chunker.varSizeChunking_eq hroom hread huploads.blocks, hrun]
    rfl
  obtain ⟨disk', hfinish, hlibrary⟩ := h.finish_upload (u := ⟨name, file, chunks⟩)
    (Chunker.flatten_chunks ..) hdisk hextends hnames huploads.count hfew head rfl
      (u64_lt file.length) rfl
  refine ⟨disk', P', ?_, hlibrary⟩
  exact Run.except_bind_eq_ok.mpr ⟨p, hstart, Run.except_bind_eq_ok.mpr
    ⟨chunker, huploads.init, Run.except_bind_eq_ok.mpr ⟨_, hchunking, hfinish⟩⟩⟩

end

/-! ## A file of two chunks -/

/-- A chunk ends with an even byte, or after four. -/
def evenConfigure : Configure := ⟨2, 1, 4, 1, 128, 1000, 1, 8388608⟩

/-- The chunker of `evenConfigure`. -/
def evenChunker : Chunker := ⟨1, 4, 1, 134217728, 1⟩

theorem evenConfigure_sound : evenConfigure.Sound where
  window := by decide
  min := by decide
  average := by decide
  max := by decide
  container := by decide
  batch := by decide
  threads := rfl

theorem uploads_evenConfigure {file : Bytes} (hlen : file.length < 2 ^ 31)
    (hcount : (evenChunker.chunks zeroMemory.winFp file).length < 2 ^ 31) :
    Uploads evenConfigure evenChunker zeroMemory file where
  sound := evenConfigure_sound
  init := by
    rw [evenConfigure, evenChunker]
    rfl
  terminated := fun _ => rfl
  blocks := (Nat.min_le_right ..).trans_lt hlen
  count := hcount

/-- A hash: the first byte, 32 times. -/
def headHash (data : Bytes) : Hash := Vector.replicate 32 (data.headD 0)

/-- Chunks with different first bytes, by which they are hashed. -/
theorem injOn_first {S : Set Bytes} (chunks : List Bytes) (hS : ∀ data ∈ S, data ∈ chunks)
    (hnodup : (chunks.map fun data => if data.headD 0 = 0 then 0x80 else data.headD 0).Nodup) :
    Set.InjOn (generateHash headHash) S := by
  intro data hdata data' hdata' heq
  have hfirst := congrArg (fun hash : Hash => hash[0]) heq
  simp only [generateHash, headHash, Vector.getElem_map, Vector.getElem_replicate] at hfirst
  exact List.inj_on_of_nodup_map hnodup (hS data hdata) (hS data' hdata') hfirst

/-- The file `abc`, whose `b` is the end of a chunk. -/
def abcInTwo : Uploaded := ⟨[97], [97, 98, 99], [[97, 98], [99]]⟩

theorem uploads_abcInTwo : Uploads evenConfigure evenChunker zeroMemory abcInTwo.file :=
  uploads_evenConfigure (by decide) (by decide)

theorem chunks_abcInTwo : evenChunker.chunks zeroMemory.winFp abcInTwo.file = abcInTwo.chunks := by
  decide

theorem injOn_contents_abcInTwo : Set.InjOn (generateHash headHash) (contents [abcInTwo]) := by
  refine injOn_first [[97, 98], [99]] ?_ (by decide)
  rintro data ⟨u, hu, hdata⟩
  rwa [List.mem_singleton.mp hu] at hdata

theorem injOn_names_abcInTwo : Set.InjOn (generateHash headHash) (names [abcInTwo]) := by
  refine injOn_first [[97]] ?_ (by decide)
  rintro name ⟨u, hu, rfl⟩
  rw [List.mem_singleton.mp hu]
  exact List.mem_singleton_self _

/-- It is uploaded to an empty disk. -/
theorem upload_abcInTwo :
    ∃ p disk P, Process.start zeroMemory.body evenConfigure.maxContainerSize .empty = .ok p ∧
      p.rotations headHash abcInTwo.chunks ≤ 2 ∧
      upload headHash zeroMemory evenConfigure abcInTwo.name abcInTwo.file .empty = .ok disk ∧
      Library headHash [abcInTwo] (p.rotations headHash abcInTwo.chunks) P disk := by
  have hempty := Library.empty headHash
  obtain ⟨p, hstart, _⟩ := hempty.stored.start zeroMemory.body evenConfigure_sound.container
  have hrotations : p.rotations headHash abcInTwo.chunks ≤ 2 := Process.rotations_le _ p
  have hnames : insert abcInTwo.name (names []) ⊆ names [abcInTwo] := by
    rintro name (rfl | ⟨u, hu, _⟩)
    · exact ⟨abcInTwo, List.mem_singleton_self _, rfl⟩
    · cases hu
  have hupload := hempty.upload abcInTwo.name uploads_abcInTwo (by decide) hstart
  rw [chunks_abcInTwo, Nat.zero_add] at hupload
  obtain ⟨disk, P, hrun, hlibrary⟩ := hupload injOn_contents_abcInTwo
    (injOn_names_abcInTwo.mono hnames) (hrotations.trans_lt (by decide))
  exact ⟨p, disk, P, hstart, hrotations, hrun, hlibrary⟩

end Dedup
