import JpegStorage.Dedup.KeptChunks
import JpegStorage.Dedup.Library

/-!
# Files that survive a kill

A file is kept when its upload came to its end and none of its chunks was known to the database
without being kept.  `Keeps` is what a disk is like with kept files: their chunks are
there, and so are their recipes.

Every upload leaves a disk that keeps the files it found, wherever it is killed
(`upload_safe`), and one that comes to its end keeps its own file as well, if the disk accepts it.
-/

namespace Dedup

open Interrupt

variable {sha256 : Bytes → Hash} {kept : List Uploaded} {K : Set Bytes} {n used : Nat}
  {disk disk' : Disk}

/-! ## Recipes -/

/-- The recipes of the files, and nothing that is in their way. -/
structure Disk.Catalogs (sha256 : Bytes → Hash) (kept : List Uploaded) (disk : Disk) : Prop where
  /-- The recipes. -/
  known : ∀ u ∈ kept, ∃ recipe entries,
    disk.Records sha256 (generateHash sha256 u.name) recipe entries u.chunks
  /-- A recipe file has the name of its hash. -/
  named : ∀ key name, disk.fileName2metaDB key = some name → name = recipeName key
  /-- A name that is not in the database has no file. -/
  fresh : ∀ key, disk.fileName2metaDB key = none → disk.recipes (recipeName key) = none

theorem Disk.Catalogs.of_catalog (h : disk.Catalogs sha256 kept)
    (hcatalog : disk'.catalog = disk.catalog) : disk'.Catalogs sha256 kept := by
  obtain ⟨hnames, hrecipes⟩ := Disk.catalog_eq hcatalog
  refine ⟨fun u hu => ?_, hnames ▸ h.named, ?_⟩
  · obtain ⟨recipe, entries, hrecords⟩ := h.known u hu
    exact ⟨recipe, entries, hrecords.of_catalog hcatalog⟩
  · rw [hnames, hrecipes]
    exact h.fresh

/-- Recipe files may grow. -/
theorem Disk.Catalogs.appendRecipe (h : disk.Catalogs sha256 kept) {key : Bytes} {name : Name}
    (hname : disk.fileName2metaDB key = some name) (bytes : Bytes) :
    (disk.appendRecipe name bytes).Catalogs sha256 kept := by
  obtain rfl := h.named key name hname
  refine ⟨fun u hu => ?_, h.named, fun key' hnone => ?_⟩
  · obtain ⟨recipe, entries, hrecords⟩ := h.known u hu
    obtain ⟨rest, hfile⟩ := hrecords.file
    by_cases heq : recipeName (generateHash sha256 u.name).toList = recipeName key
    · refine ⟨recipe, entries, hrecords.name, ⟨rest ++ bytes, ?_⟩, hrecords.fileHead,
        hrecords.keyHead, hrecords.total, hrecords.count, hrecords.describes, hrecords.ids⟩
      rw [Disk.recipes_appendRecipe, ← heq, hfile, Function.update_self, Option.getD_some,
        List.append_assoc, List.append_assoc]
    · exact ⟨recipe, entries, hrecords.of_same ⟨rfl, Function.update_of_ne heq ..⟩⟩
  · have hne : recipeName key' ≠ recipeName key := by
      intro heq
      rw [recipeName_inj heq] at hnone
      cases hnone.symm.trans hname
    rw [Disk.recipes_appendRecipe, Function.update_of_ne hne]
    exact h.fresh key' hnone

theorem Disk.Catalogs.putName (h : disk.Catalogs sha256 kept) {key : Bytes}
    (hnone : disk.fileName2metaDB key = none) :
    (disk.putName key (recipeName key)).Catalogs sha256 kept := by
  have hother : ∀ key', disk.fileName2metaDB key' ≠ none →
      (disk.putName key (recipeName key)).fileName2metaDB key' = disk.fileName2metaDB key' := by
    intro key' hne
    exact Function.update_of_ne (fun heq => hne (by rw [heq, hnone])) ..
  refine ⟨fun u hu => ?_, fun key' name hname => ?_, fun key' hnone' => ?_⟩
  · obtain ⟨recipe, entries, hrecords⟩ := h.known u hu
    refine ⟨recipe, entries, hrecords.of_same ⟨hother _ ?_, rfl⟩⟩
    rw [hrecords.name]
    exact Option.some_ne_none _
  · rw [Disk.fileName2metaDB_putName] at hname
    by_cases heq : key' = key
    · rw [heq, Function.update_self] at hname
      rw [heq, Option.some.inj hname]
    · rw [Function.update_of_ne heq] at hname
      exact h.named key' name hname
  · rw [Disk.fileName2metaDB_putName] at hnone'
    by_cases heq : key' = key
    · rw [heq, Function.update_self] at hnone'
      cases hnone'
    · rw [Function.update_of_ne heq] at hnone'
      exact h.fresh key' hnone'

/-- Wherever it is killed, the recipe and its name are apart from the chunks. -/
theorem Killable.checkRecipeStatus_sameStore {recipe : Recipe} {entries : List RecipeEntry} :
    (Killable.checkRecipeStatus recipe entries disk).Safe disk.SameStore disk.SameStore := by
  constructor
  · intro disk' hrun
    rw [Killable.checkRecipeStatus_result] at hrun
    cases hrun
    exact Disk.sameStore_checkRecipeStatus ..
  · rw [Killable.checkRecipeStatus]
    cases disk.fileName2metaDB recipe.fileRecipeHead.fileNameHash.toList with
    | some name =>
        rintro disk' (rfl | ⟨cut, _, rfl⟩)
        · exact ⟨rfl, rfl, rfl⟩
        · exact ⟨rfl, rfl, rfl⟩
    | none =>
        rintro disk' (rfl | ⟨disk₁, hput, hdisk⟩)
        · exact ⟨rfl, rfl, rfl⟩
        · cases hput
          rcases hdisk with rfl | ⟨cut, _, rfl⟩
          · exact ⟨rfl, rfl, rfl⟩
          · exact ⟨rfl, rfl, rfl⟩

theorem Disk.Catalogs.safe_appendRecipe (h : disk.Catalogs sha256 kept) {key : Bytes} {name : Name}
    (hname : disk.fileName2metaDB key = some name) (bytes : Bytes) :
    (Killable.appendRecipe name bytes disk).Safe (Disk.Catalogs sha256 kept)
      (Disk.Catalogs sha256 kept) := by
  constructor
  · intro disk' hrun
    cases hrun
    exact h.appendRecipe hname bytes
  · rintro disk' (rfl | ⟨cut, _, rfl⟩)
    · exact h
    · exact h.appendRecipe hname cut

/-- The recipes stay. -/
theorem Disk.Catalogs.checkRecipeStatus (h : disk.Catalogs sha256 kept) (recipe : Recipe)
    (entries : List RecipeEntry) :
    (Killable.checkRecipeStatus recipe entries disk).Safe
      (fun disk' => disk' = disk.checkRecipeStatus recipe entries ∧ disk'.Catalogs sha256 kept ∧
        disk.SameStore disk')
      (fun disk' => disk'.Catalogs sha256 kept ∧ disk.SameStore disk') := by
  have hsafe : (Killable.checkRecipeStatus recipe entries disk).Safe (Disk.Catalogs sha256 kept)
      (Disk.Catalogs sha256 kept) := by
    rw [Killable.checkRecipeStatus]
    cases hname : disk.fileName2metaDB recipe.fileRecipeHead.fileNameHash.toList with
    | some name => exact h.safe_appendRecipe hname _
    | none =>
        refine Interruptible.Safe.bind (Interruptible.Safe.atomic h fun _ hput => hput)
          fun disk₁ hput => ?_
        cases hput
        exact (h.putName hname).safe_appendRecipe (Function.update_self ..) _
  have hboth := (hsafe.and Killable.checkRecipeStatus_sameStore).result
  refine hboth.mono (fun disk' hdone => ⟨?_, hdone.2⟩) fun _ => id
  rw [Killable.checkRecipeStatus_result] at hdone
  exact (Except.ok.inj hdone.1).symm

theorem Process.Carries.of_same {p : Process} (h : p.Carries sha256 K n)
    (hsame : p.disk.SameStore disk') : Process.Carries sha256 K n ⟨p.core, disk'⟩ := by
  refine ⟨h.name, h.used, h.maxSize, hsame.containers ▸ h.fits, fun data hdata => ?_⟩
  obtain ⟨i, off, hentry, hat⟩ := h.chunks data hdata
  refine ⟨i, off, hsame.entries ▸ hentry, hat.imp_left fun hclosed => ⟨hclosed.1, ?_⟩⟩
  rw [Disk.FileHas, hsame.containers]
  exact hclosed.2

theorem Process.Since.of_same {p : Process} {disk₀ : Disk} {n₀ used₀ : Nat}
    (h : p.Since disk₀ n₀ used₀ n) (hsame : p.disk.SameStore disk') :
    Process.Since disk₀ n₀ used₀ n ⟨p.core, disk'⟩ :=
  ⟨hsame.entries ▸ h.entries, h.le, hsame.containers ▸ h.current⟩

/-! ## A disk with kept files -/

/-- The files are on the disk. -/
structure Disk.Keeps (sha256 : Bytes → Hash) (kept : List Uploaded) (n used : Nat) (disk : Disk) :
    Prop where
  /-- The open container. -/
  opens : disk.Opens n used
  /-- The chunks. -/
  stores : disk.Stores sha256 (contents kept) n used
  /-- The recipes. -/
  catalogs : disk.Catalogs sha256 kept
  /-- A file is its chunks. -/
  files : ∀ u ∈ kept, u.chunks.flatten = u.file

/-- An upload to this disk can be relied on. -/
structure Disk.Accepts (sha256 : Bytes → Hash) (kept : List Uploaded) (u : Uploaded)
    (disk : Disk) : Prop where
  /-- The name is not in the database. -/
  name : disk.fileName2metaDB (generateHash sha256 u.name).toList = none
  /-- A chunk is kept, or its hash is not in the database. -/
  chunks : ∀ data ∈ u.chunks, data ∈ contents kept ∨
    disk.fp2ChunkDB (generateHash sha256 data).toList = none

theorem Disk.keeps_empty (sha256 : Bytes → Hash) : Disk.empty.Keeps sha256 [] 0 0 where
  opens := ⟨Or.inl ⟨rfl, rfl, rfl⟩, Nat.zero_le _⟩
  stores := by
    refine ⟨nofun, ?_⟩
    rintro data ⟨u, hu, _⟩
    cases hu
  catalogs := ⟨nofun, nofun, fun _ _ => rfl⟩
  files := nofun

/-- What is left of an upload. -/
def Disk.KeepsAfter (sha256 : Bytes → Hash) (disk₀ : Disk) (kept : List Uploaded) (N : Nat)
    (disk : Disk) : Prop :=
  disk₀.Uncut disk → ∃ n ≤ N, ∃ used, disk.Keeps sha256 kept n used

/-- What the destructor leaves when it is not killed. -/
theorem Process.Carries.finish {p : Process} (h : p.Carries sha256 K n) (hn : n < nameCount)
    (hrun : p.finish = .ok disk) : disk.catalog = p.disk.catalog ∧
      ∃ used, disk.Opens n used ∧ disk.Stores sha256 K n used := by
  have h₁ : Process.Carries sha256 K n ⟨p.core,
      p.disk.putConfig (p.core.lastContainerFileName, p.core.currentContainer.used)⟩ :=
    ⟨h.name, h.used, h.maxSize, h.fits, h.chunks⟩
  obtain ⟨p₂, hsave, hrun⟩ := Run.except_bind_eq_ok.mp hrun
  cases h₁.saveTOFile.symm.trans hsave
  cases hrun
  refine ⟨rfl, p.core.currentContainer.used, ⟨Or.inr ?_, h.used⟩, ?_, fun data hdata => ?_⟩
  · rw [← h.name]
    rfl
  · exact Disk.fits_putContainer h₁.fits _ (by rw [Buffer.length_read]; exact h.used)
  · obtain ⟨i, off, hentry, hat⟩ := h₁.chunks data hdata
    refine ⟨i, off, hat.le, hentry, hat.putContainer hn, fun heq => ?_⟩
    rcases hat with ⟨hlt, _⟩ | ⟨_, hle, _⟩
    · omega
    · exact hle

section
variable {disk₀ : Disk} {n₀ used₀ : Nat} (h₀ : disk₀.Keeps sha256 kept n₀ used₀) {p : Process}
include h₀

theorem Disk.Keeps.of_leftOf {N : Nat} (hN : n₀ ≤ N)
    (h : Disk.LeftOf sha256 disk₀ (contents kept) n₀ used₀ disk) :
    Disk.KeepsAfter sha256 disk₀ kept N disk := by
  intro huncut
  obtain ⟨hstores, hconfig, hcatalog⟩ := h huncut
  exact ⟨n₀, hN, used₀, ⟨by rw [hconfig]; exact h₀.opens.config, h₀.opens.room⟩, hstores,
    h₀.catalogs.of_catalog hcatalog, h₀.files⟩

/-- The destructor. -/
theorem Disk.Keeps.finish (h : p.Carries sha256 K n) (hsub : contents kept ⊆ K)
    (hsince : p.Since disk₀ n₀ used₀ n) (hconfig : p.disk.storageConfig = disk₀.storageConfig)
    (hn : n < nameCount) (hcatalogs : p.disk.Catalogs sha256 kept) :
    (Killable.finish p).Safe
      (fun disk => disk.catalog = p.disk.catalog ∧
        ∃ used, disk.Opens n used ∧ disk.Stores sha256 K n used)
      (Disk.KeepsAfter sha256 disk₀ kept n) := by
  have hstores := h.stores hsince hn h₀.stores hsub
  have hused : n = n₀ → used₀ ≤ p.core.currentContainer.used := fun heq => (hsince.current heq).1
  refine Interruptible.Safe.bind (Interruptible.Safe.atomic (fun _ => ?_) fun _ hput => hput)
    fun disk₁ hput => ?_
  · refine ⟨n₀, hsince.le, used₀, ⟨?_, h₀.opens.room⟩, hstores, hcatalogs, h₀.files⟩
    rw [hconfig]
    exact h₀.opens.config
  · let p₁ : Process := ⟨p.core, disk₁⟩
    have h₁ : p₁.Carries sha256 K n := by
      cases hput
      exact ⟨h.name, h.used, h.maxSize, h.fits, h.chunks⟩
    have hsince₁ : p₁.Since disk₀ n₀ used₀ n := by
      cases hput
      exact ⟨hsince.entries, hsince.le, hsince.current⟩
    have hconfig₁ : disk₁.storageConfig =
        some (containerName n, p.core.currentContainer.used) := by
      cases hput
      rw [← h.name]
      rfl
    have hcatalog₁ : disk₁.catalog = p.disk.catalog := by
      cases hput
      rfl
    constructor
    · intro disk hrun
      have hfinish : p.finish = .ok disk := by
        cases hput
        exact hrun
      exact h.finish hn hfinish
    · have hkeeps : ∀ disk : Disk, disk.storageConfig = disk₁.storageConfig →
          disk.catalog = disk₁.catalog → disk.Stores sha256 (contents kept) n₀ used₀ →
            ∃ n' ≤ n, ∃ used, disk.Keeps sha256 kept n' used := by
        intro disk hconfig' hcatalog' hstores'
        refine ⟨n, Nat.le_refl n, p.core.currentContainer.used,
          ⟨Or.inr (hconfig'.trans hconfig₁), h.used⟩, hstores'.mono hsince.le hused,
          hcatalogs.of_catalog (hcatalog'.trans hcatalog₁), h₀.files⟩
      rintro disk (hdisk | ⟨p₂, _, hdisk⟩)
      · rcases hdisk with rfl | ⟨bytes, cut, hcopy, hcut, rfl⟩
        · exact fun _ => hkeeps _ rfl rfl (h₁.stores hsince₁ hn h₀.stores hsub)
        · intro huncut
          rw [Container.copy_ok _ (by rw [Nat.zero_add]; exact h.used)] at hcopy
          cases hcopy
          refine hkeeps _ rfl rfl
            (h₁.stores_torn hsince₁ hn h₀.stores h₀.opens hsub hcut ?_ rfl huncut)
          rw [Disk.containers_putContainer, h₁.name]
      · exact absurd hdisk Interruptible.not_mem_leaves_lift

end

/-! ## Uploads -/

/-- The chunker has the chunks in `rest` before it. -/
structure Saving.Midway (sha256 : Bytes → Hash) (disk₀ : Disk) (n₀ used₀ : Nat)
    (chunks : List Bytes) (N : Nat) (K : Set Bytes) (n : Nat) (rest : List Bytes)
    (saving : Saving) : Prop where
  /-- The store. -/
  saves : saving.storage.Saves sha256 disk₀ n₀ used₀ K n
  /-- The rotations. -/
  rotations : n + saving.storage.rotations sha256 rest ≤ N
  /-- What is left is of the file. -/
  left : ∀ data ∈ rest, data ∈ chunks
  /-- The hashes of the other chunks are in the database. -/
  known : ∀ data ∈ chunks, data ∈ rest ∨
    saving.storage.disk.fp2ChunkDB (generateHash sha256 data).toList ≠ none
  /-- Hashes that are new are those of chunks that were saved. -/
  added : ∀ hash, saving.storage.disk.fp2ChunkDB hash ≠ none →
    disk₀.fp2ChunkDB hash ≠ none ∨
      ∃ d ∈ K, d ∈ chunks ∧ (generateHash sha256 d).toList = hash

theorem Killable.emit_eq {memory : Memory} (hmemory : memory.Terminated) {data : Bytes}
    (hsize : data.length ≤ maxChunkSize) (saving : Saving) :
    Killable.emit sha256 memory data saving =
      Killable.dedupChunk (generateHash sha256 data).toList data saving.storage >>= fun storage =>
        pure ⟨u64 (saving.chunkIDCnt + 1), saving.recipeList ++
          [savedEntry sha256 saving.chunkIDCnt (memory.encryptKey saving.chunkIDCnt) data],
          storage⟩ := by
  rw [Killable.emit, if_neg (Nat.not_lt.mpr hsize)]
  simp only [savedKey_eq_hash.mpr (hmemory _)]
  exact Interruptible.pure_bind _ _

section
variable {disk₀ : Disk} {n₀ used₀ : Nat} {chunks : List Bytes} {N : Nat} {K₀ : Set Bytes}
  {memory : Memory}

/-- A chunk is cut off. -/
theorem Saving.Midway.emit (h₀ : disk₀.Stores sha256 K₀ n₀ used₀)
    (hopens : disk₀.Opens n₀ used₀) (hmemory : memory.Terminated) (hN : N < nameCount)
    {data : Bytes} (hsize : data.length ≤ maxChunkSize) {rest : List Bytes} {saving : Saving}
    (hK : K₀ ⊆ K) (h : saving.Midway sha256 disk₀ n₀ used₀ chunks N K n (data :: rest)) :
    (Killable.emit sha256 memory data saving).Safe
      (fun saving' => ∃ K' n', K₀ ⊆ K' ∧
        saving'.Midway sha256 disk₀ n₀ used₀ chunks N K' n' rest)
      (Disk.LeftOf sha256 disk₀ K₀ n₀ used₀) := by
  have hrotations := h.rotations
  rw [Process.rotations] at hrotations
  have hsafe := h.saves.dedupChunk h₀ hopens hK (generateHash sha256 data).toList data (by omega)
  rw [Killable.emit_eq hmemory hsize]
  refine hsafe.result.bind fun p' hp' => Interruptible.Safe.pure ?_
  obtain ⟨hdedup, K', hKK', hsaves, hknown, hother, hcarried⟩ := hp'
  rw [Killable.dedupChunk_result] at hdedup
  refine ⟨K', _, hK.trans hKK', hsaves, ?_, fun d hd => h.left d (List.mem_cons_of_mem _ hd),
    fun d hd => ?_, fun hash hhash => ?_⟩
  · rw [hdedup] at hrotations
    dsimp only at hrotations ⊢
    omega
  · dsimp only
    by_cases heq : (generateHash sha256 d).toList = (generateHash sha256 data).toList
    · rw [heq]
      exact Or.inr hknown
    · rw [hother _ heq]
      refine (h.known d hd).imp_left fun hmem => (List.mem_cons.mp hmem).resolve_left ?_
      rintro rfl
      exact heq rfl
  · dsimp only at hhash
    have hold : saving.storage.disk.fp2ChunkDB hash ≠ none → disk₀.fp2ChunkDB hash ≠ none ∨
        ∃ d ∈ K', d ∈ chunks ∧ (generateHash sha256 d).toList = hash := fun hne =>
      (h.added hash hne).imp_right fun hsaved => by
        obtain ⟨d, hd, hrest⟩ := hsaved
        exact ⟨d, hKK' hd, hrest⟩
    by_cases heq : hash = (generateHash sha256 data).toList
    · subst heq
      by_cases hnone : saving.storage.disk.fp2ChunkDB (generateHash sha256 data).toList = none
      · exact Or.inr ⟨data, hcarried hnone data rfl rfl, h.left data (List.mem_cons_self ..), rfl⟩
      · exact hold hnone
    · rw [hother hash heq] at hhash
      exact hold hhash

/-- All chunks are cut off. -/
theorem Saving.Midway.emitAll (h₀ : disk₀.Stores sha256 K₀ n₀ used₀)
    (hopens : disk₀.Opens n₀ used₀) (hmemory : memory.Terminated) (hN : N < nameCount)
    (hsizes : ∀ data ∈ chunks, data.length ≤ maxChunkSize) {saving : Saving} (hK : K₀ ⊆ K)
    (h : saving.Midway sha256 disk₀ n₀ used₀ chunks N K n chunks) :
    (Killable.emitAll sha256 memory chunks saving).Safe
      (fun saving' => ∃ K' n', K₀ ⊆ K' ∧
        saving'.Midway sha256 disk₀ n₀ used₀ chunks N K' n' [])
      (Disk.LeftOf sha256 disk₀ K₀ n₀ used₀) := by
  refine Interruptible.Safe.fold (I := fun rest (saving : Saving) => ∃ K n, K₀ ⊆ K ∧
    saving.Midway sha256 disk₀ n₀ used₀ chunks N K n rest) (fun data rest saving hmid => ?_)
      ⟨K, n, hK, h⟩
  obtain ⟨K', n', hK', hmid⟩ := hmid
  have hsize := hsizes data (hmid.left data (List.mem_cons_self ..))
  exact Saving.Midway.emit h₀ hopens hmemory hN hsize hK' hmid

/-- The chunks of a file that is accepted are carried. -/
theorem Saving.Midway.accepted {u : Uploaded} {saving : Saving}
    (h : saving.Midway sha256 disk₀ n₀ used₀ u.chunks N K n [])
    (haccepts : disk₀.Accepts sha256 kept u) (hK : contents kept ⊆ K)
    (hinj : Set.InjOn (generateHash sha256) (contents (kept ++ [u]))) :
    contents (kept ++ [u]) ⊆ K := by
  rw [contents_append] at hinj ⊢
  refine Set.union_subset hK fun data hdata => ?_
  cases haccepts.chunks data hdata with
  | inl hkept => exact hK hkept
  | inr hnone =>
      cases h.added _ ((h.known data hdata).resolve_left List.not_mem_nil) with
      | inl hold => exact absurd hnone hold
      | inr hnew =>
          obtain ⟨d, hd, hmem, hhash⟩ := hnew
          rwa [← hinj (Or.inr hmem) (Or.inr hdata) (Vector.toList_inj.mp hhash)]

/-- The entries of the recipe. -/
theorem Saving.emitAll_describes (hmemory : memory.Terminated)
    (hsizes : ∀ data ∈ chunks, data.length ≤ maxChunkSize) {saving saving' : Saving}
    (hcount : saving.chunkIDCnt + chunks.length < 2 ^ 64)
    (hrun : saving.emitAll sha256 memory chunks = .ok saving') :
    saving'.chunkIDCnt = saving.chunkIDCnt + chunks.length ∧
      ∃ entries, saving'.recipeList = saving.recipeList ++ entries ∧
        List.Forall₂ (RecipeEntry.Describes sha256) entries chunks ∧
          entries.map RecipeEntry.chunkID =
            (List.range' saving.chunkIDCnt chunks.length).map u32 := by
  induction chunks generalizing saving with
  | nil =>
      cases hrun
      exact ⟨rfl, [], (List.append_nil _).symm, .nil, rfl⟩
  | cons data chunks ih =>
      obtain ⟨saving₁, hemit, hrest⟩ := Run.except_bind_eq_ok.mp hrun
      have hsize := hsizes data (List.mem_cons_self ..)
      rw [Saving.emit_eq hmemory hsize] at hemit
      obtain ⟨storage, _, hemit⟩ := Run.except_bind_eq_ok.mp hemit
      cases hemit
      rw [List.length_cons] at hcount
      have hID : u64 (saving.chunkIDCnt + 1) = saving.chunkIDCnt + 1 := by
        rw [u64]
        omega
      rw [hID] at hrest
      obtain ⟨hcnt, entries, hlist, hdescribes, hids⟩ := ih
        (fun d hd => hsizes d (List.mem_cons_of_mem _ hd)) (by dsimp only; omega) hrest
      refine ⟨by rw [hcnt, List.length_cons]; dsimp only; omega,
        savedEntry sha256 saving.chunkIDCnt (memory.encryptKey saving.chunkIDCnt) data :: entries,
        ?_, .cons (savedEntry_describes sha256 _ _ hsize) hdescribes, ?_⟩
      · rw [hlist, List.append_assoc]
        rfl
      · rw [List.map_cons, hids, List.length_cons, List.range'_succ, List.map_cons]
        rfl

/-- Blocks of no bytes have no end. -/
theorem Killable.readFile_hangs {chunker : Chunker} (hzero : chunker.readSize = 0) (fuel : Nat)
    (file : Bytes) (cutter : Cutter) (saving : Saving) (fileSize : Nat) :
    (Killable.readFile sha256 memory chunker fuel file cutter saving fileSize).Safe
      (fun _ => False) (· = saving.storage.disk) := by
  induction fuel generalizing file fileSize with
  | zero => exact Interruptible.Safe.atomic rfl nofun
  | succ fuel ih =>
      have hblock : file.take chunker.readSize = [] := by rw [hzero, List.take_zero]
      have hlast : ¬ ([] : Bytes).length < chunker.readSize := by
        rw [hzero]
        exact Nat.lt_irrefl 0
      rw [Killable.readFile, hblock]
      change (pure (cutter, saving) >>= _ : Killable _).Safe _ _
      rw [Interruptible.pure_bind]
      simp only [if_neg hlast]
      exact ih ..

/-- The recipe of a file that is accepted. -/
theorem Disk.Catalogs.accepted {name file : Bytes} {saving : Saving}
    (h : disk₀.Catalogs sha256 kept) (hmemory : memory.Terminated)
    (hsizes : ∀ data ∈ chunks, data.length ≤ maxChunkSize) (hcount : chunks.length < 2 ^ 31)
    {p : Process} (hrun : Saving.emitAll sha256 memory chunks ⟨0, [], p⟩ = .ok saving)
    (hcatalog : saving.storage.disk.catalog = disk₀.catalog) {head : RecipeHead}
    (hhead : head = ⟨u64 file.length, generateHash sha256 name, saving.chunkIDCnt⟩)
    (hname : disk₀.fileName2metaDB (generateHash sha256 name).toList = none) :
    ∃ recipe entries,
      (saving.storage.disk.checkRecipeStatus ⟨head, head⟩ saving.recipeList).Records sha256
        (generateHash sha256 name) recipe entries chunks := by
  have hsmall : chunks.length < 2 ^ 32 :=
    hcount.trans (Nat.pow_lt_pow_right (by decide) (by decide))
  have hwide : chunks.length < 2 ^ 64 :=
    hsmall.trans (Nat.pow_lt_pow_right (by decide) (by decide))
  obtain ⟨hcnt, entries, hlist, hdescribes, hids⟩ := Saving.emitAll_describes hmemory hsizes
    (by dsimp only; omega) hrun
  dsimp only at hcnt hlist hids
  rw [Nat.zero_add] at hcnt
  rw [List.nil_append] at hlist
  have hlen := hdescribes.length_eq
  have hrange : entries.map RecipeEntry.chunkID = List.range entries.length := by
    have hsame : ∀ i ∈ List.range chunks.length, u32 i = i := fun i hi =>
      Nat.mod_eq_of_lt ((List.mem_range.mp hi).trans hsmall)
    rw [hids, hlen, ← List.range_eq_range', List.map_congr_left hsame, List.map_id']
  have hfits : head.Fits := by
    rw [hhead, hcnt]
    exact ⟨u64_lt file.length, hwide⟩
  have hunknown : saving.storage.disk.Unknown
      (Recipe.mk head head).fileRecipeHead.fileNameHash := by
    rw [hhead]
    exact Disk.Unknown.of_catalog ⟨hname, h.fresh _ hname⟩ hcatalog
  have hrecords := hunknown.checkRecipeStatus hfits hfits
    (by rw [hhead]; exact hcnt.trans hlen.symm) (hlen.trans_lt hcount) hdescribes hrange
  subst hhead
  rw [hlist]
  exact ⟨_, entries, hrecords⟩

end

/-- The chunks are saved and then the recipe, or the blocks have no end. -/
theorem Killable.varSizeChunking_safe {memory : Memory} {chunker : Chunker} {file : Bytes}
    (hroom : chunker.HasRoom) (hblocks : chunker.ShortBlocks file) {fileNameHash : Hash}
    {p : Process} {Q : Process → Prop} {C : Disk → Prop} (hstays : C p.disk)
    (hsafe : (Killable.emitAll sha256 memory (chunker.chunks memory.winFp file) ⟨0, [], p⟩ >>=
      fun saving =>
        let head : RecipeHead := ⟨u64 file.length, fileNameHash, saving.chunkIDCnt⟩
        Killable.checkRecipeStatus ⟨head, head⟩ saving.recipeList saving.storage.disk >>= fun disk =>
          pure (⟨saving.storage.core, disk⟩ : Process)).Safe Q C) :
    (Killable.varSizeChunking sha256 memory chunker fileNameHash file p).Safe Q C := by
  by_cases hread : 1 ≤ chunker.readSize
  · rw [Killable.varSizeChunking_eq hroom hread hblocks]
    exact hsafe
  · rw [Killable.varSizeChunking]
    refine ((Killable.readFile_hangs (Nat.eq_zero_of_not_pos hread) ..).mono (fun _ => id)
      ?_).bind fun _ hfalse => hfalse.elim
    rintro disk rfl
    exact hstays

theorem Killable.upload_safe {memory : Memory} {config : Configure} {chunker : Chunker}
    {name file : Bytes} {p : Process} {Q : Process → Prop} {R C : Disk → Prop}
    (hinit : config.chunkerInit = .ok chunker)
    (hstart : Process.start memory.body config.maxContainerSize disk = .ok p)
    (hchunking : (Killable.varSizeChunking sha256 memory chunker (generateHash sha256 name) file
      p).Safe Q C)
    (hfinish : ∀ p', Q p' → (Killable.finish p').Safe R C) :
    (Killable.upload sha256 memory config name file disk).Safe R C := by
  rw [Killable.upload]
  refine Interruptible.Safe.bind (Interruptible.Safe.lift fun _ hp => hp) fun p₁ hp₁ => ?_
  cases hstart.symm.trans hp₁
  refine Interruptible.Safe.bind (Interruptible.Safe.lift fun _ hchunker => hchunker)
    fun chunker₁ hchunker => ?_
  cases hinit.symm.trans hchunker
  exact hchunking.bind hfinish

/-- An upload, killed or not. -/
theorem Disk.Keeps.upload {disk₀ : Disk} {n₀ used₀ : Nat}
    (h₀ : disk₀.Keeps sha256 kept n₀ used₀) {config : Configure} {chunker : Chunker}
    {memory : Memory} {file : Bytes} (huploads : Uploads config chunker memory file) (name : Bytes)
    {p : Process} (hstart : Process.start memory.body config.maxContainerSize disk₀ = .ok p)
    (hfew : n₀ + p.rotations sha256 (chunker.chunks memory.winFp file) < nameCount) :
    (Killable.upload sha256 memory config name file disk₀).Safe
      (fun disk => ∃ n ≤ n₀ + p.rotations sha256 (chunker.chunks memory.winFp file), ∃ used,
        disk.Keeps sha256 kept n used ∧
        (disk₀.Accepts sha256 kept ⟨name, file, chunker.chunks memory.winFp file⟩ →
          Set.InjOn (generateHash sha256)
            (contents (kept ++ [⟨name, file, chunker.chunks memory.winFp file⟩])) →
          disk.Keeps sha256 (kept ++ [⟨name, file, chunker.chunks memory.winFp file⟩]) n used))
      (Disk.KeepsAfter sha256 disk₀ kept
        (n₀ + p.rotations sha256 (chunker.chunks memory.winFp file))) := by
  let u : Uploaded := ⟨name, file, chunker.chunks memory.winFp file⟩
  let N := n₀ + p.rotations sha256 u.chunks
  obtain ⟨hroom, hmax⟩ := huploads.sound.hasRoom huploads.init
  obtain ⟨p', hstart', hcarries, hdisk, hused, _⟩ :=
    h₀.stores.start h₀.opens memory.body huploads.sound.container
  cases hstart.symm.trans hstart'
  have hsizes : ∀ data ∈ chunker.chunks memory.winFp file, data.length ≤ maxChunkSize :=
    fun data hdata => (Chunker.chunks_sizes hroom hdata).2.trans hmax
  have hsaves : p.Saves sha256 disk₀ n₀ used₀ (contents kept) n₀ := by
    subst hdisk
    exact ⟨hcarries, ⟨fun _ _ hentry => hentry, Nat.le_refl _, fun _ => ⟨hused.ge, rfl⟩⟩, rfl, rfl⟩
  have hstored : (Killable.varSizeChunking sha256 memory chunker (generateHash sha256 name) file
      p).Safe
      (fun p' => ∃ K, contents kept ⊆ K ∧ ∃ n ≤ N, p'.Carries sha256 K n ∧
        p'.Since disk₀ n₀ used₀ n ∧ p'.disk.storageConfig = disk₀.storageConfig ∧
        p'.disk.Catalogs sha256 kept ∧
        (disk₀.Accepts sha256 kept u → Set.InjOn (generateHash sha256) (contents (kept ++ [u])) →
          contents (kept ++ [u]) ⊆ K ∧ p'.disk.Catalogs sha256 (kept ++ [u])))
      (Disk.KeepsAfter sha256 disk₀ kept N) := by
    refine Killable.varSizeChunking_safe hroom huploads.blocks
      (fun _ => ⟨n₀, Nat.le_add_right .., used₀, hdisk ▸ h₀⟩) ?_
    have hmid : Saving.Midway sha256 disk₀ n₀ used₀ u.chunks N (contents kept) n₀ u.chunks
        ⟨0, [], p⟩ :=
      ⟨hsaves, Nat.le_refl _, fun _ => id, fun _ => Or.inl, fun _ hhash => Or.inl (hdisk ▸ hhash)⟩
    refine ((hmid.emitAll h₀.stores h₀.opens huploads.terminated hfew hsizes subset_rfl).result.mono
      (fun _ => id) fun _ => h₀.of_leftOf (Nat.le_add_right ..)).bind fun saving hsaving => ?_
    obtain ⟨hrun, K, n, hK, hdone⟩ := hsaving
    rw [Killable.emitAll_result] at hrun
    have hn : n ≤ N := (Nat.le_add_right ..).trans hdone.rotations
    have hcatalogs := h₀.catalogs.of_catalog hdone.saves.catalog
    have hstores := hdone.saves.carries.stores hdone.saves.since (hn.trans_lt hfew) h₀.stores hK
    refine ((hcatalogs.checkRecipeStatus _ saving.recipeList).mono (fun _ => id) ?_).bind
      fun disk hdisk' => Interruptible.Safe.pure ?_
    · intro disk hleft _
      obtain ⟨hcatalogs', hsame⟩ := hleft
      refine ⟨n₀, Nat.le_add_right .., used₀, ⟨?_, h₀.opens.room⟩,
        hstores.of_same hsame.entries hsame.containers, hcatalogs', h₀.files⟩
      rw [hsame.config, hdone.saves.config]
      exact h₀.opens.config
    · obtain ⟨rfl, hcatalogs', hsame⟩ := hdisk'
      refine ⟨K, hK, n, hn, hdone.saves.carries.of_same hsame, hdone.saves.since.of_same hsame,
        hsame.config.trans hdone.saves.config, hcatalogs', fun haccepts hinj => ?_⟩
      refine ⟨hdone.accepted haccepts hK hinj, fun v hv => ?_, hcatalogs'.named,
        hcatalogs'.fresh⟩
      cases List.mem_append.mp hv with
      | inl hold => exact hcatalogs'.known v hold
      | inr hnew =>
          rw [List.mem_singleton.mp hnew]
          exact h₀.catalogs.accepted huploads.terminated hsizes huploads.count hrun
            hdone.saves.catalog rfl haccepts.name
  refine Killable.upload_safe huploads.init hstart hstored fun p' hp' => ?_
  obtain ⟨K, hK, n, hn, hcarries', hsince, hconfig, hcatalogs, haccepted⟩ := hp'
  refine (h₀.finish hcarries' hK hsince hconfig (hn.trans_lt hfew) hcatalogs).mono
    (fun disk hdone => ?_) fun disk hleft huncut => ?_
  · obtain ⟨hcatalog, used, hopens, hstores⟩ := hdone
    refine ⟨n, hn, used, ⟨hopens, hstores.subset hK, hcatalogs.of_catalog hcatalog, h₀.files⟩,
      fun haccepts hinj => ?_⟩
    obtain ⟨hsub, hcatalogs'⟩ := haccepted haccepts hinj
    refine ⟨hopens, hstores.subset hsub, hcatalogs'.of_catalog hcatalog, fun v hv => ?_⟩
    cases List.mem_append.mp hv with
    | inl hold => exact h₀.files v hold
    | inr hnew =>
        rw [List.mem_singleton.mp hnew]
        exact Chunker.flatten_chunks ..
  · obtain ⟨n', hn', hkeeps⟩ := hleft huncut
    exact ⟨n', hn'.trans hn, hkeeps⟩

end Dedup
