import JpegStorage.Dedup.Resync
import JpegStorage.Dedup.RoundTrip
import Mathlib.Algebra.BigOperators.Group.Finset.Basic

/-!
# Every chunk is stored once

After any sequence of processes the container files hold every chunk that was uploaded once,
whatever files it is in, and not a byte more (`stored_once`).

When a file is uploaded again after an edit, the containers grow by no more than the bytes between
the places in front of the edit and behind it at which both versions are cut (`edit_cost`).
-/

namespace Dedup

open Packing

/-- The bytes in the container files up to `n`. -/
def Disk.containerBytes (disk : Disk) (n : Nat) : Nat :=
  ((List.range (n + 1)).map fun i => ((disk.containers (containerName i)).getD []).length).sum

/-! ## The container files -/

/-- No container has a file but those up to `n`. -/
def Disk.FilesUpTo (n : Nat) (disk : Disk) : Prop :=
  ∀ name, disk.containers name ≠ none → ∃ i ≤ n, name = containerName i

/-- The open container of a process is `n`, and no later one has a file. -/
structure Process.FilesUpTo (n : Nat) (p : Process) : Prop where
  /-- The name of the open container. -/
  name : p.core.lastContainerFileName = containerName n
  /-- The files. -/
  files : p.disk.FilesUpTo n

section
variable {sha256 : Bytes → Hash} {n : Nat} {p p' : Process}

theorem Process.FilesUpTo.saveTOFile (h : p.FilesUpTo n) (hrun : p.saveTOFile = .ok p') :
    p'.FilesUpTo n ∧ p'.disk.storageConfig = p.disk.storageConfig := by
  rw [Process.saveTOFile] at hrun
  obtain ⟨bytes, _, hok⟩ := Run.except_bind_eq_ok.mp hrun
  cases hok
  refine ⟨⟨h.name, fun name hname => ?_⟩, rfl⟩
  by_cases heq : name = p.core.lastContainerFileName
  · exact ⟨n, Nat.le_refl n, heq.trans h.name⟩
  · rw [Disk.containers_putContainer, Function.update_of_ne heq] at hname
    exact h.files name hname

theorem Process.FilesUpTo.rotate (h : p.FilesUpTo n) (hrun : p.rotate = .ok p') :
    p'.FilesUpTo (n + 1) := by
  rw [Process.rotate] at hrun
  obtain ⟨p₁, hsave, hok⟩ := Run.except_bind_eq_ok.mp hrun
  cases hok
  obtain ⟨h₁, _⟩ := h.saveTOFile hsave
  constructor
  · rw [containerName_succ, ← h₁.name]
  · intro name hname
    obtain ⟨i, hi, heq⟩ := h₁.files name hname
    exact ⟨i, hi.trans (Nat.le_succ n), heq⟩

/-- A chunk adds a container when it makes the last one rotate. -/
theorem Process.FilesUpTo.dedupChunk (h : p.FilesUpTo n) {hash data : Bytes}
    (hrun : p.dedupChunk hash data = .ok p') :
    p'.FilesUpTo (n + if p.Rotates hash data then 1 else 0) := by
  rw [Process.dedupChunk] at hrun
  cases hentry : p.disk.fp2ChunkDB hash with
  | some key =>
      rw [hentry] at hrun
      cases hrun
      rw [if_neg fun hrotates => by cases hentry.symm.trans hrotates.1]
      exact h
  | none =>
      rw [hentry] at hrun
      obtain ⟨⟨p₂, key⟩, hwrite, hok⟩ := Run.except_bind_eq_ok.mp hrun
      cases hok
      obtain ⟨p₁, hroom, hplace⟩ := Run.except_bind_eq_ok.mp hwrite
      have h₁ : p₁.FilesUpTo (n + if p.Rotates hash data then 1 else 0) := by
        rw [Process.makeRoom] at hroom
        by_cases hfits : p.core.Fits data
        · rw [if_pos hfits] at hroom
          cases hroom
          rw [if_neg fun hrotates => hrotates.2 hfits]
          exact h
        · rw [if_neg hfits] at hroom
          rw [if_pos ⟨hentry, hfits⟩]
          exact h.rotate hroom
      obtain ⟨container, _, hplace⟩ := Run.except_bind_eq_ok.mp hplace
      split at hplace
      · cases hplace
      · cases hplace
        exact ⟨h₁.name, h₁.files⟩

theorem Process.FilesUpTo.emitAll {memory : Memory} (hmemory : memory.Terminated)
    {chunks : List Bytes} (hsizes : ∀ data ∈ chunks, data.length ≤ maxChunkSize)
    {saving saving' : Saving} (h : saving.storage.FilesUpTo n)
    (hrun : saving.emitAll sha256 memory chunks = .ok saving') :
    saving'.storage.FilesUpTo (n + saving.storage.rotations sha256 chunks) := by
  induction chunks generalizing saving n with
  | nil =>
      cases hrun
      exact h
  | cons data chunks ih =>
      obtain ⟨saving₁, hemit, hrest⟩ := Run.except_bind_eq_ok.mp hrun
      rw [Saving.emit_eq hmemory (hsizes data (List.mem_cons_self ..))] at hemit
      obtain ⟨storage, hdedup, hok⟩ := Run.except_bind_eq_ok.mp hemit
      cases hok
      rw [Process.rotations, hdedup, ← Nat.add_assoc]
      exact ih (fun d hd => hsizes d (List.mem_cons_of_mem _ hd)) (h.dedupChunk hdedup) hrest

theorem Process.FilesUpTo.checkRecipeStatus (h : p.FilesUpTo n) (recipe : Recipe)
    (entries : List RecipeEntry) :
    Process.FilesUpTo n ⟨p.core, p.disk.checkRecipeStatus recipe entries⟩ := by
  refine ⟨h.name, ?_⟩
  rw [Disk.checkRecipeStatus]
  split <;> exact h.files

theorem Process.FilesUpTo.finish (h : p.FilesUpTo n) {disk : Disk} (hrun : p.finish = .ok disk) :
    disk.FilesUpTo n ∧ disk.storageConfig ≠ none := by
  obtain ⟨p₁, hsave, hok⟩ := Run.except_bind_eq_ok.mp hrun
  cases hok
  have hconfig : Process.FilesUpTo n
      ⟨p.core, p.disk.putConfig (p.core.lastContainerFileName, p.core.currentContainer.used)⟩ :=
    ⟨h.name, h.files⟩
  obtain ⟨h₁, hsame⟩ := hconfig.saveTOFile hsave
  refine ⟨h₁.files, ?_⟩
  rw [hsame]
  exact Option.some_ne_none _

end

/-- A process that works on a library has its last container open. -/
theorem Library.filesUpTo {sha256 : Bytes → Hash} {uploads : List Uploaded} {rotations : Nat}
    {P : Chunks} {disk : Disk} (h : Library sha256 uploads rotations P disk)
    (hfiles : disk.FilesUpTo rotations) {p : Process} (hp : p.Keeps P disk) :
    p.FilesUpTo rotations := by
  refine ⟨hp.1.name.trans (congrArg containerName h.closed), ?_⟩
  rw [hp.2]
  exact hfiles

/-- The container files after uploads.  There is none before the first process. -/
theorem Runs.filesUpTo {sha256 : Bytes → Hash} {uploads : List Uploaded} {rotations : Nat}
    {disk : Disk} (h : Runs sha256 uploads rotations disk)
    (hchunks : Set.InjOn (generateHash sha256) (contents uploads))
    (hnames : Set.InjOn (generateHash sha256) (names uploads)) (hfew : rotations < nameCount) :
    disk.FilesUpTo rotations ∧
      (disk.storageConfig = none → ∀ name, disk.containers name = none) := by
  induction h with
  | first => exact ⟨fun name hname => absurd rfl hname, fun _ _ => rfl⟩
  | @upload uploads rotations disk disk' config chunker memory name file p hruns huploads hstart
      hrun ih =>
      rw [names_append] at hnames
      rw [contents_append] at hchunks
      have hold := hchunks.mono Set.subset_union_left
      have hnames' := hnames.mono (Set.subset_insert ..)
      have hfew' : rotations < nameCount := (Nat.le_add_right ..).trans_lt hfew
      obtain ⟨hfiles, _⟩ := ih hold hnames' hfew'
      obtain ⟨P, hP⟩ := hruns.library hold hnames' hfew'
      obtain ⟨p', hstart', hp, hdisk⟩ := hP.stored.start memory.body huploads.sound.container
      cases hstart.symm.trans hstart'
      obtain ⟨p₁, hstart₁, hrest⟩ := Run.except_bind_eq_ok.mp hrun
      cases hstart.symm.trans hstart₁
      obtain ⟨chunker₁, hinit, hrest⟩ := Run.except_bind_eq_ok.mp hrest
      cases huploads.init.symm.trans hinit
      obtain ⟨p₂, hchunking, hfinish⟩ := Run.except_bind_eq_ok.mp hrest
      obtain ⟨hroom, hmax⟩ := huploads.sound.hasRoom huploads.init
      rw [Chunker.varSizeChunking_eq hroom (readSize_pos huploads.init hrun) huploads.blocks]
        at hchunking
      obtain ⟨saving, hemit, hok⟩ := Run.except_bind_eq_ok.mp hchunking
      cases hok
      have hopen : (⟨0, [], p⟩ : Saving).storage.FilesUpTo rotations :=
        hP.filesUpTo hfiles ⟨hp, hdisk⟩
      have hsaved := hopen.emitAll huploads.terminated
        (fun data hdata => (Chunker.chunks_sizes hroom hdata).2.trans hmax) hemit
      exact And.imp_right (fun hsome hnone => absurd hnone hsome)
        ((hsaved.checkRecipeStatus _ _).finish hfinish)
  | @restore uploads rotations disk disk' config fresh uninit stackOf name p s hruns hsound hstart
      hrun _ _ hfinish ih =>
      obtain ⟨hfiles, _⟩ := ih hchunks hnames hfew
      obtain ⟨P, hP⟩ := hruns.library hchunks hnames hfew
      obtain ⟨p', hstart', hp, hdisk⟩ := hP.stored.start fresh hsound.container
      cases hstart.symm.trans hstart'
      have hs : s.storage.Keeps P disk :=
        Restoring.steps_kept (Process.Keeps.kept (hP.closed.trans_lt hfew) _) ⟨hp, hdisk⟩ hrun
      exact And.imp_right (fun hsome hnone => absurd hnone hsome)
        ((hP.filesUpTo hfiles hs).finish hfinish)

/-! ## The bytes in the containers -/

/-- The items of the packing are the uploaded chunks, each of them once. -/
theorem Library.items {sha256 : Bytes → Hash} {uploads : List Uploaded} {rotations : Nat}
    {P : Chunks} {disk : Disk} (h : Library sha256 uploads rotations P disk) :
    (P.items.map Prod.snd).Nodup ∧
      (P.items.map Prod.snd).toFinset = (uploads.flatMap Uploaded.chunks).toFinset := by
  have hkeys : P.items.map Prod.fst =
      (P.items.map Prod.snd).map fun data => (generateHash sha256 data).toList := by
    rw [List.map_map]
    exact List.map_congr_left fun item hitem => (h.keyed _ _ (Packs.mem_items.mp hitem)).2
  have hnodup := P.nodup_keys_items
  rw [hkeys] at hnodup
  refine ⟨hnodup.of_map _, ?_⟩
  ext data
  rw [List.mem_toFinset, List.mem_toFinset, List.mem_flatMap, List.mem_map]
  constructor
  · rintro ⟨⟨key, d⟩, hitem, rfl⟩
    exact (h.keyed _ _ (Packs.mem_items.mp hitem)).1
  · intro hdata
    exact ⟨_, Packs.mem_items.mpr (h.holds data hdata), rfl⟩

/-- The container files hold the items. -/
theorem Library.containerBytes {sha256 : Bytes → Hash} {uploads : List Uploaded} {rotations : Nat}
    {P : Chunks} {disk : Disk} (h : Library sha256 uploads rotations P disk)
    (hnone : disk.storageConfig = none → ∀ name, disk.containers name = none) :
    disk.containerBytes rotations =
      ∑ data ∈ (uploads.flatMap Uploaded.chunks).toFinset, data.length := by
  have hfile : ∀ i < P.packs.length,
      (disk.containers (containerName i)).getD [] = P.contentOf i := by
    intro i hi
    rw [Packs.length_packs] at hi
    by_cases hclosed : i < P.closed.length
    · rw [h.stored.holds.files i hclosed, Option.getD_some]
    · obtain rfl : i = P.closed.length := by omega
      rcases h.stored.last with ⟨hconfig, rfl⟩ | ⟨_, hlast⟩
      · rw [hnone hconfig]
        rfl
      · rw [hlast, Option.getD_some, P.contentOf_current]
  obtain ⟨hnodup, hset⟩ := h.items
  calc disk.containerBytes rotations
      = ((List.range P.packs.length).map fun i => (P.contentOf i).length).sum := by
        rw [Disk.containerBytes, ← h.closed, ← Packs.length_packs]
        refine congrArg List.sum (List.map_congr_left fun i hi => ?_)
        rw [hfile i (List.mem_range.mp hi)]
    _ = ((P.items.map Prod.snd).map List.length).sum := by
        rw [P.sum_length_contentOf, List.map_map]
        rfl
    _ = ∑ data ∈ (uploads.flatMap Uploaded.chunks).toFinset, data.length := by
        rw [← hset, List.sum_toFinset _ hnodup]

theorem Runs.containerBytes {sha256 : Bytes → Hash} {uploads : List Uploaded} {rotations : Nat}
    {disk : Disk} (h : Runs sha256 uploads rotations disk)
    (hchunks : Set.InjOn (generateHash sha256) (contents uploads))
    (hnames : Set.InjOn (generateHash sha256) (names uploads)) (hfew : rotations < nameCount) :
    disk.containerBytes rotations =
      ∑ data ∈ (uploads.flatMap Uploaded.chunks).toFinset, data.length := by
  obtain ⟨P, hP⟩ := h.library hchunks hnames hfew
  exact hP.containerBytes (h.filesUpTo hchunks hnames hfew).2

/-- The containers up to the last one are the only ones that have files, and their files hold
as many bytes as the different chunks that were uploaded. -/
theorem stored_once {sha256 : Bytes → Hash} {uploads : List Uploaded} {rotations : Nat}
    {disk : Disk} (hruns : Runs sha256 uploads rotations disk)
    (hchunks : Set.InjOn (generateHash sha256) (contents uploads))
    (hnames : Set.InjOn (generateHash sha256) (names uploads)) (hfew : rotations < nameCount) :
    (∀ name, disk.containers name ≠ none → ∃ i ≤ rotations, name = containerName i) ∧
      disk.containerBytes rotations =
        ∑ data ∈ (uploads.flatMap Uploaded.chunks).toFinset, data.length :=
  ⟨(hruns.filesUpTo hchunks hnames hfew).1, hruns.containerBytes hchunks hnames hfew⟩

/-- The three bytes `abc` are stored once. -/
theorem stored_once_abc :
    ∃ rotations disk,
      Runs (fun _ => digestABC) [⟨[97, 98, 99], [97, 98, 99], [[97, 98, 99]]⟩,
        ⟨[97, 98, 99], [97, 98, 99], [[97, 98, 99]]⟩] rotations disk ∧
          disk.containerBytes rotations = 3 := by
  obtain ⟨rotations₁, P₁, disk₁, hle₁, habc₁⟩ := LibraryABC.empty.upload (by decide) (Or.inr rfl)
  have hfew₁ : rotations₁ + 1 < nameCount :=
    (Nat.succ_le_succ hle₁).trans_lt (by decide)
  obtain ⟨rotations, P, disk, hle, habc⟩ := habc₁.upload hfew₁ (Or.inr rfl)
  refine ⟨rotations, disk, habc.runs, ?_⟩
  exact (stored_once habc.runs (injOn_singleton habc.contents) (injOn_singleton habc.names)
    (hle.trans_lt hfew₁)).2

/-! ## The cost of an edit -/

/-- The chunks of a file add no more bytes than those that are not stored already. -/
theorem sum_toFinset_append_le {stored chunks new : List Bytes}
    (hknown : ∀ data ∈ chunks, data ∈ stored ∨ data ∈ new) :
    ∑ data ∈ (stored ++ chunks).toFinset, data.length ≤
      ∑ data ∈ stored.toFinset, data.length + new.flatten.length := by
  have hsub : (stored ++ chunks).toFinset ⊆ stored.toFinset ∪ new.toFinset := by
    intro data hdata
    rw [Finset.mem_union, List.mem_toFinset, List.mem_toFinset]
    rw [List.mem_toFinset] at hdata
    exact (List.mem_append.mp hdata).elim Or.inl (hknown data)
  have hnew : ∑ data ∈ new.toFinset, data.length ≤ new.flatten.length := by
    have hdedup : new.toFinset = new.dedup.toFinset :=
      List.toFinset.ext fun _ => List.mem_dedup.symm
    rw [hdedup, List.sum_toFinset _ new.nodup_dedup, List.length_flatten]
    exact (new.dedup_sublist.map List.length).sum_le_sum fun _ _ => Nat.zero_le _
  have hunion : ∑ data ∈ stored.toFinset ∪ new.toFinset, data.length +
      ∑ data ∈ stored.toFinset ∩ new.toFinset, data.length =
        ∑ data ∈ stored.toFinset, data.length + ∑ data ∈ new.toFinset, data.length :=
    Finset.sum_union_inter
  have hle : ∑ data ∈ (stored ++ chunks).toFinset, data.length ≤
      ∑ data ∈ stored.toFinset ∪ new.toFinset, data.length := Finset.sum_le_sum_of_subset hsub
  omega

/-- A file is uploaded again with another middle.  Where both versions are cut `j` bytes behind
their begin, in front of it, and `k` bytes behind it, the containers grow by the bytes between
these cuts at the most. -/
theorem edit_cost {sha256 : Bytes → Hash} {uploads : List Uploaded} {rotations : Nat}
    {disk disk' : Disk} (hruns : Runs sha256 uploads rotations disk) {config : Configure}
    {chunker : Chunker} {memory : Memory} {winFp : UInt16} {name front mid mid' tail : Bytes}
    {j k : Nat} {u : Uploaded} (hu : u ∈ uploads)
    (hold : u.chunks = chunker.chunks winFp (front ++ mid ++ tail))
    (huploads : Uploads config chunker memory (front ++ mid' ++ tail)) {p : Process}
    (hstart : Process.start memory.body config.maxContainerSize disk = .ok p)
    (hrun : upload sha256 memory config name (front ++ mid' ++ tail) disk = .ok disk')
    (hchunks : Set.InjOn (generateHash sha256) (contents (uploads ++
      [⟨name, front ++ mid' ++ tail, chunker.chunks memory.winFp (front ++ mid' ++ tail)⟩])))
    (hnames : Set.InjOn (generateHash sha256) (insert name (names uploads)))
    (hfew : rotations + p.rotations sha256 (chunker.chunks memory.winFp (front ++ mid' ++ tail)) <
      nameCount)
    (hj : j ≤ front.length)
    (hfront : j = 0 ∨ memory.winFp = winFp ∧ chunker.CutsAt winFp front j)
    (hcut : chunker.CutsAt winFp (front ++ mid ++ tail) ((front ++ mid).length + k))
    (hcut' : chunker.CutsAt memory.winFp (front ++ mid' ++ tail) ((front ++ mid').length + k)) :
    disk'.containerBytes
        (rotations + p.rotations sha256 (chunker.chunks memory.winFp (front ++ mid' ++ tail))) ≤
      disk.containerBytes rotations + ((front.length - j) + mid'.length + k) := by
  have hruns' := Runs.upload hruns huploads hstart hrun
  rw [hruns'.containerBytes hchunks (names_append uploads _ ▸ hnames) hfew]
  rw [contents_append] at hchunks
  rw [hruns.containerBytes (hchunks.mono Set.subset_union_left)
    (hnames.mono (Set.subset_insert ..)) ((Nat.le_add_right ..).trans_lt hfew)]
  obtain ⟨first, before, before', shared, hchunks₁, hchunks₂, hflat⟩ :=
    Chunker.chunks_shared hj hfront hcut hcut'
  have hstored : ∀ data ∈ u.chunks, data ∈ uploads.flatMap Uploaded.chunks :=
    fun data hdata => List.mem_flatMap.mpr ⟨u, hu, hdata⟩
  rw [hold, hchunks₁] at hstored
  have hknown : ∀ data ∈ first ++ (before' ++ shared),
      data ∈ uploads.flatMap Uploaded.chunks ∨ data ∈ before' := by
    intro data hdata
    rcases List.mem_append.mp hdata with hfirst | hrest
    · exact Or.inl (hstored data (List.mem_append_left _ hfirst))
    · cases List.mem_append.mp hrest with
      | inl hnew => exact Or.inr hnew
      | inr hshared =>
          exact Or.inl (hstored data (List.mem_append_right _ (List.mem_append_right _ hshared)))
  have hsum := sum_toFinset_append_le hknown
  rw [hflat, List.length_append, List.length_append, List.length_drop] at hsum
  rw [List.flatMap_append, List.flatMap_singleton, hchunks₂]
  dsimp only
  have htake := List.length_take_le k tail
  omega

/-- Two bytes are inserted between two chunks, and the containers grow by no more than these. -/
theorem edit_cost_inserted :
    ∃ rotations rotations' disk disk',
      Runs headHash
        [⟨[97], [97, 98, 99], [[97, 98], [99]]⟩] rotations disk ∧
      upload headHash zeroMemory evenConfigure [97]
        ([97, 98] ++ [100, 102] ++ [99]) disk = .ok disk' ∧
        disk'.containerBytes rotations' ≤ disk.containerBytes rotations + 2 := by
  let sha256 := headHash
  let u : Uploaded := ⟨[97], [97, 98, 99], [[97, 98], [99]]⟩
  let file' : Bytes := [97, 98] ++ [100, 102] ++ [99]
  have hlibrary := Library.empty sha256
  have huploads : Uploads evenConfigure evenChunker zeroMemory u.file :=
    uploads_evenConfigure (by decide) (by decide)
  have huploads' : Uploads evenConfigure evenChunker zeroMemory file' :=
    uploads_evenConfigure (by decide) (by decide)
  have hnames : Set.InjOn (generateHash sha256) (insert [97] (names [])) :=
    injOn_first [[97]] (by
      rintro name (rfl | ⟨v, hv, _⟩)
      · exact List.mem_singleton_self _
      · cases hv) (by decide)
  have hnames' : Set.InjOn (generateHash sha256) (insert [97] (names [u])) :=
    injOn_first [[97]] (by
      rintro name (rfl | ⟨v, hv, rfl⟩)
      · exact List.mem_singleton_self _
      · rw [List.mem_singleton.mp hv]
        exact List.mem_singleton_self _) (by decide)
  have hcontents : ∀ data ∈ contents ([u] ++ [⟨[97], file', evenChunker.chunks zeroMemory.winFp
      file'⟩]), data ∈ [[97, 98], [99], [100, 102]] := by
    have hall : ∀ data ∈ u.chunks ++ evenChunker.chunks zeroMemory.winFp file',
        data ∈ [[97, 98], [99], [100, 102]] := by decide
    rintro data ⟨v, hv, hdata⟩
    rcases List.mem_cons.mp hv with rfl | hv
    · exact hall data (List.mem_append_left _ hdata)
    · rw [List.mem_singleton.mp hv] at hdata
      exact hall data (List.mem_append_right _ hdata)
  have hchunks' := injOn_first _ hcontents (by decide)
  have hchunks : Set.InjOn (generateHash sha256) (contents ([] ++ [u])) := by
    rw [contents_append] at hchunks'
    exact hchunks'.mono Set.subset_union_left
  obtain ⟨p, hstart, _⟩ := hlibrary.stored.start zeroMemory.body evenConfigure_sound.container
  have hrotations : p.rotations sha256 (evenChunker.chunks zeroMemory.winFp u.file) ≤ 2 :=
    Process.rotations_le _ p
  obtain ⟨disk, P, hrun, hlibrary⟩ := hlibrary.upload [97] huploads (by decide) hstart hchunks
    hnames (by rw [Nat.zero_add]; exact hrotations.trans_lt (by decide))
  obtain ⟨p', hstart', _⟩ := hlibrary.stored.start zeroMemory.body evenConfigure_sound.container
  have hrotations' : p'.rotations sha256 (evenChunker.chunks zeroMemory.winFp file') ≤ 3 :=
    Process.rotations_le _ p'
  have hfew : 0 + p.rotations sha256 (evenChunker.chunks zeroMemory.winFp u.file) +
      p'.rotations sha256 (evenChunker.chunks zeroMemory.winFp file') < nameCount := by
    rw [Nat.zero_add]
    exact (Nat.add_le_add hrotations hrotations').trans_lt (by decide)
  obtain ⟨disk', P', hrun', _⟩ := hlibrary.upload [97] huploads' (by decide) hstart' hchunks'
    hnames' hfew
  have hruns := Runs.upload Runs.first huploads hstart hrun
  have hold : u.chunks = evenChunker.chunks zeroMemory.winFp ([97, 98] ++ [] ++ [99]) := by decide
  have hfront : evenChunker.CutsAt zeroMemory.winFp [97, 98] 2 := by
    rw [Chunker.CutsAt]
    rfl
  have hcut : evenChunker.CutsAt zeroMemory.winFp ([97, 98] ++ [] ++ [99]) (2 + 0) := by
    rw [Chunker.CutsAt]
    rfl
  have hcut' : evenChunker.CutsAt zeroMemory.winFp ([97, 98] ++ [100, 102] ++ [99]) (4 + 0) := by
    rw [Chunker.CutsAt]
    rfl
  have hgrows := edit_cost hruns (List.mem_singleton_self u) hold huploads' hstart' hrun' hchunks'
    hnames' hfew (Nat.le_refl 2) (Or.inr ⟨rfl, hfront⟩) hcut hcut'
  exact ⟨_, _, disk, disk', hruns, hrun', hgrows⟩

end Dedup
