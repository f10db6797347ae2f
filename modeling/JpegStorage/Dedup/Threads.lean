import JpegStorage.Dedup.Library

/-!
# More than one thread

Every thread of `RecvDecode::run` begins at the first entry of the recipe, so that the
queue gets every chunk from each of them.  What the retriever writes is the file when
there is one thread, or no more than one chunk, and otherwise not in every run
(`restore_in_order_iff`).
-/

namespace Dedup

section
variable {sha256 : Bytes → Hash} {P : Chunks} {fileName : Bytes} {entries : List RecipeEntry}
  {chunks : List Bytes} {disk : Disk} {uninit : UInt64} {config : Configure}
  {stackOf : Nat → Nat → UInt8} {threads : Nat}

/-- What was pushed is not taken back. -/
theorem Restoring.Step.pushed {r : RecvDecode} {s s' : Restoring}
    (h : s.Step r stackOf threads s') : s.received ++ s.queue <+: s'.received ++ s'.queue := by
  cases h with
  | decode _ _ => exact ⟨_, List.append_assoc ..⟩
  | recv _ hqueue =>
      rw [hqueue]
      exact ⟨[], by rw [List.append_nil, List.append_assoc, List.singleton_append]⟩

theorem Restoring.steps_pushed {r : RecvDecode} {s s' : Restoring}
    (h : Relation.ReflTransGen (Restoring.Step r stackOf threads) s s') :
    s.received ++ s.queue <+: s'.received ++ s'.queue := by
  induction h with
  | refl => exact List.prefix_rfl
  | tail _ hstep ih => exact ih.trans hstep.pushed

/-- A thread can push its next chunk before the others do anything. -/
theorem Disk.StoresFile.exists_push (h : disk.StoresFile sha256 P fileName entries chunks)
    (hbatch : i32 config.sendChunkBatchSize ≠ 0 ∨ entries.length = 0) {t : Nat} (ht : t < threads)
    {n : Nat → Nat} {s : Restoring}
    (hexact : s.Exact (recvDecode sha256 uninit config fileName disk) (Process.Keeps P disk)
      (disk.recipeFile (generateHash sha256 fileName).toList) stackOf threads
      (fun _ => entries.length) n)
    {chunk : Chunk} (hchunk : (restoredChunks entries chunks)[n t]? = some chunk) :
    ∃ s', Relation.ReflTransGen
        (Restoring.Step (recvDecode sha256 uninit config fileName disk) stackOf threads) s s' ∧
      s'.received = s.received ∧ s'.queue = s.queue ++ [chunk] ∧
        s'.Exact (recvDecode sha256 uninit config fileName disk) (Process.Keeps P disk)
          (disk.recipeFile (generateHash sha256 fileName).toList) stackOf threads
          (fun _ => entries.length) (Function.update n t (n t + 1)) := by
  have hlt : n t < entries.length := by
    rw [← length_restoredChunks h.describes]
    exact (List.getElem?_eq_some_iff.mp hchunk).1
  have hhalting : Halting (recvDecode sha256 uninit config fileName disk) (Process.Keeps P disk)
      (disk.recipeFile (generateHash sha256 fileName).toList) stackOf threads
      fun _ => entries.length := h.halting hbatch
  induction hmeasure : (s.decoders t).measure (recvDecode sha256 uninit config fileName disk)
      entries.length using Nat.strongRecOn generalizing s with
  | ind m ih =>
      have hp := hexact.counts.storage
      have hnot : (recvDecode sha256 uninit config fileName disk).decode (stackOf t) s.storage
          (s.decoders t) ≠ none := by
        intro hnone
        have hstopped := (hexact.counts.tracks t ht).stopped hlt.le (hhalting.restores t ht)
          (hhalting.stops t ht) hhalting.kept hp hnone
        exact hlt.ne hstopped.2
      obtain ⟨⟨decoder, pushed, p⟩, hdecode⟩ := Option.ne_none_iff_exists'.mp hnot
      obtain ⟨hexact', hless⟩ := hexact.decode hhalting ht hdecode
      cases h.pushed (hexact.counts.tracks t ht) hlt.le hp hdecode with
      | inl hquiet =>
          subst hquiet
          rw [List.length_nil, Nat.add_zero, Function.update_eq_self] at hexact'
          have hupdate : (Function.update s.decoders t decoder) t = decoder :=
            Function.update_self ..
          obtain ⟨s', hrun, hreceived, hqueue, hs'⟩ := ih _ (hmeasure ▸ hless) hexact'
            (congrArg _ hupdate)
          refine ⟨s', .head (.decode ht hdecode) hrun, hreceived, ?_, hs'⟩
          rw [hqueue]
          exact congrArg (· ++ [chunk]) (List.append_nil _)
      | inr hpush =>
          obtain ⟨chunk', hchunk', rfl⟩ := hpush
          cases hchunk.symm.trans hchunk'
          exact ⟨_, .single (.decode ht hdecode), rfl, rfl, hexact'⟩

/-- Two threads push the first chunk twice. -/
theorem Disk.StoresFile.not_ends_in_order
    (h : disk.StoresFile sha256 P fileName entries chunks)
    (hids : (entries.map RecipeEntry.chunkID).Nodup)
    (hbatch : i32 config.sendChunkBatchSize ≠ 0 ∨ entries.length = 0) {p : Process}
    (hp : p.Keeps P disk) (hthreads : 1 < threads) (hlen : 1 < entries.length) :
    ¬ Ends (Restoring.Step (recvDecode sha256 uninit config fileName disk) stackOf threads)
      (fun s => s.received = restoredChunks entries chunks)
      (Restoring.start (recvDecode sha256 uninit config fileName disk) p) := by
  intro hends
  obtain ⟨c₀, c₁, rest, hexpected, hne⟩ : ∃ c₀ c₁ rest,
      restoredChunks entries chunks = c₀ :: c₁ :: rest ∧ c₀ ≠ c₁ := by
    have hdescribes := h.describes
    match entries, chunks, hdescribes with
    | [], _, .nil => exact absurd hlen (Nat.not_lt_zero _)
    | [_], _, .cons _ .nil => exact absurd hlen (Nat.lt_irrefl _)
    | e₀ :: e₁ :: _, d₀ :: d₁ :: _, .cons _ (.cons _ _) =>
        refine ⟨_, _, _, rfl, fun heq => ?_⟩
        have hID : e₀.chunkID = e₁.chunkID := congrArg Chunk.id heq
        rw [List.map_cons, List.map_cons, hID] at hids
        exact (List.nodup_cons.mp hids).1 (List.mem_cons_self ..)
  have hfirst : (restoredChunks entries chunks)[0]? = some c₀ := by rw [hexpected]; rfl
  obtain ⟨s₁, hrun₁, hreceived₁, hqueue₁, hexact₁⟩ :=
    h.exists_push hbatch (Nat.zero_lt_of_lt hthreads) (Restoring.exact_start hp) hfirst
  have hzero : Function.update (fun _ => 0) 0 (0 + 1) 1 = 0 := rfl
  obtain ⟨s₂, hrun₂, hreceived₂, hqueue₂, _⟩ :=
    h.exists_push hbatch hthreads hexact₁ (hzero ▸ hfirst)
  obtain ⟨s₃, hrun₃, _, hdone⟩ := (hends.steps (hrun₁.trans hrun₂)).exists_end
  have hpushed := Restoring.steps_pushed hrun₃
  rw [hreceived₂, hqueue₂, hreceived₁, hqueue₁, hdone, hexpected] at hpushed
  obtain ⟨tail, htail⟩ := hpushed
  exact hne (List.cons.inj (List.cons.inj htail).2).1

/-- Empty batches have no end. -/
theorem Disk.StoresFile.not_ends_endless
    (h : disk.StoresFile sha256 P fileName entries chunks)
    (hbatch : i32 config.sendChunkBatchSize = 0) (hlen : entries.length ≠ 0) {p : Process}
    (hp : p.Keeps P disk) (hthreads : 0 < threads) {Q : Restoring → Prop} :
    ¬ Ends (Restoring.Step (recvDecode sha256 uninit config fileName disk) stackOf threads) Q
      (Restoring.start (recvDecode sha256 uninit config fileName disk) p) := by
  intro hends
  have htotal : (recvDecode sha256 uninit config fileName disk).totalChunkNumber ≠ 0 :=
    (h.totalChunkNumber uninit).trans_ne hlen
  have hfile : ∀ p' : Process, p'.Keeps P disk →
      p'.disk.recipeFile (generateHash sha256 fileName).toList ≠ none := by
    intro p' hp'
    obtain ⟨recipe, rest, hrecipe⟩ := h.recipeFile
    rw [hp'.2, hrecipe]
    exact Option.some_ne_none _
  have hstays : ∀ p' decoder decoder' pushed p'', p'.Keeps P disk → decoder.Idle →
      (recvDecode sha256 uninit config fileName disk).decode (stackOf 0) p' decoder =
        some (decoder', pushed, p'') → decoder'.Idle := by
    intro p' decoder decoder' pushed p'' hp' hidle hdecode
    obtain ⟨decoder'', hdecode', hidle'⟩ := hidle.step hbatch htotal (hfile p' hp')
    cases hdecode.symm.trans hdecode'
    exact hidle'
  obtain ⟨s, hrun, hstop, _⟩ := hends.exists_end
  obtain ⟨hs, hidle⟩ :=
    Restoring.thread_stays h.kept hstays hp (Decoder.idle_start hbatch) hrun
  obtain ⟨decoder, hdecode, _⟩ := hidle.step hbatch htotal (hfile _ hs)
  exact hstop _ (.decode hthreads hdecode)

/-- Every run restores the file exactly when there is one thread, or no more than one
chunk. -/
theorem restore_in_order_iff {fresh : Nat → UInt8} {p : Process}
    (h : disk.StoresFile sha256 P fileName entries chunks)
    (hids : (entries.map RecipeEntry.chunkID).Nodup) (hmax : config.maxContainerSize ≤ 2 ^ 24)
    (hstart : Process.start fresh config.maxContainerSize disk = .ok p)
    (hthreads : 1 ≤ config.recvDecodeThreadLimit) (uninit : UInt64)
    (stackOf : Nat → Nat → UInt8) :
    Ends (Restoring.Step (recvDecode sha256 uninit config fileName disk) stackOf
        config.recvDecodeThreadLimit.toNat)
      (fun s => s.received = restoredChunks entries chunks)
      (Restoring.start (recvDecode sha256 uninit config fileName disk) p) ↔
    (config.recvDecodeThreadLimit = 1 ∨ entries.length ≤ 1) ∧
      (i32 config.sendChunkBatchSize ≠ 0 ∨ entries.length = 0) := by
  obtain ⟨p', hstart', hp, hdisk⟩ := h.stored.start fresh hmax
  cases hstart.symm.trans hstart'
  have hpos : 0 < config.recvDecodeThreadLimit.toNat := by omega
  have hkeeps : p.Keeps P disk := ⟨hp, hdisk⟩
  constructor
  · intro hends
    have hbatch : i32 config.sendChunkBatchSize ≠ 0 ∨ entries.length = 0 := by
      by_contra hnot
      obtain ⟨hzero, hlen⟩ := not_or.mp hnot
      exact h.not_ends_endless (not_not.mp hzero) hlen hkeeps hpos hends
    refine ⟨?_, hbatch⟩
    by_contra hnot
    obtain ⟨hone, hlen⟩ := not_or.mp hnot
    exact h.not_ends_in_order hids hbatch hkeeps (by omega) (Nat.lt_of_not_le hlen) hends
  · rintro ⟨horder, hbatch⟩
    have horder' : config.recvDecodeThreadLimit.toNat = 1 ∨ entries.length ≤ 1 :=
      horder.imp_left fun hone => by rw [hone]; rfl
    exact (h.ends hbatch hkeeps hpos horder').mono fun s _ hdone => hdone.received

end

/-! ## Two chunks -/

/-- `evenConfigure` with other threads. -/
def evenThreads (threads : Int) : Configure :=
  { evenConfigure with recvDecodeThreadLimit := threads }

/-- The file `abc` is stored in two chunks. -/
theorem exists_abcInTwo : ∃ P disk entries,
    Disk.StoresFile headHash P [97] entries [[97, 98], [99]] disk ∧
      (entries.map RecipeEntry.chunkID).Nodup := by
  obtain ⟨_, disk, P, _, hrotations, _, hlibrary⟩ := upload_abcInTwo
  obtain ⟨entries, hstores, hids⟩ := hlibrary.storesFile (hrotations.trans_lt (by decide))
    (show firstUpload [abcInTwo] [97] = some abcInTwo from rfl)
  exact ⟨P, disk, entries, hstores, hids⟩

/-- One thread restores it. -/
theorem restore_in_order_one :
    ∃ P disk entries p, Disk.StoresFile headHash P [97] entries [[97, 98], [99]] disk ∧
      Process.start 0 8388608 disk = .ok p ∧
        Ends (Restoring.Step (recvDecode headHash 0 (evenThreads 1) [97] disk) (fun _ _ => 0) 1)
          (fun s => s.received = restoredChunks entries [[97, 98], [99]])
          (Restoring.start (recvDecode headHash 0 (evenThreads 1) [97] disk) p) := by
  obtain ⟨P, disk, entries, hstores, hids⟩ := exists_abcInTwo
  have hmax : (evenThreads 1).maxContainerSize ≤ 2 ^ 24 := by decide
  obtain ⟨p, hstart, _⟩ := hstores.stored.start 0 hmax
  have hends := restore_in_order_iff hstores hids hmax hstart (Int.le_refl 1) 0 fun _ _ => 0
  exact ⟨P, disk, entries, p, hstores, hstart, hends.mpr ⟨Or.inl rfl, Or.inl (by decide)⟩⟩

/-- Two threads do not restore it in every run. -/
theorem two_threads_disorder :
    ∃ P disk entries p, Disk.StoresFile headHash P [97] entries [[97, 98], [99]] disk ∧
      Process.start 0 8388608 disk = .ok p ∧
        ¬ Ends (Restoring.Step (recvDecode headHash 0 (evenThreads 2) [97] disk) (fun _ _ => 0) 2)
          (fun s => s.received = restoredChunks entries [[97, 98], [99]])
          (Restoring.start (recvDecode headHash 0 (evenThreads 2) [97] disk) p) := by
  obtain ⟨P, disk, entries, hstores, hids⟩ := exists_abcInTwo
  have hmax : 8388608 ≤ 2 ^ 24 := by decide
  obtain ⟨p, hstart, hp, hdisk⟩ := hstores.stored.start 0 hmax
  refine ⟨P, disk, entries, p, hstores, hstart, ?_⟩
  have hlen : 1 < entries.length := by
    rw [hstores.describes.length_eq]
    exact Nat.one_lt_two
  exact hstores.not_ends_in_order hids (Or.inl (by decide)) ⟨hp, hdisk⟩ Nat.one_lt_two hlen

end Dedup
