import JpegStorage.Dedup.ContainerStore

/-!
# Every reachable store is sound

`Reachable` is any order of chunk saves, chunk reads and restarts of the process.  It
keeps what was saved under each hash and which container names were given out, and
`Sound` relates both to the databases, the files and the memory of the process.
-/

namespace Dedup

open Packing

/-- The first bytes saved under a hash stay. -/
def keepFirst (saved : Bytes → Option Bytes) (hash data : Bytes) : Bytes → Option Bytes :=
  Function.update saved hash (some ((saved hash).getD data))

/-- The states of a store, with the chunks saved and the container names given out. -/
inductive Reachable (maxContainerSize : Nat) :
    Process → (Bytes → Option Bytes) → List Name → Prop where
  | first {fresh : Nat → UInt8} {p : Process} :
      Process.start fresh maxContainerSize .empty = .ok p →
      Reachable maxContainerSize p (fun _ => none) [p.core.lastContainerFileName]
  | save {p p' : Process} {saved : Bytes → Option Bytes} {names : List Name}
      {hash data : Bytes} :
      Reachable maxContainerSize p saved names → 1 ≤ data.length → data.length ≤ maxChunkSize →
      p.dedupChunk hash data = .ok p' →
      Reachable maxContainerSize p' (keepFirst saved hash data)
        (if p.Rotates hash data then names ++ [p'.core.lastContainerFileName] else names)
  | restore {p p' : Process} {saved : Bytes → Option Bytes} {names : List Name}
      {hash data : Bytes} :
      Reachable maxContainerSize p saved names → p.restoreChunk hash = .ok (data, p') →
      Reachable maxContainerSize p' saved names
  | reopen {fresh : Nat → UInt8} {p p' : Process} {disk : Disk}
      {saved : Bytes → Option Bytes} {names : List Name} :
      Reachable maxContainerSize p saved names → p.finish = .ok disk →
      Process.start fresh maxContainerSize disk = .ok p' →
      Reachable maxContainerSize p' saved names

/-- The bytes of a container, in memory or in its file. -/
def Process.contents (p : Process) (name : Name) : Option Bytes :=
  if name = p.core.lastContainerFileName then
    some (Buffer.read p.core.currentContainer.body 0 p.core.currentContainer.used)
  else p.disk.containers name

/-- What holds of a store with these chunks and container names. -/
structure Process.Sound (maxContainerSize : Nat) (p : Process) (saved : Bytes → Option Bytes)
    (names : List Name) : Prop where
  /-- An entry designates the bytes saved under its hash. -/
  designates : ∀ hash key, p.disk.fp2ChunkDB hash = some key →
    ∃ data bytes, saved hash = some data ∧ p.contents key.containerName = some bytes ∧
      key.length = data.length ∧ key.offset + key.length ≤ bytes.length ∧
      (bytes.drop key.offset).take key.length = data
  /-- What was saved has an entry. -/
  known : ∀ hash data, saved hash = some data → ∃ key, p.disk.fp2ChunkDB hash = some key
  /-- Entries of one container do not overlap. -/
  disjoint : ∀ hash hash' key key', hash ≠ hash' → p.disk.fp2ChunkDB hash = some key →
    p.disk.fp2ChunkDB hash' = some key' → key.containerName = key'.containerName →
    key.offset + key.length ≤ key'.offset ∨ key'.offset + key'.length ≤ key.offset
  /-- The entries of a container leave nothing out. -/
  tiled : ∀ name ∈ names, ∃ bytes, p.contents name = some bytes ∧
    ∀ pos < bytes.length, ∃ hash key, p.disk.fp2ChunkDB hash = some key ∧
      key.containerName = name ∧ key.offset ≤ pos ∧ pos < key.offset + key.length
  /-- What is used of the open container is in its body. -/
  used : p.core.currentContainer.used ≤ bodySize
  /-- No name is given out twice. -/
  distinct : names.Nodup
  /-- The open container has the name given out last. -/
  last : names.getLast? = some p.core.lastContainerFileName
  /-- What was saved is read back. -/
  restores : ∀ hash data, saved hash = some data → ∃ p', p.restoreChunk hash = .ok (data, p')
  /-- A chunk can be saved, and is written inside the body. -/
  saves : ∀ hash data, 1 ≤ data.length → data.length ≤ maxChunkSize →
    ∃ p', p.dedupChunk hash data = .ok p'
  /-- A read stays inside the bodies. -/
  reads : ∀ hash, p.restoreChunk hash ≠ .error .undefined
  /-- The process can be restarted. -/
  reopens : ∀ fresh, ∃ disk p', p.finish = .ok disk ∧
    Process.start fresh maxContainerSize disk = .ok p'

/-! ## The packing behind a reachable store -/

/-- The names given out are the names of the packs. -/
def Chunks.names (P : Chunks) : List Name := (List.range (P.closed.length + 1)).map containerName

/-- The chunks saved are the items of the packing. -/
def Chunks.Saves (P : Chunks) (saved : Bytes → Option Bytes) : Prop :=
  ∀ hash data, saved hash = some data ↔ P.Holds hash data

theorem length_names (P : Chunks) : (Chunks.names P).length = P.closed.length + 1 := by
  rw [Chunks.names, List.length_map, List.length_range]

/-- An entry is an item of the packing. -/
theorem Chunks.Saves.keepFirst {P P' : Chunks} {saved : Bytes → Option Bytes}
    {hash data : Bytes} (h : Chunks.Saves P saved)
    (hP' : ∀ k d, P'.Holds k d ↔ P.Holds k d ∨ ¬ P.Has hash ∧ k = hash ∧ d = data) :
    Chunks.Saves P' (keepFirst saved hash data) := by
  intro k d
  rw [hP', Packs.has_iff_holds, Dedup.keepFirst]
  by_cases heq : k = hash
  · subst heq
    rw [Function.update_self]
    cases hsaved : saved k with
    | some old =>
        have hold : P.Holds k old := (h k old).mp hsaved
        constructor
        · intro hd
          exact Or.inl (Option.some.inj hd ▸ hold)
        · intro hor
          cases hor with
          | inl hd => rw [hold.unique hd]; rfl
          | inr hnew => exact absurd ⟨old, hold⟩ hnew.1
    | none =>
        have hnot : ¬ ∃ d, P.Holds k d := by
          rintro ⟨d, hd⟩
          rw [(h k d).mpr hd] at hsaved
          cases hsaved
        constructor
        · intro hd
          exact Or.inr ⟨hnot, rfl, (Option.some.inj hd).symm⟩
        · intro hor
          cases hor with
          | inl hd => exact absurd ⟨d, hd⟩ hnot
          | inr hnew => rw [hnew.2.2]; rfl
  · rw [Function.update_of_ne heq, h k d]
    exact ⟨Or.inl, fun hor => hor.elim id fun hnew => absurd hnew.2.1 heq⟩

theorem Reachable.consistent {maxContainerSize : Nat} (hmax : maxContainerSize ≤ 2 ^ 24)
    {p : Process} {saved : Bytes → Option Bytes} {names : List Name}
    (h : Reachable maxContainerSize p saved names) (hfew : names.length ≤ nameCount) :
    ∃ P : Chunks, p.Consistent P ∧ names = Chunks.names P ∧ Chunks.Saves P saved := by
  induction h with
  | @first fresh p hstart =>
      obtain ⟨p', hrun, hp', _⟩ := Disk.stored_empty.start fresh hmax
      obtain rfl := Except.ok.inj (hrun.symm.trans hstart)
      refine ⟨.empty, hp', ?_, fun hash data => ⟨nofun, fun hd => absurd hd Packs.holds_empty⟩⟩
      rw [hp'.name]
      rfl
  | @save p p' saved names hash data _ hlow hhigh hrun ih =>
      have hle : names.length ≤ nameCount := by
        refine le_trans ?_ hfew
        split
        · rw [List.length_append]
          exact Nat.le_add_right ..
        · exact Nat.le_refl _
      obtain ⟨P, hp, rfl, hsaves⟩ := ih hle
      rw [length_names] at hle
      obtain ⟨p₁, P', hrun', hp₁, _, hlen, hholds⟩ := hp.dedupChunk hle hash hhigh
      obtain rfl := Except.ok.inj (hrun'.symm.trans hrun)
      refine ⟨P', hp₁, ?_, hsaves.keepFirst hholds⟩
      rw [Chunks.names, Chunks.names, hlen, hp₁.name, hlen]
      split
      · rw [List.range_succ (n := P.closed.length + 1), List.map_append]
        rfl
      · rfl
  | @restore p p' saved names hash data _ hrun ih =>
      obtain ⟨P, hp, rfl, hsaves⟩ := ih hfew
      refine ⟨P, ?_, rfl, hsaves⟩
      rw [length_names] at hfew
      cases hentry : p.disk.fp2ChunkDB hash with
      | none =>
          rw [Process.restoreChunk, hentry] at hrun
          cases hrun
      | some key =>
          obtain ⟨i, off, data', hat, _⟩ := (hp.disk.entries hash key).mp hentry
          obtain ⟨p₁, hrun', hp₁, _⟩ := hp.restoreChunk hfew ⟨i, off, hat⟩
          obtain ⟨_, rfl⟩ := Prod.mk.inj (Except.ok.inj (hrun'.symm.trans hrun))
          exact hp₁
  | @reopen fresh p p' disk saved names _ hfinish hstart ih =>
      obtain ⟨P, hp, rfl, hsaves⟩ := ih hfew
      refine ⟨P, ?_, rfl, hsaves⟩
      rw [length_names] at hfew
      obtain ⟨disk', hfinish', hstored, _⟩ := hp.finish hfew
      obtain rfl := Except.ok.inj (hfinish'.symm.trans hfinish)
      obtain ⟨p₁, hstart', hp₁, _⟩ := hstored.start fresh hmax
      obtain rfl := Except.ok.inj (hstart'.symm.trans hstart)
      exact hp₁

/-! ## Soundness -/

/-- The bytes of a container are those of its pack. -/
theorem Process.Consistent.contents {p : Process} {P : Chunks} (h : p.Consistent P)
    (hfew : P.closed.length < nameCount) {i : Nat} (hi : i ≤ P.closed.length) :
    p.contents (containerName i) = some (P.contentOf i) := by
  rw [Process.contents]
  by_cases hlast : containerName i = p.core.lastContainerFileName
  · obtain rfl := containerName_inj (hi.trans_lt hfew) hfew (hlast.trans h.name)
    rw [if_pos hlast, h.body, P.contentOf_current]
  · have hne : i ≠ P.closed.length := fun heq => hlast (by rw [h.name, heq])
    rw [if_neg hlast, h.disk.files i (Nat.lt_of_le_of_ne hi hne)]

theorem nodup_names {P : Chunks} (hfew : P.closed.length < nameCount) :
    (Chunks.names P).Nodup := by
  refine List.Nodup.map_on (fun i hi j hj heq => ?_) List.nodup_range
  have hi' := List.mem_range.mp hi
  have hj' := List.mem_range.mp hj
  exact containerName_inj (by omega) (by omega) heq

theorem Process.Consistent.sound {maxContainerSize : Nat} (hmax : maxContainerSize ≤ 2 ^ 24)
    {p : Process} {P : Chunks} (h : p.Consistent P) (hfew : P.closed.length < nameCount)
    {saved : Bytes → Option Bytes} (hsaves : Chunks.Saves P saved) :
    p.Sound maxContainerSize saved (Chunks.names P) where
  designates := by
    intro hash key hkey
    obtain ⟨i, off, data, hat, rfl⟩ := (h.disk.entries hash key).mp hkey
    obtain ⟨hbound, hslice⟩ := hat.slice
    exact ⟨data, P.contentOf i, (hsaves hash data).mpr ⟨i, off, hat⟩,
      h.contents hfew hat.le, rfl, hbound, hslice⟩
  known := by
    intro hash data hdata
    obtain ⟨i, off, hat⟩ := (hsaves hash data).mp hdata
    exact ⟨_, (h.disk.entries hash _).mpr ⟨i, off, data, hat, rfl⟩⟩
  disjoint := by
    intro hash hash' key key' hne hkey hkey' hname
    obtain ⟨i, off, data, hat, rfl⟩ := (h.disk.entries hash key).mp hkey
    obtain ⟨i', off', data', hat', rfl⟩ := (h.disk.entries hash' key').mp hkey'
    obtain rfl := containerName_inj (hat.le.trans_lt hfew) (hat'.le.trans_lt hfew) hname
    exact hat.disjoint hat' hne
  tiled := by
    intro name hname
    obtain ⟨i, hi, rfl⟩ := List.mem_map.mp hname
    have hle : i ≤ P.closed.length := Nat.le_of_lt_succ (List.mem_range.mp hi)
    refine ⟨P.contentOf i, h.contents hfew hle, fun pos hpos => ?_⟩
    obtain ⟨hash, off, data, hat, hlow, hhigh⟩ := P.at_covers hpos
    exact ⟨hash, _, (h.disk.entries hash _).mpr ⟨i, off, data, hat, rfl⟩, rfl, hlow, hhigh⟩
  used := by
    rw [h.used]
    exact h.disk.fits_current
  distinct := nodup_names hfew
  last := by
    rw [Chunks.names, List.range_succ, List.map_append, h.name]
    exact List.getLast?_concat
  restores := by
    intro hash data hdata
    obtain ⟨p', hrun, _⟩ := h.restoreChunk hfew ((hsaves hash data).mp hdata)
    exact ⟨p', hrun⟩
  saves := by
    intro hash data _ hsize
    obtain ⟨p', _, hrun, _⟩ := h.dedupChunk hfew hash hsize
    exact ⟨p', hrun⟩
  reads := by
    intro hash hundefined
    cases hentry : p.disk.fp2ChunkDB hash with
    | none =>
        rw [Process.restoreChunk, hentry] at hundefined
        cases hundefined
    | some key =>
        obtain ⟨i, off, data, hat, _⟩ := (h.disk.entries hash key).mp hentry
        obtain ⟨p', hrun, _⟩ := h.restoreChunk hfew ⟨i, off, hat⟩
        rw [hrun] at hundefined
        cases hundefined
  reopens := by
    intro fresh
    obtain ⟨disk, hfinish, hstored, _⟩ := h.finish hfew
    obtain ⟨p', hstart, _⟩ := hstored.start fresh hmax
    exact ⟨disk, p', hfinish, hstart⟩

/-- A store stays sound as long as it rotates fewer than `15!` times. -/
theorem reachable_sound {maxContainerSize : Nat} (hmax : maxContainerSize ≤ 2 ^ 24)
    {p : Process} {saved : Bytes → Option Bytes} {names : List Name}
    (h : Reachable maxContainerSize p saved names) (hfew : names.length ≤ Nat.factorial 15) :
    p.Sound maxContainerSize saved names := by
  obtain ⟨P, hp, rfl, hsaves⟩ := h.consistent hmax hfew
  rw [length_names] at hfew
  exact hp.sound hmax hfew hsaves

/-- A chunk larger than `maxContainerSize_` makes even an empty container rotate. -/
theorem reachable_sound_rotated : ∃ p, Reachable 2 p (keepFirst (fun _ => none) [7] [1, 2, 3])
    [containerName 0, containerName 1] ∧
      p.Sound 2 (keepFirst (fun _ => none) [7] [1, 2, 3]) [containerName 0, containerName 1] := by
  obtain ⟨p, hstart, hrotates, p', hsave, hname, hname'⟩ : ∃ p,
      Process.start (fun _ => 0) 2 .empty = .ok p ∧ p.Rotates [7] [1, 2, 3] ∧
        ∃ p', p.dedupChunk [7] [1, 2, 3] = .ok p' ∧
          p.core.lastContainerFileName = containerName 0 ∧
            p'.core.lastContainerFileName = containerName 1 :=
    ⟨_, rfl, by decide, _, rfl, rfl, rfl⟩
  have hreach := (Reachable.first hstart).save (by decide) (by decide) hsave
  rw [if_pos hrotates, hname, hname'] at hreach
  exact ⟨p', hreach, reachable_sound (by decide) hreach (by decide)⟩

end Dedup
