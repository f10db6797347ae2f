import JpegStorage.Dedup.StoreInvariant

/-!
# The read cache when reads fail

`readContainer` reads a container file into the body of the cache and looks only afterwards
whether all of it was read.  When it was not, the call returns `false` and the cache keeps
its old name, but the begin of its body is that of the new container.

The cache is `Truthful` when its body is the file with its name.  A call does not change that
when what a short read leaves in the body is what was there, and then it returns the
`answer` that the name of the cache, the files and the open container give
(`Truthful.read`).
-/

namespace Dedup

/-! ## The program -/

/-- A call of `readContainer`, and what happens to the container file. -/
structure ReadCall where
  /-- The file can be opened. -/
  opens : Bool
  /-- How many bytes a read delivers at most. -/
  count : Nat
  /-- `key`. -/
  key : KeyForChunkHashDB

/-- `containerNameStr`. -/
def Process.nameOf (p : Process) (call : ReadCall) : Name :=
  call.key.containerName.take p.core.lastContainerFileName.length

/-- The third branch of `readContainer`, up to the copy.  It says whether all of the file
was read; the body is written in any case. -/
def Process.tryLoadContainer (opens : Bool) (count : Nat) (name : Name) (p : Process) :
    Except Fault (Bool × Process) :=
  match p.disk.containers name with
  | none => .ok (false, p)
  | some bytes =>
      if opens = false then .ok (false, p)
      else do
        let container ← p.core.currentReadContainer.memcpy 0 (bytes.take count)
        if count < bytes.length then
          .ok (false, ⟨{ p.core with currentReadContainer := container }, p.disk⟩)
        else
          let container := { container with used := bytes.length }
          .ok (true, ⟨{ p.core with currentReadContainer := container,
                                    currentReadContainerFileName := name }, p.disk⟩)

/-- `readContainer`.  No bytes means that it returns `false`. -/
def Process.tryReadContainer (call : ReadCall) (p : Process) :
    Except Fault (Option Bytes × Process) :=
  let key := call.key
  if p.nameOf call = p.core.currentReadContainerFileName then do
    let data ← p.core.currentReadContainer.copy key.offset key.length
    .ok (some data, p)
  else if p.nameOf call = p.core.lastContainerFileName then do
    let data ← p.core.currentContainer.copy key.offset key.length
    .ok (some data, p)
  else do
    let (loaded, p) ← p.tryLoadContainer call.opens call.count (p.nameOf call)
    if loaded then do
      let data ← p.core.currentReadContainer.copy key.offset key.length
      .ok (some data, p)
    else .ok (none, p)

theorem Container.memcpy_eq (c : Container) (off : Nat) (data : Bytes) :
    c.memcpy off data = .ok { c with body := Buffer.write c.body off data } ∨
      c.memcpy off data = .error .undefined := by
  rw [memcpy]
  split
  · exact Or.inl rfl
  · exact Or.inr rfl

theorem Container.copy_eq (c : Container) (off n : Nat) :
    c.copy off n = .ok (Buffer.read c.body off n) ∨ c.copy off n = .error .undefined := by
  rw [copy]
  split
  · exact Or.inl rfl
  · exact Or.inr rfl

/-- A call that fails returns `false`. -/
def Process.orFalse (p : Process) :
    Except Fault (Bytes × Process) → Except Fault (Option Bytes × Process)
  | .ok (data, p) => .ok (some data, p)
  | .error .failed => .ok (none, p)
  | .error fault => .error fault

theorem Process.orFalse_copy (p q : Process) (c : Container) (off n : Nat) :
    p.orFalse (c.copy off n >>= fun data => .ok (data, q)) =
      c.copy off n >>= fun data => .ok (some data, q) := by
  rcases c.copy_eq off n with hcopy | hcopy
  · rw [hcopy]; rfl
  · rw [hcopy]; rfl

/-- Without failures it is the `readContainer` of a store with working files. -/
theorem Process.tryReadContainer_working (key : KeyForChunkHashDB) (p : Process) {count : Nat}
    (hcount : ∀ name bytes, p.disk.containers name = some bytes → bytes.length ≤ count) :
    p.tryReadContainer ⟨true, count, key⟩ = p.orFalse (p.readContainer key) := by
  let call : ReadCall := ⟨true, count, key⟩
  rw [tryReadContainer, readContainer]
  by_cases hcached : p.nameOf call = p.core.currentReadContainerFileName
  · have hcached' : key.containerName.take _ = _ := hcached
    rw [if_pos hcached, if_pos hcached']
    exact (p.orFalse_copy p _ key.offset key.length).symm
  · have hcached' : ¬ key.containerName.take _ = _ := hcached
    rw [if_neg hcached, if_neg hcached']
    by_cases hlast : p.nameOf call = p.core.lastContainerFileName
    · have hlast' : key.containerName.take _ = _ := hlast
      rw [if_pos hlast, if_pos hlast']
      exact (p.orFalse_copy p _ key.offset key.length).symm
    · have hlast' : ¬ key.containerName.take _ = _ := hlast
      rw [if_neg hlast, if_neg hlast', tryLoadContainer, loadContainer]
      dsimp only [nameOf]
      cases hfile : p.disk.containers
          (key.containerName.take p.core.lastContainerFileName.length) with
      | none => rfl
      | some bytes =>
          have hall := hcount _ _ hfile
          dsimp only
          rw [if_neg (by simp), List.take_of_length_le hall]
          rcases p.core.currentReadContainer.memcpy_eq 0 bytes with hmemcpy | hmemcpy
          · rw [hmemcpy, Run.ok_bind, Run.ok_bind, if_neg (Nat.not_lt.mpr hall), Run.ok_bind,
              if_pos rfl, Run.ok_bind]
            exact (p.orFalse_copy _ _ key.offset key.length).symm
          · rw [hmemcpy]; rfl

/-- The calls one after the other, with what they return. -/
def Process.readContainers : List ReadCall → Process → Except Fault (List (Option Bytes) × Process)
  | [], p => .ok ([], p)
  | call :: calls, p => do
      let (answer, p) ← p.tryReadContainer call
      let (answers, p) ← p.readContainers calls
      .ok (answer :: answers, p)

/-! ## What a call should return -/

/-- All of a process but the cache. -/
def Process.store (p : Process) : Disk × Name × Container :=
  (p.disk, p.core.lastContainerFileName, p.core.currentContainer)

/-- The bytes a call asks for. -/
def Process.slice (p : Process) (call : ReadCall) : Option Bytes :=
  (p.contents (p.nameOf call)).map fun bytes =>
    (bytes.drop call.key.offset).take call.key.length

/-- The container file is there, it can be opened, and the read delivers all of it. -/
def Process.Loads (p : Process) (call : ReadCall) : Prop :=
  call.opens = true ∧ ∃ bytes ∈ p.disk.containers (p.nameOf call), bytes.length ≤ call.count

instance (p : Process) (call : ReadCall) : Decidable (p.Loads call) :=
  inferInstanceAs (Decidable (_ ∧ _))

/-- What a call returns and the name of the cache after it, when the name of the cache is
`cached`. -/
def Process.answer (p : Process) (cached : Name) (call : ReadCall) :
    Option Bytes × Name :=
  if p.nameOf call = cached ∨ p.nameOf call = p.core.lastContainerFileName then
    (p.slice call, cached)
  else if p.Loads call then (p.slice call, p.nameOf call)
  else (none, cached)

/-- What a call asks for is in the container, if there is one. -/
structure Process.InRange (p : Process) (call : ReadCall) : Prop where
  /-- A container has a name. -/
  named : p.nameOf call ≠ []
  /-- The container ends behind the bytes that are asked for. -/
  bound : ∀ bytes ∈ p.contents (p.nameOf call),
    call.key.offset + call.key.length ≤ bytes.length ∧ bytes.length ≤ bodySize

section
variable {p q : Process} {call : ReadCall}

theorem Process.nameOf_congr (h : p.store = q.store) : p.nameOf call = q.nameOf call := by
  obtain ⟨hdisk, hlast, hcurrent⟩ := by simpa only [store, Prod.mk.injEq] using h
  rw [nameOf, nameOf, hlast]

theorem Process.contents_congr (h : p.store = q.store) (name : Name) :
    p.contents name = q.contents name := by
  obtain ⟨hdisk, hlast, hcurrent⟩ := by simpa only [store, Prod.mk.injEq] using h
  rw [contents, contents, hdisk, hlast, hcurrent]

theorem Process.slice_congr (h : p.store = q.store) : p.slice call = q.slice call := by
  rw [slice, slice, nameOf_congr h, contents_congr h]

theorem Process.loads_congr (h : p.store = q.store) : p.Loads call ↔ q.Loads call := by
  have hname : p.nameOf call = q.nameOf call := nameOf_congr h
  obtain ⟨hdisk, _⟩ := by simpa only [store, Prod.mk.injEq] using h
  rw [Loads, Loads, hname, hdisk]

theorem Process.InRange.congr (h : p.store = q.store) (hin : p.InRange call) :
    q.InRange call := by
  constructor
  · rw [← nameOf_congr h]
    exact hin.named
  · rw [← nameOf_congr h, ← contents_congr h]
    exact hin.bound

/-! ## A truthful cache -/

/-- The body of the cache is the file with its name, and not the open container. -/
structure Process.Truthful (p : Process) : Prop where
  /-- The open container is not in the cache. -/
  closed : p.core.currentReadContainerFileName ≠ p.core.lastContainerFileName
  /-- A cache with a name holds the container with that name. -/
  holds : p.core.currentReadContainerFileName ≠ [] →
    ∃ bytes ∈ p.disk.containers p.core.currentReadContainerFileName,
      Buffer.read p.core.currentReadContainer.body 0 bytes.length = bytes

/-- When a read is short, what it delivers is in the cache already. -/
def Process.HarmlessRead (p : Process) (call : ReadCall) : Prop :=
  ∀ bytes ∈ p.disk.containers (p.nameOf call),
    p.nameOf call ≠ p.core.currentReadContainerFileName →
    p.nameOf call ≠ p.core.lastContainerFileName →
    call.opens = true → call.count < bytes.length →
    p.core.currentReadContainerFileName ≠ [] →
    ∀ old ∈ p.disk.containers p.core.currentReadContainerFileName,
      old.take call.count <+: bytes

theorem Process.Consistent.truthful {P : Chunks} (h : p.Consistent P)
    (hfew : P.closed.length < nameCount) : p.Truthful := by
  rcases h.cache with hnone | ⟨i, hi, hname, hbody⟩
  · refine ⟨?_, fun hne => absurd hnone hne⟩
    rw [hnone, h.name]
    exact (containerName_ne_nil _).symm
  · refine ⟨?_, fun _ => ⟨P.contentOf i, ?_, hbody⟩⟩
    · rw [hname, h.name]
      exact fun heq => Nat.ne_of_lt hi (containerName_inj (hi.trans hfew) hfew heq)
    · rw [hname]
      exact h.disk.files i hi

/-- The entries of a store that was used in any way are in range. -/
theorem Process.Consistent.inRange {P : Chunks} (h : p.Consistent P)
    (hfew : P.closed.length < nameCount) {hash : Bytes}
    (hkey : p.disk.fp2ChunkDB hash = some call.key) : p.InRange call := by
  obtain ⟨i, off, data, hat, heq⟩ := (h.disk.entries hash call.key).mp hkey
  have hname : p.nameOf call = containerName i := by
    rw [nameOf, heq, h.name, length_containerName, ← length_containerName i, List.take_length]
  have hle := hat.le
  refine ⟨?_, fun bytes hbytes => ?_⟩
  · rw [hname]
    exact containerName_ne_nil i
  · rw [hname, h.contents hfew hle] at hbytes
    cases hbytes
    rw [heq]
    refine ⟨hat.slice.1, ?_⟩
    rcases Nat.lt_or_eq_of_le hle with hlt | rfl
    · exact h.disk.fits_closed hlt
    · rw [P.contentOf_current]
      exact h.disk.fits_current

/-! ## One call -/

/-- Bytes of the container in the cache. -/
theorem Process.Truthful.copy_cached (h : p.Truthful) (hin : p.InRange call)
    (hcached : p.nameOf call = p.core.currentReadContainerFileName) :
    ∃ data, p.slice call = some data ∧
      p.core.currentReadContainer.copy call.key.offset call.key.length = .ok data := by
  obtain ⟨bytes, hfile, hbody⟩ := h.holds (hcached ▸ hin.named)
  have hcontents : p.contents (p.nameOf call) = some bytes := by
    rw [contents, hcached, if_neg h.closed]
    exact hfile
  obtain ⟨hbound, hfits⟩ := hin.bound bytes hcontents
  refine ⟨_, ?_, Container.copy_slice hbound hfits hbody⟩
  rw [slice, hcontents, Option.map_some]

/-- Bytes of the open container. -/
theorem Process.InRange.copy_current (hin : p.InRange call)
    (hlast : p.nameOf call = p.core.lastContainerFileName) :
    ∃ data, p.slice call = some data ∧
      p.core.currentContainer.copy call.key.offset call.key.length = .ok data := by
  have hcontents : p.contents (p.nameOf call) =
      some (Buffer.read p.core.currentContainer.body 0 p.core.currentContainer.used) := by
    rw [contents, if_pos hlast]
  obtain ⟨hbound, hfits⟩ := hin.bound _ hcontents
  have hbody : Buffer.read p.core.currentContainer.body 0
      (Buffer.read p.core.currentContainer.body 0 p.core.currentContainer.used).length =
        Buffer.read p.core.currentContainer.body 0 p.core.currentContainer.used := by
    rw [Buffer.length_read]
  refine ⟨_, ?_, Container.copy_slice hbound hfits hbody⟩
  rw [slice, hcontents, Option.map_some]

/-- What a call does that returns `false`: it may write into the body of the cache. -/
theorem Process.Truthful.short (h : p.Truthful) {bytes : Bytes} {count : Nat} {c : Container}
    (hbody : c.body = Buffer.write p.core.currentReadContainer.body 0 (bytes.take count))
    (hcount : count < bytes.length)
    (hsame : p.core.currentReadContainerFileName ≠ [] →
      ∀ old ∈ p.disk.containers p.core.currentReadContainerFileName, old.take count <+: bytes) :
    Process.Truthful ⟨{ p.core with currentReadContainer := c }, p.disk⟩ := by
  refine ⟨h.closed, fun hne => ?_⟩
  obtain ⟨old, hold, hread⟩ := h.holds hne
  refine ⟨old, hold, ?_⟩
  have hlen : (bytes.take count).length = count := List.length_take_of_le hcount.le
  change Buffer.read c.body 0 old.length = old
  rw [hbody]
  refine Buffer.read_write_same hread ?_
  rw [hlen, List.prefix_take_iff]
  exact ⟨hsame hne old hold, List.length_take_le ..⟩

/-- What a call does that reads all of a file. -/
theorem Process.Truthful.loaded {name : Name} {bytes : Bytes} {c : Container}
    (hbody : Buffer.read c.body 0 bytes.length = bytes)
    (hfile : p.disk.containers name = some bytes) (hlast : name ≠ p.core.lastContainerFileName) :
    Process.Truthful ⟨{ p.core with currentReadContainer := c,
                                    currentReadContainerFileName := name }, p.disk⟩ :=
  ⟨hlast, fun _ => ⟨bytes, hfile, hbody⟩⟩

/-- A file is not read, read in part, or read. -/
theorem Process.tryLoadContainer_cases {opens : Bool} {count : Nat} {name : Name}
    (hfits : ∀ bytes ∈ p.disk.containers name, bytes.length ≤ bodySize) :
    ((∀ bytes ∈ p.disk.containers name, opens = false) ∧
      p.tryLoadContainer opens count name = .ok (false, p)) ∨
    (opens = true ∧ ∃ bytes ∈ p.disk.containers name,
      (count < bytes.length ∧ ∃ c : Container,
        c.body = Buffer.write p.core.currentReadContainer.body 0 (bytes.take count) ∧
          p.tryLoadContainer opens count name =
            .ok (false, ⟨{ p.core with currentReadContainer := c }, p.disk⟩)) ∨
      (bytes.length ≤ count ∧ ∃ c : Container,
        c.body = Buffer.write p.core.currentReadContainer.body 0 bytes ∧
          p.tryLoadContainer opens count name =
            .ok (true, ⟨{ p.core with currentReadContainer := c,
                                      currentReadContainerFileName := name }, p.disk⟩))) := by
  rw [tryLoadContainer]
  cases hfile : p.disk.containers name with
  | none => exact Or.inl ⟨nofun, rfl⟩
  | some bytes =>
      cases opens with
      | false => exact Or.inl ⟨fun _ _ => rfl, rfl⟩
      | true =>
          have htaken : 0 + (bytes.take count).length ≤ bodySize := by
            rw [Nat.zero_add]
            exact (List.length_take_le' ..).trans (hfits bytes hfile)
          refine Or.inr ⟨rfl, bytes, rfl, ?_⟩
          dsimp only
          rw [if_neg (by simp), Container.memcpy_ok _ htaken, Run.ok_bind]
          by_cases hcount : count < bytes.length
          · rw [if_pos hcount]
            exact Or.inl ⟨hcount, _, rfl, rfl⟩
          · have hall : bytes.length ≤ count := Nat.not_lt.mp hcount
            rw [if_neg hcount, List.take_of_length_le hall]
            exact Or.inr ⟨hall, _, rfl, rfl⟩

/-- With a truthful cache a call returns what it should. -/
theorem Process.Truthful.read (h : p.Truthful) (hin : p.InRange call)
    (hharmless : p.HarmlessRead call) :
    ∃ p', p.tryReadContainer call =
        .ok ((p.answer p.core.currentReadContainerFileName call).1, p') ∧
      p'.Truthful ∧ p'.store = p.store ∧ p'.core.currentReadContainerFileName =
        (p.answer p.core.currentReadContainerFileName call).2 := by
  rw [tryReadContainer, answer]
  by_cases hcached : p.nameOf call = p.core.currentReadContainerFileName
  · obtain ⟨data, hdata, hcopy⟩ := h.copy_cached hin hcached
    rw [if_pos hcached, if_pos (Or.inl hcached), hcopy, hdata]
    exact ⟨p, rfl, h, rfl, rfl⟩
  rw [if_neg hcached]
  by_cases hlast : p.nameOf call = p.core.lastContainerFileName
  · obtain ⟨data, hdata, hcopy⟩ := hin.copy_current hlast
    rw [if_pos hlast, if_pos (Or.inr hlast), hcopy, hdata]
    exact ⟨p, rfl, h, rfl, rfl⟩
  rw [if_neg hlast, if_neg (not_or_intro hcached hlast)]
  have hcontents : p.contents (p.nameOf call) = p.disk.containers (p.nameOf call) := by
    rw [contents, if_neg hlast]
  have hbounds := fun bytes hbytes => hin.bound bytes (hcontents.trans hbytes)
  rcases p.tryLoadContainer_cases fun bytes hbytes => (hbounds bytes hbytes).2 with
    ⟨hclosed, hload⟩ | ⟨hopens, bytes, hfile, ⟨hcount, c, hbody, hload⟩ | ⟨hall, c, hbody, hload⟩⟩
  · have hnot : ¬ p.Loads call := by
      rintro ⟨hopens, bytes, hbytes, _⟩
      exact Bool.false_ne_true ((hclosed bytes hbytes).symm.trans hopens)
    rw [hload, if_neg hnot]
    exact ⟨p, rfl, h, rfl, rfl⟩
  · have hnot : ¬ p.Loads call := by
      rintro ⟨_, bytes', hbytes', hall⟩
      obtain rfl := Option.some.inj (hfile.symm.trans hbytes')
      exact Nat.not_le_of_lt hcount hall
    have hsame := hharmless bytes hfile hcached hlast hopens hcount
    rw [hload, if_neg hnot]
    exact ⟨_, rfl, h.short hbody hcount hsame, rfl, rfl⟩
  · have hloads : p.Loads call := ⟨hopens, bytes, hfile, hall⟩
    obtain ⟨hbound, hfits⟩ := hbounds bytes hfile
    have hread : Buffer.read c.body 0 bytes.length = bytes := by
      rw [hbody]
      exact Buffer.read_write ..
    have hslice : p.slice call = some ((bytes.drop call.key.offset).take call.key.length) := by
      rw [slice, hcontents, hfile, Option.map_some]
    rw [hload, if_pos hloads, Run.ok_bind]
    dsimp only
    rw [if_pos rfl, Container.copy_slice hbound hfits hread, hslice]
    exact ⟨_, rfl, .loaded hread hfile hlast, rfl, rfl⟩

/-! ## Runs -/

theorem Process.HarmlessRead.congr (h : p.store = q.store)
    (hcache : p.core.currentReadContainerFileName = q.core.currentReadContainerFileName)
    (hharmless : p.HarmlessRead call) : q.HarmlessRead call := by
  have hname : p.nameOf call = q.nameOf call := nameOf_congr h
  obtain ⟨hdisk, hlast, hcurrent⟩ := by simpa only [store, Prod.mk.injEq] using h
  rw [HarmlessRead, hname, hdisk, hlast, hcache] at hharmless
  exact hharmless

theorem Process.answer_congr (h : p.store = q.store) (cached : Name) :
    p.answer cached call = q.answer cached call := by
  have hname : p.nameOf call = q.nameOf call := nameOf_congr h
  have hslice : p.slice call = q.slice call := slice_congr h
  obtain ⟨hdisk, hlast, hcurrent⟩ := by simpa only [store, Prod.mk.injEq] using h
  rw [answer, answer, hname, hslice, hlast, if_congr (loads_congr h) rfl rfl]

/-- A call that returns `false` leaves the name of the cache. -/
theorem Process.answer_none {cached : Name} (hnone : (p.answer cached call).1 = none) :
    (p.answer cached call).2 = cached := by
  rw [answer] at hnone ⊢
  by_cases hmemory : p.nameOf call = cached ∨ p.nameOf call = p.core.lastContainerFileName
  · rw [if_pos hmemory]
  · rw [if_neg hmemory] at hnone ⊢
    by_cases hloads : p.Loads call
    · have ⟨_, bytes, hfile, _⟩ := hloads
      have hcontents : p.contents (p.nameOf call) = some bytes := by
        rw [contents, if_neg fun hlast => hmemory (Or.inr hlast)]
        exact hfile
      rw [if_pos hloads, slice, hcontents] at hnone
      cases hnone
    · rw [if_neg hloads]

/-- No short read of these calls changes what is in the cache. -/
def Process.HarmlessReads : List ReadCall → Process → Prop
  | [], _ => True
  | call :: calls, p => p.HarmlessRead call ∧
      ∀ answer p', p.tryReadContainer call = .ok (answer, p') → p'.HarmlessReads calls

theorem Process.HarmlessReads.append {before after : List ReadCall}
    (h : p.HarmlessReads (before ++ after)) :
    p.HarmlessReads before ∧ ∀ answers q, p.readContainers before = .ok (answers, q) →
      q.HarmlessReads after := by
  induction before generalizing p with
  | nil =>
      refine ⟨trivial, fun answers q hrun => ?_⟩
      cases hrun
      exact h
  | cons call before ih =>
      refine ⟨⟨h.1, fun answer p' hcall => (ih (h.2 answer p' hcall)).1⟩, ?_⟩
      intro answers q hrun
      obtain ⟨⟨answer, p'⟩, hcall, hrun⟩ := Run.except_bind_eq_ok.mp hrun
      obtain ⟨⟨rest, q'⟩, hrest, hrun⟩ := Run.except_bind_eq_ok.mp hrun
      cases hrun
      exact (ih (h.2 answer p' hcall)).2 rest _ hrest

/-- It depends on the name of the cache only. -/
theorem Process.HarmlessReads.congr {calls : List ReadCall} (hp : p.Truthful) (hq : q.Truthful)
    (hin : ∀ call ∈ calls, p.InRange call) (hstore : p.store = q.store)
    (hcache : p.core.currentReadContainerFileName = q.core.currentReadContainerFileName)
    (h : p.HarmlessReads calls) : q.HarmlessReads calls := by
  induction calls generalizing p q with
  | nil => trivial
  | cons call calls ih =>
      obtain ⟨hfirst, hin⟩ := List.forall_mem_cons.mp hin
      have hcall : q.HarmlessRead call := h.1.congr hstore hcache
      obtain ⟨p₁, hprun, hp₁, hpstore, hpcache⟩ := hp.read hfirst h.1
      obtain ⟨q₁, hqrun, hq₁, hqstore, hqcache⟩ := hq.read (hfirst.congr hstore) hcall
      refine ⟨hcall, fun answer q' hrun => ?_⟩
      cases hqrun.symm.trans hrun
      refine ih hp₁ hq₁ (fun call hmem => (hin call hmem).congr hpstore.symm) ?_ ?_
        (h.2 _ _ hprun)
      · rw [hpstore, hstore, hqstore]
      · rw [hpcache, hqcache, answer_congr hstore, hcache]

/-- What the calls should return. -/
def Process.answers (p : Process) : Name → List ReadCall → List (Option Bytes)
  | _, [] => []
  | cached, call :: calls =>
      (p.answer cached call).1 :: p.answers (p.answer cached call).2 calls

theorem Process.answers_congr (h : p.store = q.store) (cached : Name) (calls : List ReadCall) :
    p.answers cached calls = q.answers cached calls := by
  induction calls generalizing cached with
  | nil => rfl
  | cons call calls ih => rw [answers, answers, answer_congr h, ih]

/-- A call returns what it asks for or `false`. -/
theorem Process.answers_slice (p : Process) (cached : Name) (calls : List ReadCall) :
    List.Forall₂ (fun call answer => ∀ data ∈ answer, p.slice call = some data) calls
      (p.answers cached calls) := by
  induction calls generalizing cached with
  | nil => exact .nil
  | cons call calls ih =>
      refine .cons (fun data hdata => ?_) (ih _)
      rw [answer] at hdata
      split at hdata
      · exact hdata
      · split at hdata
        · exact hdata
        · cases hdata

theorem Process.Truthful.reads {calls : List ReadCall} (h : p.Truthful)
    (hin : ∀ call ∈ calls, p.InRange call) (hharmless : p.HarmlessReads calls) :
    ∃ p', p.readContainers calls =
        .ok (p.answers p.core.currentReadContainerFileName calls, p') ∧
      p'.Truthful ∧ p'.store = p.store := by
  induction calls generalizing p with
  | nil => exact ⟨p, rfl, h, rfl⟩
  | cons call calls ih =>
      obtain ⟨hfirst, hin⟩ := List.forall_mem_cons.mp hin
      obtain ⟨p₁, hrun, h₁, hstore, hcache⟩ := h.read hfirst hharmless.1
      have hin₁ : ∀ call ∈ calls, p₁.InRange call := fun call hcall =>
        (hin call hcall).congr hstore.symm
      obtain ⟨p₂, hruns, h₂, hstore₂⟩ := ih h₁ hin₁ (hharmless.2 _ _ hrun)
      rw [hcache, answers_congr hstore] at hruns
      refine ⟨p₂, ?_, h₂, hstore₂.trans hstore⟩
      rw [readContainers, hrun, Run.ok_bind]
      change (p₁.readContainers calls >>= _) = _
      rw [hruns]
      rfl

end

/-- When no short read changes what is in the cache, a call returns the bytes it asks for or
`false`, and one that returns `false` does not change what the later ones return. -/
theorem read_cache_truthful {p : Process} (h : p.Truthful) {calls : List ReadCall}
    (hin : ∀ call ∈ calls, p.InRange call) (hharmless : p.HarmlessReads calls) :
    (∃ answers p', p.readContainers calls = .ok (answers, p') ∧
      List.Forall₂ (fun call answer => ∀ data ∈ answer, p.slice call = some data)
        calls answers) ∧
    ∀ before call after answers q q', calls = before ++ call :: after →
      p.readContainers before = .ok (answers, q) → q.tryReadContainer call = .ok (none, q') →
      ∃ later q₁ q₂, q.readContainers after = .ok (later, q₁) ∧
        q'.readContainers after = .ok (later, q₂) := by
  constructor
  · obtain ⟨p', hrun, _⟩ := h.reads hin hharmless
    exact ⟨_, p', hrun, p.answers_slice _ calls⟩
  · rintro before call after answers q q' rfl hbefore hcall
    obtain ⟨hhead, htail⟩ := hharmless.append
    obtain ⟨hin₁, hin₂⟩ := List.forall_mem_append.mp hin
    obtain ⟨q₀, hrun, hq, hstore⟩ := h.reads hin₁ hhead
    cases hrun.symm.trans hbefore
    obtain ⟨hfirst, hin₂⟩ := List.forall_mem_cons.mp hin₂
    obtain ⟨hnow, hnext⟩ := htail _ _ hbefore
    obtain ⟨q₁, hrun, hq', hstore', hcache'⟩ := hq.read (hfirst.congr hstore.symm) hnow
    have hpair := Except.ok.inj (hrun.symm.trans hcall)
    rw [Prod.mk.injEq] at hpair
    obtain ⟨hnone, rfl⟩ := hpair
    rw [Process.answer_none hnone] at hcache'
    have hrange : ∀ call ∈ after, q₁.InRange call := fun call hmem =>
      (hin₂ call hmem).congr (hstore'.trans hstore).symm
    have hlater := hnext _ _ hcall
    have hskip := hlater.congr hq' hq hrange hstore' hcache'
    obtain ⟨r₁, hrun₁, _⟩ := hq.reads (fun call hmem => (hrange call hmem).congr hstore') hskip
    obtain ⟨r₂, hrun₂, _⟩ := hq'.reads hrange hlater
    rw [hcache', Process.answers_congr hstore'] at hrun₂
    exact ⟨_, r₁, r₂, hrun₁, hrun₂⟩

/-- Two closed containers with three bytes each. -/
def twoClosed : Process :=
  ⟨⟨containerName 2, [], ⟨0, fun _ => 0⟩, ⟨0, fun _ => 0⟩, 2⟩,
    { Disk.empty with containers := fun name =>
        if name = containerName 0 then some [1, 2, 3]
        else if name = containerName 1 then some [7, 8, 9] else none }⟩

/-- A short read while nothing is in the cache, and a file that cannot be opened. -/
theorem read_cache_truthful_failures : ∃ answers p', twoClosed.readContainers
    [⟨true, 1, ⟨containerName 1, 0, 3⟩⟩, ⟨true, 3, ⟨containerName 0, 1, 2⟩⟩,
      ⟨false, 3, ⟨containerName 1, 0, 3⟩⟩] = .ok (answers, p') ∧
    List.Forall₂ (fun call answer => ∀ data ∈ answer, twoClosed.slice call = some data)
      [⟨true, 1, ⟨containerName 1, 0, 3⟩⟩, ⟨true, 3, ⟨containerName 0, 1, 2⟩⟩,
        ⟨false, 3, ⟨containerName 1, 0, 3⟩⟩] answers := by
  have htruthful : twoClosed.Truthful := ⟨(containerName_ne_nil 2).symm, fun hne => absurd rfl hne⟩
  have hin : ∀ call ∈ [⟨true, 1, ⟨containerName 1, 0, 3⟩⟩, ⟨true, 3, ⟨containerName 0, 1, 2⟩⟩,
      ⟨false, 3, ⟨containerName 1, 0, 3⟩⟩], twoClosed.InRange call := by
    have hsize : 3 ≤ bodySize := by decide
    simp only [List.mem_cons, List.not_mem_nil, or_false, forall_eq_or_imp, forall_eq]
    refine ⟨⟨by decide, ?_⟩, ⟨by decide, ?_⟩, ⟨by decide, ?_⟩⟩
    · rintro _ ⟨⟩
      exact ⟨Nat.le_refl _, hsize⟩
    · rintro _ ⟨⟩
      exact ⟨Nat.le_refl _, hsize⟩
    · rintro _ ⟨⟩
      exact ⟨Nat.le_refl _, hsize⟩
  have hharmless : twoClosed.HarmlessReads [⟨true, 1, ⟨containerName 1, 0, 3⟩⟩,
      ⟨true, 3, ⟨containerName 0, 1, 2⟩⟩, ⟨false, 3, ⟨containerName 1, 0, 3⟩⟩] := by
    refine ⟨fun _ _ _ _ _ _ hne => absurd rfl hne, fun _ _ h₁ => ⟨?_, fun _ _ h₂ => ⟨?_, ?_⟩⟩⟩
    · cases h₁
      exact fun _ _ _ _ _ _ hne => absurd rfl hne
    · cases h₁
      cases h₂
      rintro _ _ _ _ ⟨⟩
    · intro _ _ _
      trivial
  exact (read_cache_truthful htruthful hin hharmless).1

/-- A container in the cache is served with the begin of another one. -/
theorem short_read_served : ∃ p saved names p',
    Reachable 2 p saved names ∧
      p.disk.fp2ChunkDB [1] = some ⟨containerName 1, 0, 3⟩ ∧
      p.disk.fp2ChunkDB [2] = some ⟨containerName 2, 0, 3⟩ ∧
      p.readContainers [⟨true, 3, ⟨containerName 1, 0, 3⟩⟩, ⟨true, 1, ⟨containerName 2, 0, 3⟩⟩,
        ⟨true, 3, ⟨containerName 1, 0, 3⟩⟩] = .ok ([some [1, 2, 3], none, some [7, 2, 3]], p') ∧
      p.slice ⟨true, 3, ⟨containerName 1, 0, 3⟩⟩ = some [1, 2, 3] := by
  obtain ⟨p₀, p₁, p₂, p₃, p', hstart, h₁, h₂, h₃, hkeys⟩ : ∃ p₀ p₁ p₂ p₃ p',
      Process.start (fun _ => 0) 2 .empty = .ok p₀ ∧ p₀.dedupChunk [1] [1, 2, 3] = .ok p₁ ∧
        p₁.dedupChunk [2] [7, 8, 9] = .ok p₂ ∧ p₂.dedupChunk [3] [4] = .ok p₃ ∧
          p₃.disk.fp2ChunkDB [1] = some ⟨containerName 1, 0, 3⟩ ∧
            p₃.disk.fp2ChunkDB [2] = some ⟨containerName 2, 0, 3⟩ ∧
              p₃.readContainers [⟨true, 3, ⟨containerName 1, 0, 3⟩⟩,
                ⟨true, 1, ⟨containerName 2, 0, 3⟩⟩, ⟨true, 3, ⟨containerName 1, 0, 3⟩⟩] =
                  .ok ([some [1, 2, 3], none, some [7, 2, 3]], p') ∧
                p₃.slice ⟨true, 3, ⟨containerName 1, 0, 3⟩⟩ = some [1, 2, 3] :=
    ⟨_, _, _, _, _, rfl, rfl, rfl, rfl, rfl, rfl, rfl, rfl⟩
  have hreach := (((Reachable.first hstart).save (by decide) (by decide) h₁).save (by decide)
    (by decide) h₂).save (by decide) (by decide) h₃
  exact ⟨p₃, _, _, p', hreach, hkeys⟩

end Dedup
