import JpegStorage.Dedup.Restore
import JpegStorage.Lib.Ends
import Mathlib.Algebra.BigOperators.Group.Finset.Basic
import Mathlib.Algebra.Order.BigOperators.Group.Finset

/-!
# Runs of the threads that restore a file

The first `K t` entries can be restored by thread `t`.  A thread that returns has
pushed so many chunks (`Counts.returned`).  When it stops there every run comes to
an end (`Exact.ends`).

`Kept` is what the threads rely on: what is true of the storage stays true whatever
they read.
-/

namespace Dedup

section
variable {r : RecvDecode} {file : Option Bytes} {stack : Nat → UInt8} {Inv : Process → Prop}

/-! ## One thread -/

/-- Reading keeps the storage as it is. -/
structure Kept (r : RecvDecode) (file : Option Bytes) (Inv : Process → Prop) : Prop where
  /-- The recipe. -/
  file : ∀ p, Inv p → p.disk.recipeFile r.fileNameHash.toList = file
  /-- The chunks. -/
  stays : ∀ entry p chunk p', Inv p → p.restoreEntry entry = .ok (chunk, p') → Inv p'

/-- The entry can be restored. -/
def Restorable (Inv : Process → Prop) (file : Option Bytes) (stack : Nat → UInt8) (j : Nat) :
    Prop :=
  ∃ bytes, file = some bytes ∧
    ∀ p, Inv p → ∃ chunk p', p.restoreEntry (entryAt bytes stack j) = .ok (some chunk, p')

/-- The entry makes the thread return. -/
def Missing (Inv : Process → Prop) (file : Option Bytes) (stack : Nat → UInt8) (j : Nat) : Prop :=
  ∃ bytes, file = some bytes ∧
    ∀ p, Inv p → ∃ p', p.restoreEntry (entryAt bytes stack j) = .ok (none, p')

/-- The first `K` entries can be restored. -/
structure RestoresUpTo (r : RecvDecode) (Inv : Process → Prop) (file : Option Bytes)
    (stack : Nat → UInt8) (K : Nat) : Prop where
  /-- A `uint32_t` counts them. -/
  small : K < 2 ^ 32
  /-- They are in the recipe. -/
  le : K ≤ r.totalChunkNumber
  /-- They can be restored. -/
  entries : ∀ j < K, Restorable Inv file stack j

/-- A thread that has pushed `n` chunks, of which the first `K` are certain. -/
def Decoder.Tracks (r : RecvDecode) (file : Option Bytes) (stack : Nat → UInt8) (K n : Nat)
    (decoder : Decoder) : Prop :=
  n ≤ K → decoder.At r file stack n ∨ decoder = .returned ∧ n = K

/-- The threads do not ask for empty batches for ever. -/
def RecvDecode.Progresses (r : RecvDecode) (file : Option Bytes) : Prop :=
  r.restoreChunkBatchSize ≠ 0 ∨ file = none ∨ r.totalChunkNumber = 0

theorem tryEntry_stays (hkept : Kept r file Inv) {p p' : Process} {entry : RecipeEntry}
    {decoder decoder' : Decoder} {pushed : List Chunk} (hp : Inv p)
    (h : RecvDecode.tryEntry decoder' (p.restoreEntry entry) = some (decoder, pushed, p')) :
    Inv p' := by
  cases hentry : p.restoreEntry entry with
  | error fault =>
      rw [hentry] at h
      cases h
  | ok result =>
      obtain ⟨chunk, p''⟩ := result
      have hp'' := hkept.stays entry p chunk p'' hp hentry
      rw [hentry] at h
      cases chunk <;> cases h <;> exact hp''

theorem decode_stays (hkept : Kept r file Inv) {p p' : Process} {decoder decoder' : Decoder}
    {pushed : List Chunk} (hp : Inv p)
    (h : r.decode stack p decoder = some (decoder', pushed, p')) : Inv p' := by
  cases decoder with
  | next restored startID endID =>
      rw [RecvDecode.decode] at h
      split at h
      · cases h; exact hp
      · split at h <;> cases h <;> exact hp
  | batch restored startID endID buffer i =>
      rw [RecvDecode.decode] at h
      split at h
      · exact tryEntry_stays hkept hp h
      · cases h; exact hp
  | returned => cases h

theorem Decoder.measure_pos {K : Nat} {decoder : Decoder} (h : decoder ≠ .returned) :
    0 < decoder.measure r K := by
  cases decoder with
  | next restored startID endID =>
      rw [Decoder.measure]
      split
      · exact Nat.succ_pos _
      · split <;> exact Nat.succ_pos _
  | batch restored startID endID buffer i =>
      rw [Decoder.measure]
      split <;> exact Nat.succ_pos _
  | returned => exact absurd rfl h

/-- A step of a thread that is not behind its certain entries. -/
theorem Decoder.Tracks.step {K n : Nat} {decoder decoder' : Decoder} {p p' : Process}
    {pushed : List Chunk} (htracks : decoder.Tracks r file stack K n) (hle : n ≤ K)
    (hK : RestoresUpTo r Inv file stack K) (hkept : Kept r file Inv) (hp : Inv p)
    (h : r.decode stack p decoder = some (decoder', pushed, p')) :
    (pushed = [] ∧ (decoder'.At r file stack n ∨ decoder' = .returned ∧ n = K) ∧
      (r.Progresses file → decoder'.measure r K < decoder.measure r K)) ∨
    ∃ bytes chunk, file = some bytes ∧ n ≠ r.totalChunkNumber ∧ pushed = [chunk] ∧
      p.restoreEntry (entryAt bytes stack n) = .ok (some chunk, p') ∧
        decoder'.At r file stack (n + 1) ∧
          (n < K → decoder'.measure r K + 2 ≤ decoder.measure r K) := by
  cases htracks hle with
  | inr hreturned =>
      rw [hreturned.1] at h
      cases h
  | inl hat =>
      have hdecoder : decoder ≠ .returned := fun heq => Decoder.At.not_returned (heq ▸ hat)
      cases hat.does (hkept.file p hp) (hle.trans hK.le) (hle.trans_lt hK.small) with
      | moves hfile htotal hat' hmeasure hdecode =>
          rw [hdecode] at h
          cases h
          refine Or.inl ⟨rfl, Or.inl hat', fun hbatch => hmeasure (hbatch.resolve_right ?_) K⟩
          rw [hfile]
          exact not_or.mpr ⟨Option.some_ne_none _, htotal⟩
      | finishes htotal hdecode =>
          rw [hdecode] at h
          cases h
          have hn : n = K := Nat.le_antisymm hle (htotal ▸ hK.le)
          exact Or.inl ⟨rfl, Or.inr ⟨rfl, hn⟩, fun _ => Decoder.measure_pos hdecoder⟩
      | gives_up hnone hdecode =>
          rw [hdecode] at h
          cases h
          have hn : n = K := by
            refine Nat.le_antisymm hle (Nat.not_lt.mp fun hlt => ?_)
            obtain ⟨bytes, hbytes, _⟩ := hK.entries n hlt
            rw [hnone] at hbytes
            cases hbytes
          exact Or.inl ⟨rfl, Or.inr ⟨rfl, hn⟩, fun _ => Decoder.measure_pos hdecoder⟩
      | @tries decoder₁ bytes hfile htotal hat' hmeasure hdecode =>
          rw [hdecode] at h
          cases hentry : p.restoreEntry (entryAt bytes stack n) with
          | error fault =>
              rw [hentry] at h
              cases h
          | ok result =>
              obtain ⟨chunk, p₁⟩ := result
              rw [hentry] at h
              cases chunk with
              | some chunk =>
                  cases h
                  exact Or.inr ⟨bytes, chunk, hfile, htotal, rfl, hentry, hat', hmeasure K⟩
              | none =>
                  cases h
                  have hn : n = K := by
                    refine Nat.le_antisymm hle (Nat.not_lt.mp fun hlt => ?_)
                    obtain ⟨bytes', hbytes', hgives⟩ := hK.entries n hlt
                    obtain ⟨chunk, p₂, hsome⟩ := hgives p hp
                    cases Option.some.inj (hfile.symm.trans hbytes')
                    rw [hentry] at hsome
                    cases hsome
                  exact Or.inl ⟨rfl, Or.inr ⟨rfl, hn⟩, fun _ => Decoder.measure_pos hdecoder⟩

/-- A thread stops at entry `K`. -/
inductive Stops (r : RecvDecode) (Inv : Process → Prop) (file : Option Bytes)
    (stack : Nat → UInt8) (K : Nat) : Prop where
  /-- These are all entries. -/
  | all : K = r.totalChunkNumber → Stops r Inv file stack K
  /-- There is no recipe. -/
  | unknown : file = none → Stops r Inv file stack K
  /-- The entry makes the thread return. -/
  | missing : Missing Inv file stack K → Stops r Inv file stack K

theorem Stops.restoreEntry {K : Nat} (h : Stops r Inv file stack K)
    (htotal : K ≠ r.totalChunkNumber) {bytes : Bytes} (hfile : file = some bytes) {p : Process}
    (hp : Inv p) : ∃ p', p.restoreEntry (entryAt bytes stack K) = .ok (none, p') := by
  cases h with
  | all hall => exact absurd hall htotal
  | unknown hnone =>
      rw [hfile] at hnone
      cases hnone
  | missing hmissing =>
      obtain ⟨bytes', hbytes', hnone⟩ := hmissing
      cases Option.some.inj (hfile.symm.trans hbytes')
      exact hnone p hp

/-- A step of a thread that stops at entry `K`. -/
theorem Decoder.Tracks.step_stops {K n : Nat} {decoder decoder' : Decoder} {p p' : Process}
    {pushed : List Chunk} (htracks : decoder.Tracks r file stack K n) (hle : n ≤ K)
    (hK : RestoresUpTo r Inv file stack K) (hstop : Stops r Inv file stack K)
    (hkept : Kept r file Inv) (hbatch : r.Progresses file) (hp : Inv p)
    (h : r.decode stack p decoder = some (decoder', pushed, p')) :
    n + pushed.length ≤ K ∧ decoder'.measure r K + pushed.length < decoder.measure r K := by
  cases htracks.step hle hK hkept hp h with
  | inl hquiet =>
      obtain ⟨rfl, _, hmeasure⟩ := hquiet
      exact ⟨hle, hmeasure hbatch⟩
  | inr hpush =>
      obtain ⟨bytes, chunk, hfile, htotal, rfl, hentry, _, hmeasure⟩ := hpush
      have hlt : n < K := by
        refine Nat.lt_of_le_of_ne hle fun heq => ?_
        subst heq
        obtain ⟨p'', hnone⟩ := hstop.restoreEntry htotal hfile hp
        rw [hentry] at hnone
        cases hnone
      rw [List.length_singleton]
      exact ⟨hlt, hmeasure hlt⟩

/-- A thread that has no step. -/
theorem Decoder.Tracks.stopped {K n : Nat} {decoder : Decoder} {p : Process}
    (htracks : decoder.Tracks r file stack K n) (hle : n ≤ K)
    (hK : RestoresUpTo r Inv file stack K) (hstop : Stops r Inv file stack K)
    (hkept : Kept r file Inv) (hp : Inv p) (h : r.decode stack p decoder = none) :
    decoder = .returned ∧ n = K := by
  cases htracks hle with
  | inr hreturned => exact hreturned
  | inl hat =>
      cases hat.does (hkept.file p hp) (hle.trans hK.le) (hle.trans_lt hK.small) with
      | moves _ _ _ _ hdecode => rw [h] at hdecode; cases hdecode
      | finishes _ hdecode => rw [h] at hdecode; cases hdecode
      | gives_up _ hdecode => rw [h] at hdecode; cases hdecode
      | @tries decoder' bytes hfile htotal _ _ hdecode =>
          rw [h] at hdecode
          cases Nat.lt_or_eq_of_le hle with
          | inl hlt =>
              obtain ⟨bytes', hbytes', hgives⟩ := hK.entries n hlt
              obtain ⟨chunk, p', hsome⟩ := hgives p hp
              cases Option.some.inj (hfile.symm.trans hbytes')
              rw [hsome] at hdecode
              cases hdecode
          | inr heq =>
              subst heq
              obtain ⟨p', hnone⟩ := hstop.restoreEntry htotal hfile hp
              rw [hnone] at hdecode
              cases hdecode

/-- A thread that asks for empty batches. -/
def Decoder.Idle (decoder : Decoder) : Prop :=
  decoder = .next 0 0 0 ∨ ∃ buffer, decoder = .batch 0 0 0 buffer 0

theorem Decoder.idle_start (hbatch : r.sendChunkBatchSize = 0) :
    Decoder.Idle (.next 0 0 r.firstEnd) := by
  have hzero : ¬ r.totalChunkNumber < u64 r.sendChunkBatchSize := by
    rw [hbatch]
    exact Nat.not_lt_zero _
  rw [RecvDecode.firstEnd, if_neg hzero]
  exact Or.inl rfl

/-- It does so for ever. -/
theorem Decoder.Idle.step {decoder : Decoder} (h : decoder.Idle)
    (hbatch : r.sendChunkBatchSize = 0) (htotal : r.totalChunkNumber ≠ 0) {p : Process}
    (hfile : p.disk.recipeFile r.fileNameHash.toList ≠ none) :
    ∃ decoder', r.decode stack p decoder = some (decoder', [], p) ∧ decoder'.Idle := by
  rcases h with rfl | ⟨buffer, rfl⟩
  · obtain ⟨bytes, hbytes⟩ := Option.ne_none_iff_exists'.mp hfile
    refine ⟨.batch 0 0 0 (readBuffer bytes stack 0) 0, ?_, Or.inr ⟨_, rfl⟩⟩
    rw [RecvDecode.decode, if_neg htotal.symm, hbytes]
  · have hempty : ¬ 0 < batchCount 0 0 := by decide
    have hnext : r.nextEnd 0 0 = 0 := by
      have hzero := r.restoreChunkBatchSize_eq_zero.mpr hbatch
      rw [RecvDecode.nextEnd, hzero]
      exact if_neg (Nat.not_lt_zero _)
    refine ⟨_, ?_, Or.inl rfl⟩
    rw [RecvDecode.decode, if_neg hempty]
    change some (Decoder.next 0 0 (r.nextEnd 0 0), _, _) = _
    rw [hnext]

/-! ## All threads -/

theorem sum_update {f : Nat → Nat} {t threads : Nat} (ht : t < threads) (v : Nat) :
    ∑ i ∈ Finset.range threads, Function.update f t v i + f t =
      ∑ i ∈ Finset.range threads, f i + v := by
  have hmem := Finset.mem_range.mpr ht
  rw [Finset.sum_update_of_mem hmem, Finset.sum_eq_add_sum_sdiff_singleton_of_mem hmem f]
  omega

theorem sum_update_add {n : Nat → Nat} {t threads : Nat} (ht : t < threads) (k : Nat) :
    ∑ i ∈ Finset.range threads, Function.update n t (n t + k) i =
      ∑ i ∈ Finset.range threads, n i + k := by
  have hsum := sum_update (f := n) ht (n t + k)
  omega

/-- The threads have pushed these numbers of chunks. -/
structure Restoring.Counts (r : RecvDecode) (Inv : Process → Prop) (file : Option Bytes)
    (stackOf : Nat → Nat → UInt8) (threads : Nat) (K n : Nat → Nat) (s : Restoring) : Prop where
  /-- The storage. -/
  storage : Inv s.storage
  /-- The threads. -/
  tracks : ∀ t < threads, (s.decoders t).Tracks r file (stackOf t) (K t) (n t)
  /-- Every chunk they pushed is in the queue or written. -/
  total : ∑ t ∈ Finset.range threads, n t = s.queue.length + s.received.length
  /-- No more chunks are written than the head says. -/
  bounded : s.received.length ≤ u32 r.totalChunkNumber

section
variable {stackOf : Nat → Nat → UInt8} {threads : Nat} {K n : Nat → Nat} {s s' : Restoring}

theorem Restoring.counts_start {p : Process} (hp : Inv p) :
    (Restoring.start r p).Counts r Inv file stackOf threads K fun _ => 0 where
  storage := hp
  tracks := fun _ _ _ => Or.inl Decoder.at_start
  total := Finset.sum_const_zero
  bounded := Nat.zero_le _

theorem Restoring.Counts.decode (h : s.Counts r Inv file stackOf threads K n)
    (hK : ∀ t < threads, RestoresUpTo r Inv file (stackOf t) (K t)) (hkept : Kept r file Inv)
    {t : Nat} (ht : t < threads) {decoder : Decoder} {pushed : List Chunk} {p : Process}
    (hdecode : r.decode (stackOf t) s.storage (s.decoders t) = some (decoder, pushed, p)) :
    Restoring.Counts r Inv file stackOf threads K (Function.update n t (n t + pushed.length))
      ⟨p, Function.update s.decoders t decoder, s.queue ++ pushed, s.received⟩ := by
  constructor
  case storage => exact decode_stays hkept h.storage hdecode
  case tracks =>
    intro i hi
    dsimp only
    by_cases heq : i = t
    · subst heq
      rw [Function.update_self, Function.update_self]
      intro hle
      cases (h.tracks i hi).step (Nat.le_of_add_right_le hle) (hK i hi) hkept h.storage hdecode with
      | inl hquiet =>
          obtain ⟨rfl, hat, _⟩ := hquiet
          exact hat
      | inr hpush =>
          obtain ⟨bytes, chunk, _, _, rfl, _, hat, _⟩ := hpush
          exact Or.inl hat
    · rw [Function.update_of_ne heq, Function.update_of_ne heq]
      exact h.tracks i hi
  case total =>
    rw [sum_update_add ht, h.total, List.length_append]
    exact Nat.add_right_comm ..
  case bounded => exact h.bounded

theorem Restoring.Counts.recv (h : s.Counts r Inv file stackOf threads K n) {newData : Chunk}
    {queue : List Chunk} (hwaits : s.received.length < u32 r.totalChunkNumber)
    (hqueue : s.queue = newData :: queue) :
    Restoring.Counts r Inv file stackOf threads K n
      ⟨s.storage, s.decoders, queue, s.received ++ [newData]⟩ where
  storage := h.storage
  tracks := h.tracks
  total := by
    rw [h.total, hqueue, List.length_cons, List.length_append, List.length_singleton]
    exact Nat.add_right_comm ..
  bounded := by
    rw [List.length_append, List.length_singleton]
    exact hwaits

theorem Restoring.Counts.steps (h : s.Counts r Inv file stackOf threads K n)
    (hK : ∀ t < threads, RestoresUpTo r Inv file (stackOf t) (K t)) (hkept : Kept r file Inv)
    (hrun : Relation.ReflTransGen (Restoring.Step r stackOf threads) s s') :
    ∃ n', s'.Counts r Inv file stackOf threads K n' := by
  induction hrun with
  | refl => exact ⟨n, h⟩
  | tail _ hstep ih =>
      obtain ⟨n', h'⟩ := ih
      cases hstep with
      | decode ht hdecode => exact ⟨_, h'.decode hK hkept ht hdecode⟩
      | recv hwaits hqueue => exact ⟨n', h'.recv hwaits hqueue⟩

/-- When the threads have returned the queue had the certain chunks. -/
theorem Restoring.Counts.returned (h : s.Counts r Inv file stackOf threads K n)
    (hreturned : ∀ t < threads, s.decoders t = .returned) :
    ∑ t ∈ Finset.range threads, K t ≤ s.queue.length + s.received.length := by
  rw [← h.total]
  refine Finset.sum_le_sum fun t ht => ?_
  have hlt := Finset.mem_range.mp ht
  by_contra hnot
  cases h.tracks t hlt (Nat.le_of_not_le hnot) with
  | inl hat => exact Decoder.At.not_returned (hreturned t hlt ▸ hat)
  | inr heq => exact hnot heq.2.ge

/-- What every step of a thread keeps is true of it in every run. -/
theorem Restoring.thread_stays (hkept : Kept r file Inv) {t : Nat} {Q : Decoder → Prop}
    (hQ : ∀ p decoder decoder' pushed p', Inv p → Q decoder →
      r.decode (stackOf t) p decoder = some (decoder', pushed, p') → Q decoder')
    (hp : Inv s.storage) (hs : Q (s.decoders t))
    (hrun : Relation.ReflTransGen (Restoring.Step r stackOf threads) s s') :
    Inv s'.storage ∧ Q (s'.decoders t) := by
  induction hrun with
  | refl => exact ⟨hp, hs⟩
  | tail _ hstep ih =>
      obtain ⟨hp', hs'⟩ := ih
      cases hstep with
      | @decode i decoder pushed p hi hdecode =>
          refine ⟨decode_stays hkept hp' hdecode, ?_⟩
          dsimp only
          by_cases heq : t = i
          · subst heq
            rw [Function.update_self]
            exact hQ _ _ _ _ _ hp' hs' hdecode
          · rwa [Function.update_of_ne heq]
      | recv _ _ => exact ⟨hp', hs'⟩

theorem Restoring.steps_kept (hkept : Kept r file Inv) (hp : Inv s.storage)
    (hrun : Relation.ReflTransGen (Restoring.Step r stackOf threads) s s') : Inv s'.storage :=
  (Restoring.thread_stays (t := 0) (Q := fun _ => True) hkept (fun _ _ _ _ _ _ _ _ => trivial) hp
    trivial hrun).1

/-! ## Threads that stop -/

/-- What is left to do. -/
def Restoring.measure (r : RecvDecode) (threads : Nat) (K : Nat → Nat) (s : Restoring) : Nat :=
  ∑ t ∈ Finset.range threads, (s.decoders t).measure r (K t) + s.queue.length

theorem Restoring.measure_decode {t : Nat} (ht : t < threads) {decoder : Decoder}
    {pushed : List Chunk} {p : Process}
    (hlt : decoder.measure r (K t) + pushed.length < (s.decoders t).measure r (K t)) :
    Restoring.measure r threads K
      ⟨p, Function.update s.decoders t decoder, s.queue ++ pushed, s.received⟩ <
        s.measure r threads K := by
  have hupdate : ∀ i, (Function.update s.decoders t decoder i).measure r (K i) =
      Function.update (fun i => (s.decoders i).measure r (K i)) t (decoder.measure r (K t)) i :=
    fun i => Function.apply_update (fun i d => Decoder.measure r (K i) d) s.decoders t decoder i
  have hsum := sum_update (f := fun i => (s.decoders i).measure r (K i)) ht
    (decoder.measure r (K t))
  rw [Restoring.measure, Restoring.measure, List.length_append]
  simp only [hupdate]
  omega

theorem Restoring.measure_recv {newData : Chunk} {queue : List Chunk}
    (hqueue : s.queue = newData :: queue) :
    Restoring.measure r threads K ⟨s.storage, s.decoders, queue, s.received ++ [newData]⟩ <
      s.measure r threads K := by
  rw [Restoring.measure, Restoring.measure, hqueue, List.length_cons]
  exact Nat.lt_succ_self _

/-- Every thread stops at a certain entry. -/
structure Halting (r : RecvDecode) (Inv : Process → Prop) (file : Option Bytes)
    (stackOf : Nat → Nat → UInt8) (threads : Nat) (K : Nat → Nat) : Prop where
  /-- The entries in front of it can be restored. -/
  restores : ∀ t < threads, RestoresUpTo r Inv file (stackOf t) (K t)
  /-- The thread stops there. -/
  stops : ∀ t < threads, Stops r Inv file (stackOf t) (K t)
  /-- Reading keeps the storage as it is. -/
  kept : Kept r file Inv
  /-- The batches are not empty. -/
  batch : r.Progresses file

/-- No thread is behind the entry where it stops. -/
structure Restoring.Exact (r : RecvDecode) (Inv : Process → Prop) (file : Option Bytes)
    (stackOf : Nat → Nat → UInt8) (threads : Nat) (K n : Nat → Nat) (s : Restoring) : Prop where
  /-- The threads have pushed these numbers of chunks. -/
  counts : s.Counts r Inv file stackOf threads K n
  /-- No more than there are. -/
  le : ∀ t < threads, n t ≤ K t

theorem Restoring.exact_start {p : Process} (hp : Inv p) :
    (Restoring.start r p).Exact r Inv file stackOf threads K fun _ => 0 :=
  ⟨Restoring.counts_start hp, fun _ _ => Nat.zero_le _⟩

theorem Restoring.Exact.decode (h : s.Exact r Inv file stackOf threads K n)
    (hhalting : Halting r Inv file stackOf threads K) {t : Nat} (ht : t < threads)
    {decoder : Decoder} {pushed : List Chunk} {p : Process}
    (hdecode : r.decode (stackOf t) s.storage (s.decoders t) = some (decoder, pushed, p)) :
    Restoring.Exact r Inv file stackOf threads K (Function.update n t (n t + pushed.length))
      ⟨p, Function.update s.decoders t decoder, s.queue ++ pushed, s.received⟩ ∧
        decoder.measure r (K t) + pushed.length < (s.decoders t).measure r (K t) := by
  obtain ⟨hle, hmeasure⟩ := (h.counts.tracks t ht).step_stops (h.le t ht)
    (hhalting.restores t ht) (hhalting.stops t ht) hhalting.kept hhalting.batch h.counts.storage
      hdecode
  refine ⟨⟨h.counts.decode hhalting.restores hhalting.kept ht hdecode, fun i hi => ?_⟩, hmeasure⟩
  by_cases heq : i = t
  · subst heq
    rwa [Function.update_self]
  · rw [Function.update_of_ne heq]
    exact h.le i hi

theorem Restoring.Exact.recv (h : s.Exact r Inv file stackOf threads K n) {newData : Chunk}
    {queue : List Chunk} (hwaits : s.received.length < u32 r.totalChunkNumber)
    (hqueue : s.queue = newData :: queue) :
    Restoring.Exact r Inv file stackOf threads K n
      ⟨s.storage, s.decoders, queue, s.received ++ [newData]⟩ :=
  ⟨h.counts.recv hwaits hqueue, h.le⟩

/-- What is there when nothing moves any more. -/
structure Restoring.Ended (r : RecvDecode) (Inv : Process → Prop) (threads : Nat) (K : Nat → Nat)
    (s : Restoring) : Prop where
  /-- The storage. -/
  storage : Inv s.storage
  /-- The threads have returned. -/
  returned : ∀ t < threads, s.decoders t = .returned
  /-- Every chunk they pushed is in the queue or written. -/
  total : ∑ t ∈ Finset.range threads, K t = s.queue.length + s.received.length
  /-- The retriever is through, or the queue is empty. -/
  retriever : s.received.length = u32 r.totalChunkNumber ∨
    s.received.length < u32 r.totalChunkNumber ∧ s.queue = []

theorem Restoring.Exact.ended (h : s.Exact r Inv file stackOf threads K n)
    (hhalting : Halting r Inv file stackOf threads K)
    (hend : ∀ s', ¬ s.Step r stackOf threads s') : s.Ended r Inv threads K := by
  have hthread : ∀ t < threads, s.decoders t = .returned ∧ n t = K t := by
    intro t ht
    refine (h.counts.tracks t ht).stopped (h.le t ht) (hhalting.restores t ht)
      (hhalting.stops t ht) hhalting.kept h.counts.storage ?_
    cases hdecode : r.decode (stackOf t) s.storage (s.decoders t) with
    | none => rfl
    | some result =>
        obtain ⟨decoder, pushed, p⟩ := result
        exact absurd (.decode ht hdecode) (hend _)
  constructor
  case storage => exact h.counts.storage
  case returned => exact fun t ht => (hthread t ht).1
  case total =>
    rw [← h.counts.total]
    exact Finset.sum_congr rfl fun t ht => (hthread t (Finset.mem_range.mp ht)).2.symm
  case retriever =>
    cases Nat.lt_or_eq_of_le h.counts.bounded with
    | inr heq => exact Or.inl heq
    | inl hlt =>
        cases hqueue : s.queue with
        | nil => exact Or.inr ⟨hlt, rfl⟩
        | cons newData queue => exact absurd (.recv hlt hqueue) (hend _)

/-- Every run comes to an end. -/
theorem Restoring.ends (hhalting : Halting r Inv file stackOf threads K) {p : Process}
    (hp : Inv p) :
    Ends (Restoring.Step r stackOf threads) (Restoring.Ended r Inv threads K)
      (Restoring.start r p) := by
  refine Ends.of_measure (I := fun s => ∃ n, s.Exact r Inv file stackOf threads K n)
    (Restoring.measure r threads K) (fun s s' hs hstep => ?_) (fun s hs hend => ?_)
    ⟨_, Restoring.exact_start hp⟩
  · obtain ⟨n, h⟩ := hs
    cases hstep with
    | decode ht hdecode =>
        obtain ⟨h', hmeasure⟩ := h.decode hhalting ht hdecode
        exact ⟨⟨_, h'⟩, Restoring.measure_decode ht hmeasure⟩
    | recv hwaits hqueue => exact ⟨⟨n, h.recv hwaits hqueue⟩, Restoring.measure_recv hqueue⟩
  · obtain ⟨n, h⟩ := hs
    exact h.ended hhalting hend

end

end

end Dedup
