import JpegStorage.Lib.Buffer
import JpegStorage.Recode.Passes

/-!
# Searching for a restart marker

`find_next_rst_marker` and `Write_RST` search with the same two loops, one for an `FF` and
one that skips more of them.  Only the first one tests for the end of the data, and there it
prints a message and goes on, so the search may leave the data.

The search reads one byte after the other until the first `FF` with a byte behind it that
ends it (`search_first`).  On the bytes of the data alone it is the `seekRst` of the passes,
which has a result exactly where the search is bounded (`seekRst_isSome_iff`).
-/

namespace Recode

/-! ## The program -/

/-- How the search ends. -/
inductive SearchEnd where
  /-- The marker was found; the stream behind it. -/
  | marker (stream : Nat)
  /-- At an end of image. -/
  | eoi
deriving DecidableEq, Repr

/-- `RST + last_rst_marker_seen` is the byte at an address. -/
def IsExpected (memory : Nat → UInt8) (last : Int) (address : Nat) : Prop :=
  0xd0 + last = (memory address).toNat

instance (memory : Nat → UInt8) (last : Int) (address : Nat) :
    Decidable (IsExpected memory last address) := Int.instDecidableEq ..

/-- The search, behind an `FF` or not, and the addresses it reads.  Each round reads a byte,
which behind an `FF` is read twice.  No end means that the rounds were too few. -/
def search (memory : Nat → UInt8) (last : Int) :
    Nat → Bool → Nat → Option (SearchEnd × List Nat)
  | 0, _, _ => none
  | fuel + 1, false, stream =>
      (search memory last fuel (memory stream = 0xff) (stream + 1)).map
        fun (e, reads) => (e, stream :: reads)
  | fuel + 1, true, stream =>
      if memory stream = 0xff then
        (search memory last fuel true (stream + 1)).map fun (e, reads) => (e, stream :: reads)
      else if IsExpected memory last stream then some (.marker (stream + 1), [stream])
      else if memory stream = 0xd9 then some (.eoi, [stream])
      else (search memory last fuel false (stream + 1)).map fun (e, reads) => (e, stream :: reads)

/-- What the search uses of `jdec_private`. -/
structure RstPriv where
  /-- `stream`. -/
  stream : Nat
  /-- `stream_end`. -/
  streamEnd : Nat
  /-- `last_rst_marker_seen`. -/
  lastRstMarkerSeen : Int
deriving DecidableEq, Repr

/-- The end of a function, or of its search when it goes on then. -/
structure SearchResult where
  /-- What it returns. -/
  returned : Option Int
  /-- `priv`. -/
  priv : RstPriv
  /-- The addresses that were read. -/
  reads : List Nat
deriving DecidableEq, Repr

/-- `find_next_rst_marker`. -/
def findNextRstMarker (memory : Nat → UInt8) (fuel : Nat) (priv : RstPriv) :
    Option SearchResult :=
  (search memory priv.lastRstMarkerSeen fuel false priv.stream).map fun
    | (.marker stream, reads) =>
        ⟨some 0, ⟨stream, priv.streamEnd, (priv.lastRstMarkerSeen + 1) % 8⟩, reads⟩
    | (.eoi, reads) => ⟨some 0, priv, reads⟩

/-- The search of `Write_RST`, which goes on behind a marker. -/
def writeRst (memory : Nat → UInt8) (fuel : Nat) (priv : RstPriv) : Option SearchResult :=
  (search memory priv.lastRstMarkerSeen fuel false priv.stream).map fun
    | (.marker stream, reads) => ⟨none, { priv with stream := stream }, reads⟩
    | (.eoi, reads) => ⟨some 0, priv, reads⟩

/-! ## Where the search ends -/

/-- At `i` is an `FF`, and the byte behind it ends the search. -/
def EndsAt (memory : Nat → UInt8) (last : Int) (i : Nat) : Prop :=
  memory i = 0xff ∧ memory (i + 1) ≠ 0xff ∧
    (IsExpected memory last (i + 1) ∨ memory (i + 1) = 0xd9)

instance (memory : Nat → UInt8) (last : Int) (i : Nat) : Decidable (EndsAt memory last i) :=
  inferInstanceAs (Decidable (_ ∧ _))

/-- How the search ends there. -/
def endOf (memory : Nat → UInt8) (last : Int) (i : Nat) : SearchEnd :=
  if IsExpected memory last (i + 1) then .marker (i + 2) else .eoi

section
variable {memory : Nat → UInt8} {last : Int} {i : Nat}

/-- Behind an `FF` that does not end the search, or behind another byte. -/
theorem search_step (h : ¬ EndsAt memory last i) (fuel : Nat) :
    search memory last (fuel + 1) (memory i = 0xff) (i + 1) =
      (search memory last fuel (memory (i + 1) = 0xff) (i + 2)).map
        fun (e, reads) => (e, (i + 1) :: reads) := by
  by_cases hbehind : memory i = 0xff
  · rw [decide_eq_true hbehind, search]
    by_cases hother : memory (i + 1) = 0xff
    · rw [if_pos hother, decide_eq_true hother]
    · have hexpected : ¬ IsExpected memory last (i + 1) := fun he =>
        h ⟨hbehind, hother, Or.inl he⟩
      have heoi : ¬ memory (i + 1) = 0xd9 := fun he => h ⟨hbehind, hother, Or.inr he⟩
      rw [if_neg hother, if_neg hexpected, if_neg heoi, decide_eq_false hother]
  · rw [decide_eq_false hbehind, search]

theorem search_end (h : EndsAt memory last i) (fuel : Nat) :
    search memory last (fuel + 1) (memory i = 0xff) (i + 1) =
      some (endOf memory last i, [i + 1]) := by
  obtain ⟨hbehind, hother, hends⟩ := h
  rw [decide_eq_true hbehind, search, if_neg hother, endOf]
  by_cases hexpected : IsExpected memory last (i + 1)
  · rw [if_pos hexpected, if_pos hexpected]
  · rw [if_neg hexpected, if_neg hexpected, if_pos (hends.resolve_left hexpected)]

/-- The search ends at the first place where it can, and reads all bytes up to it. -/
theorem search_first {s n : Nat} (hfirst : ∀ k < n, ¬ EndsAt memory last (s + k))
    (hend : EndsAt memory last (s + n)) :
    search memory last (n + 2) false s =
      some (endOf memory last (s + n), List.range' s (n + 2)) := by
  have hbehind : search memory last (n + 1) (memory s = 0xff) (s + 1) =
      some (endOf memory last (s + n), List.range' (s + 1) (n + 1)) := by
    induction n generalizing s with
    | zero => exact search_end hend 0
    | succ n ih =>
        have hnow : ¬ EndsAt memory last s := hfirst 0 (Nat.succ_pos n)
        have hsum (k : Nat) : s + (k + 1) = s + 1 + k := by omega
        rw [hsum n] at hend ⊢
        have hrest := ih (fun k hk => hsum k ▸ hfirst (k + 1) (Nat.succ_lt_succ hk)) hend
        rw [search_step hnow, hrest]
        rfl
  rw [search, hbehind]
  rfl

end

/-- An end of the search lies in the data. -/
def RstPriv.EndInData (memory : Nat → UInt8) (priv : RstPriv) : Prop :=
  ∃ i, priv.stream ≤ i ∧ i + 1 < priv.streamEnd ∧ EndsAt memory priv.lastRstMarkerSeen i

/-- The first place from the stream on where the search can end. -/
structure RstPriv.FirstEnd (memory : Nat → UInt8) (priv : RstPriv) (i : Nat) : Prop where
  /-- It is not in front of the stream. -/
  le : priv.stream ≤ i
  /-- The search can end. -/
  ends : EndsAt memory priv.lastRstMarkerSeen i
  /-- There is none in front of it. -/
  first : ∀ k, priv.stream ≤ k → k < i → ¬ EndsAt memory priv.lastRstMarkerSeen k

/-- What the end of a search should be. -/
structure RstPriv.Bounded (memory : Nat → UInt8) (priv : RstPriv) (result : SearchResult) :
    Prop where
  /-- Nothing is read at or behind `stream_end`. -/
  reads : ∀ address ∈ result.reads, address < priv.streamEnd
  /-- The marker searched for comes first. -/
  marker : ∀ i, priv.FirstEnd memory i → i + 1 < priv.streamEnd →
    IsExpected memory priv.lastRstMarkerSeen (i + 1) → result.priv.stream = i + 2
  /-- An end of image comes first. -/
  eoi : ∀ i, priv.FirstEnd memory i → i + 1 < priv.streamEnd →
    ¬ IsExpected memory priv.lastRstMarkerSeen (i + 1) → result.priv.stream = priv.stream
  /-- There is neither. -/
  failed : ¬ priv.EndInData memory →
    (∃ r ∈ result.returned, r < 0) ∧ result.priv.stream = priv.stream

section
variable {memory : Nat → UInt8} {priv : RstPriv}

theorem RstPriv.EndInData.first (h : priv.EndInData memory) :
    ∃ i, priv.FirstEnd memory i ∧ i + 1 < priv.streamEnd := by
  obtain ⟨i, hle, hlt, hends⟩ := h
  have hsome : ∃ i, priv.stream ≤ i ∧ EndsAt memory priv.lastRstMarkerSeen i := ⟨i, hle, hends⟩
  have hfind : Nat.find hsome ≤ i := Nat.find_min' hsome ⟨hle, hends⟩
  obtain ⟨hle', hends'⟩ := Nat.find_spec hsome
  refine ⟨Nat.find hsome, ⟨hle', hends', fun k hk hlt' hk' => ?_⟩, by omega⟩
  exact Nat.find_min hsome hlt' ⟨hk, hk'⟩

theorem RstPriv.FirstEnd.unique {i j : Nat} (hi : priv.FirstEnd memory i)
    (hj : priv.FirstEnd memory j) : i = j := by
  rcases Nat.lt_trichotomy i j with hlt | heq | hlt
  · exact absurd hi.ends (hj.first i hi.le hlt)
  · exact heq
  · exact absurd hj.ends (hi.first j hj.le hlt)

theorem RstPriv.FirstEnd.search {i : Nat} (h : priv.FirstEnd memory i) :
    Recode.search memory priv.lastRstMarkerSeen (i - priv.stream + 2) false priv.stream =
      some (endOf memory priv.lastRstMarkerSeen i,
        List.range' priv.stream (i - priv.stream + 2)) := by
  have hi : priv.stream + (i - priv.stream) = i := Nat.add_sub_cancel' h.le
  have hsearch := @search_first memory priv.lastRstMarkerSeen priv.stream (i - priv.stream)
    (fun k hk => h.first _ (Nat.le_add_right ..) (by omega)) (by rw [hi]; exact h.ends)
  rwa [hi] at hsearch

theorem RstPriv.FirstEnd.reads {i : Nat} (h : priv.FirstEnd memory i)
    (hlt : i + 1 < priv.streamEnd) :
    ∀ address ∈ List.range' priv.stream (i - priv.stream + 2), address < priv.streamEnd := by
  intro address haddress
  have hle := h.le
  rw [List.mem_range'_1] at haddress
  omega

/-- A function that returns nothing negative and sets the stream as the search ends. -/
theorem RstPriv.bounded_iff {run : Nat → Option SearchResult}
    (hreturned : ∀ fuel result, run fuel = some result → ∀ r ∈ result.returned, 0 ≤ r)
    (hrun : ∀ fuel i reads,
      search memory priv.lastRstMarkerSeen fuel false priv.stream =
        some (endOf memory priv.lastRstMarkerSeen i, reads) →
      ∃ returned priv', run fuel = some ⟨returned, priv', reads⟩ ∧
        priv'.stream = if IsExpected memory priv.lastRstMarkerSeen (i + 1) then i + 2
          else priv.stream) :
    (∃ fuel result, run fuel = some result ∧ priv.Bounded memory result) ↔
      priv.EndInData memory := by
  constructor
  · rintro ⟨fuel, result, hresult, hbounded⟩
    by_contra hnone
    obtain ⟨⟨r, hr, hneg⟩, _⟩ := hbounded.failed hnone
    exact absurd hneg (not_lt.mpr (hreturned fuel result hresult r hr))
  · intro h
    obtain ⟨i, hi, hlt⟩ := h.first
    obtain ⟨returned, priv', hresult, hstream⟩ := hrun _ i _ hi.search
    refine ⟨_, _, hresult, ⟨hi.reads hlt, fun j hj _ hexpected => ?_,
      fun j hj _ hexpected => ?_, fun hnone => absurd h hnone⟩⟩
    · obtain rfl := hi.unique hj
      rw [hstream, if_pos hexpected]
    · obtain rfl := hi.unique hj
      rw [hstream, if_neg hexpected]

/-- `find_next_rst_marker` returns zero whatever happens. -/
theorem findNextRstMarker_returned {fuel : Nat} {result : SearchResult}
    (h : findNextRstMarker memory fuel priv = some result) : result.returned = some 0 := by
  obtain ⟨⟨e, reads⟩, _, rfl⟩ := Option.map_eq_some_iff.mp h
  cases e with
  | marker stream => rfl
  | eoi => rfl

/-- `Write_RST` returns zero or goes on. -/
theorem writeRst_returned {fuel : Nat} {result : SearchResult}
    (h : writeRst memory fuel priv = some result) :
    result.returned = none ∨ result.returned = some 0 := by
  obtain ⟨⟨e, reads⟩, _, rfl⟩ := Option.map_eq_some_iff.mp h
  cases e with
  | marker stream => exact Or.inl rfl
  | eoi => exact Or.inr rfl

theorem findNextRstMarker_bounded_iff :
    (∃ fuel result, findNextRstMarker memory fuel priv = some result ∧
      priv.Bounded memory result) ↔ priv.EndInData memory := by
  refine RstPriv.bounded_iff (fun fuel result hresult r hr => ?_) fun fuel i reads hsearch => ?_
  · rw [findNextRstMarker_returned hresult] at hr
    cases hr
    exact le_refl 0
  · rw [findNextRstMarker, hsearch, endOf]
    by_cases hexpected : IsExpected memory priv.lastRstMarkerSeen (i + 1)
    · rw [if_pos hexpected, if_pos hexpected]
      exact ⟨_, _, rfl, rfl⟩
    · rw [if_neg hexpected, if_neg hexpected]
      exact ⟨_, _, rfl, rfl⟩

theorem writeRst_bounded_iff :
    (∃ fuel result, writeRst memory fuel priv = some result ∧
      priv.Bounded memory result) ↔ priv.EndInData memory := by
  refine RstPriv.bounded_iff (fun fuel result hresult r hr => ?_) fun fuel i reads hsearch => ?_
  · rcases writeRst_returned hresult with hnone | hzero
    · rw [hnone] at hr
      cases hr
    · rw [hzero] at hr
      cases hr
      exact le_refl 0
  · rw [writeRst, hsearch, endOf]
    by_cases hexpected : IsExpected memory priv.lastRstMarkerSeen (i + 1)
    · rw [if_pos hexpected, if_pos hexpected]
      exact ⟨_, _, rfl, rfl⟩
    · rw [if_neg hexpected, if_neg hexpected]
      exact ⟨_, _, rfl, rfl⟩

end

/-- Both searches are bounded if and only if an end of them lies in the data. -/
theorem marker_search_bounded (memory : Nat → UInt8) (priv : RstPriv) :
    ((∃ fuel result, findNextRstMarker memory fuel priv = some result ∧
        priv.Bounded memory result) ↔ priv.EndInData memory) ∧
      ((∃ fuel result, writeRst memory fuel priv = some result ∧
        priv.Bounded memory result) ↔ priv.EndInData memory) :=
  ⟨findNextRstMarker_bounded_iff, writeRst_bounded_iff⟩

/-- Two bytes without an end: in zeros the search goes on for ever, and a marker behind
the data is taken for one of the data. -/
theorem marker_search_unbounded :
    (∀ fuel, findNextRstMarker (fun _ => 0) fuel ⟨0, 2, 0⟩ = none) ∧
      (∀ fuel, writeRst (fun _ => 0) fuel ⟨0, 2, 0⟩ = none) ∧
      findNextRstMarker (fun i => if i = 2 then 0xff else 0xd0) 4 ⟨0, 2, 0⟩ =
        some ⟨some 0, ⟨4, 2, 1⟩, [0, 1, 2, 3]⟩ := by
  have hzeros : ∀ fuel stream, search (fun _ => 0) 0 fuel false stream = none := by
    intro fuel
    induction fuel with
    | zero => exact fun _ => rfl
    | succ fuel ih =>
        intro stream
        rw [search, decide_eq_false (by simp), ih]
        rfl
  refine ⟨fun fuel => ?_, fun fuel => ?_, by decide⟩
  · rw [findNextRstMarker, hzeros]
    rfl
  · rw [writeRst, hzeros]
    rfl

/-! ## The search on the data alone -/

/-- The data behind the end of a search, as `seekRst` returns it. -/
def SearchEnd.rest (memory : Nat → UInt8) (streamEnd : Nat) : SearchEnd → Option (List UInt8)
  | .marker stream => some (Buffer.read memory stream (streamEnd - stream))
  | .eoi => none

theorem isExpected_iff {memory : Nat → UInt8} {last : Nat} (hlast : last < 8) (address : Nat) :
    IsExpected memory last address ↔ memory address = rstMarker last := by
  rw [IsExpected, rstMarker, ← UInt8.toNat_inj, UInt8.toNat_ofNat']
  omega

/-- On the bytes of the data the search is `seekRst`, which has no result when the
search leaves them. -/
theorem seekRst_eq (memory : Nat → UInt8) {last : Nat} (hlast : last < 8) (n : Nat)
    (behind : Bool) (stream : Nat) :
    seekRst (rstMarker last) behind (Buffer.read memory stream n) =
      (search memory last n behind stream).map fun e => e.1.rest memory (stream + n) := by
  induction n generalizing behind stream with
  | zero => cases behind <;> rfl
  | succ n ih =>
      have hsum : stream + (n + 1) = stream + 1 + n := by omega
      have hgo (behind : Bool) :
          seekRst (rstMarker last) behind (Buffer.read memory (stream + 1) n) =
          ((search memory last n behind (stream + 1)).map
            fun (e, reads) => (e, stream :: reads)).map
              fun e => e.1.rest memory (stream + (n + 1)) := by
        rw [ih, Option.map_map, hsum]
        rfl
      rw [Buffer.read]
      cases behind with
      | false =>
          rw [seekRst, search, ← hgo]
          by_cases hff : memory stream = 0xff
          · rw [if_pos hff, decide_eq_true hff]
          · rw [if_neg hff, decide_eq_false hff]
      | true =>
          rw [seekRst, search]
          by_cases hff : memory stream = 0xff
          · rw [if_pos hff, if_pos hff, ← hgo]
          · rw [if_neg hff, if_neg hff]
            by_cases hexpected : memory stream = rstMarker last
            · rw [if_pos hexpected, if_pos ((isExpected_iff hlast stream).mpr hexpected), hsum,
                Option.map_some, SearchEnd.rest, Nat.add_sub_cancel_left]
            · have hother := mt (isExpected_iff hlast stream).mp hexpected
              rw [if_neg hexpected, if_neg hother]
              by_cases heoi : memory stream = 0xd9
              · rw [if_pos heoi, if_pos heoi]
                rfl
              · rw [if_neg heoi, if_neg heoi, ← hgo]

/-- More rounds change nothing. -/
theorem search_mono {memory : Nat → UInt8} {last : Int} {fuel stream : Nat} {behind : Bool}
    {e : SearchEnd × List Nat} (h : search memory last fuel behind stream = some e) (more : Nat) :
    search memory last (fuel + more) behind stream = some e := by
  induction fuel generalizing behind stream e with
  | zero => cases h
  | succ fuel ih =>
      have hgo {behind : Bool}
          (h : (search memory last fuel behind (stream + 1)).map
            (fun (e, reads) => (e, stream :: reads)) = some e) :
          (search memory last (fuel + more) behind (stream + 1)).map
            (fun (e, reads) => (e, stream :: reads)) = some e := by
        obtain ⟨e', he', rfl⟩ := Option.map_eq_some_iff.mp h
        rw [ih he']
        rfl
      rw [Nat.add_right_comm]
      cases behind with
      | false =>
          rw [search] at h ⊢
          exact hgo h
      | true =>
          rw [search] at h ⊢
          by_cases hff : memory stream = 0xff
          · rw [if_pos hff] at h ⊢
            exact hgo h
          · rw [if_neg hff] at h ⊢
            by_cases hexpected : IsExpected memory last stream
            · rwa [if_pos hexpected] at h ⊢
            · rw [if_neg hexpected] at h ⊢
              by_cases heoi : memory stream = 0xd9
              · rwa [if_pos heoi] at h ⊢
              · rw [if_neg heoi] at h ⊢
                exact hgo h

/-- A search that ends has come to a place where it can. -/
theorem search_sound {memory : Nat → UInt8} {last : Int} {fuel s : Nat}
    (h : (search memory last fuel false s).isSome) :
    ∃ k, k + 1 < fuel ∧ EndsAt memory last (s + k) := by
  cases fuel with
  | zero => cases h
  | succ fuel =>
      rw [search, Option.isSome_map] at h
      induction fuel generalizing s with
      | zero => cases h
      | succ fuel ih =>
          by_cases hnow : EndsAt memory last s
          · exact ⟨0, by omega, hnow⟩
          · rw [search_step hnow, Option.isSome_map] at h
            obtain ⟨k, hk, hend⟩ := ih h
            exact ⟨k + 1, by omega, by rwa [Nat.add_assoc, Nat.add_comm 1] at hend⟩

/-- The passes go on behind a restart interval where the search is bounded. -/
theorem seekRst_isSome_iff {memory : Nat → UInt8} {priv : RstPriv} {last : Nat} (hlast : last < 8)
    (hpriv : priv.lastRstMarkerSeen = last) :
    (seekRst (rstMarker last) false
      (Buffer.read memory priv.stream (priv.streamEnd - priv.stream))).isSome ↔
        priv.EndInData memory := by
  rw [seekRst_eq memory hlast, Option.isSome_map, ← hpriv]
  constructor
  · intro h
    obtain ⟨k, hk, hend⟩ := search_sound h
    exact ⟨priv.stream + k, Nat.le_add_right .., by omega, hend⟩
  · intro h
    obtain ⟨i, hi, hlt⟩ := h.first
    have hle := hi.le
    have hsearch := search_mono hi.search (priv.streamEnd - priv.stream - (i - priv.stream + 2))
    rw [Nat.add_sub_cancel' (by omega)] at hsearch
    rw [hsearch]
    rfl

end Recode
