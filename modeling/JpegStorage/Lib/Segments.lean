import JpegStorage.Lib.Bits

/-!
# Marker segments

The header of a file is a sequence of segments: fill bytes, a marker, a length
of two bytes that counts itself, and a payload.  `Walk` cuts a header up to a
given marker.  A header is cut in one way only (`Walk.det`), and segments that are
spelt one after another are cut into themselves (`Walk.spell`).
-/

namespace Segments

/-! ## Two-byte numbers -/

/-- A number of two bytes, the high one first. -/
def be16 (hi lo : UInt8) : Nat := hi.toNat * 256 + lo.toNat

/-- The two bytes of a number. -/
def be16Bytes (n : Nat) : List UInt8 := [UInt8.ofNat (n / 256), UInt8.ofNat n]

theorem be16_lt (hi lo : UInt8) : be16 hi lo < 2 ^ 16 := by
  have hhi := hi.toNat_lt
  have hlo := lo.toNat_lt
  rw [be16]
  omega

theorem be16_ofNat {n : Nat} (h : n < 2 ^ 16) :
    be16 (UInt8.ofNat (n / 256)) (UInt8.ofNat n) = n := by
  rw [be16, UInt8.toNat_ofNat', UInt8.toNat_ofNat']
  omega

theorem be16_inj {hi lo hi' lo' : UInt8} (h : be16 hi lo = be16 hi' lo') : hi = hi' ∧ lo = lo' := by
  rw [be16, be16] at h
  have hlo := lo.toNat_lt
  have hlo' := lo'.toNat_lt
  exact ⟨UInt8.toNat_inj.mp (by omega), UInt8.toNat_inj.mp (by omega)⟩

/-! ## Segments -/

/-- A marker segment. -/
structure Segment where
  /-- The byte behind the `FF`. -/
  marker : UInt8
  /-- The bytes behind the length. -/
  payload : List UInt8
  /-- A marker is no fill byte. -/
  marker_ne : marker ≠ 0xff
  /-- The length has two bytes. -/
  fits : payload.length + 2 < 2 ^ 16
deriving DecidableEq

attribute [ext] Segment

namespace Segment

/-- The length and the payload. -/
def body (s : Segment) : List UInt8 := be16Bytes (s.payload.length + 2) ++ s.payload

/-- A segment as it stands in the file. -/
def bytes (s : Segment) : List UInt8 := 0xff :: s.marker :: s.body

theorem length_body (s : Segment) : s.body.length = s.payload.length + 2 := by
  rw [body, List.length_append, be16Bytes, List.length_cons, List.length_cons, List.length_nil]
  omega

/-- A body is its length and the payload. -/
theorem body_cons (s : Segment) :
    ∃ hi lo, s.body = hi :: lo :: s.payload ∧ be16 hi lo = s.payload.length + 2 :=
  ⟨_, _, rfl, be16_ofNat s.fits⟩

/-- The length says where a body ends. -/
theorem body_append_inj {s s' : Segment} {r r' : List UInt8} (h : s.body ++ r = s'.body ++ r') :
    s.payload = s'.payload ∧ r = r' := by
  rw [body, body, be16Bytes, be16Bytes, List.append_assoc, List.append_assoc, List.cons_append,
    List.cons_append, List.cons_append, List.cons_append] at h
  injection h with hhi h
  injection h with hlo h
  have hlen : s.payload.length = s'.payload.length := by
    have hs := be16_ofNat s.fits
    have hs' := be16_ofNat s'.fits
    rw [hhi, hlo, hs'] at hs
    omega
  exact List.append_inj h hlen

end Segment

/-! ## Walking over a header -/

/-- Fill bytes in front of a marker. -/
def fill (n : Nat) : List UInt8 := List.replicate n 0xff

theorem fill_append_inj {m m' : UInt8} {r r' : List UInt8} (hm : m ≠ 0xff) (hm' : m' ≠ 0xff) :
    ∀ {n n' : Nat}, fill n ++ m :: r = fill n' ++ m' :: r' → n = n' ∧ m = m' ∧ r = r' := by
  intro n
  induction n with
  | zero =>
      intro n' h
      cases n' with
      | zero =>
          injection h with hm hr
          exact ⟨rfl, hm, hr⟩
      | succ n' =>
          injection h with hff
          exact absurd hff hm
  | succ n ih =>
      intro n' h
      cases n' with
      | zero =>
          injection h with hff
          exact absurd hff.symm hm'
      | succ n' =>
          injection h with _ h
          obtain ⟨rfl, hrest⟩ := ih h
          exact ⟨rfl, hrest⟩

/-- The segments in front of the first marker `stop`, and the bytes behind it. -/
inductive Walk (stop : UInt8) : List UInt8 → List Segment → List UInt8 → Prop where
  | stop (n : Nat) (rest : List UInt8) : Walk stop (fill (n + 1) ++ stop :: rest) [] rest
  | segment (n : Nat) {s : Segment} {bytes rest : List UInt8} {segs : List Segment} :
      s.marker ≠ stop → Walk stop bytes segs rest →
      Walk stop (fill (n + 1) ++ s.marker :: (s.body ++ bytes)) (s :: segs) rest

/-- A header is cut in one way. -/
theorem Walk.det {stop : UInt8} (hstop : stop ≠ 0xff) {bytes rest rest' : List UInt8}
    {segs segs' : List Segment} (h : Walk stop bytes segs rest) (h' : Walk stop bytes segs' rest') :
    segs = segs' ∧ rest = rest' := by
  induction h generalizing segs' with
  | stop n rest =>
      generalize hbytes : fill (n + 1) ++ stop :: rest = bytes at h'
      cases h' with
      | stop n' =>
          obtain ⟨_, _, hrest⟩ := fill_append_inj hstop hstop hbytes
          exact ⟨rfl, hrest⟩
      | @segment n' s _ _ _ hne hwalk =>
          obtain ⟨_, heq, _⟩ := fill_append_inj hstop s.marker_ne hbytes
          exact absurd heq.symm hne
  | @segment n s bytes rest segs hne hwalk ih =>
      generalize hbytes : fill (n + 1) ++ s.marker :: (s.body ++ bytes) = all at h'
      cases h' with
      | stop n' =>
          obtain ⟨_, heq, _⟩ := fill_append_inj s.marker_ne hstop hbytes
          exact absurd heq hne
      | @segment n' s' bytes' _ segs' hne' hwalk' =>
          obtain ⟨_, hmarker, hbody⟩ := fill_append_inj s.marker_ne s'.marker_ne hbytes
          obtain ⟨hpayload, rfl⟩ := Segment.body_append_inj hbody
          obtain ⟨hsegs, hrest⟩ := ih hwalk'
          exact ⟨by rw [hsegs, Segment.ext hmarker hpayload], hrest⟩

/-- Segments behind fill bytes, in front of a tail. -/
def spell : List (Nat × Segment) → List UInt8 → List UInt8
  | [], tail => tail
  | (n, s) :: pre, tail => fill (n + 1) ++ s.marker :: (s.body ++ spell pre tail)

/-- A header that is cut is spelt by its segments. -/
theorem Walk.spelt {stop : UInt8} {bytes rest : List UInt8} {segs : List Segment}
    (h : Walk stop bytes segs rest) :
    (∀ s ∈ segs, s.marker ≠ stop) ∧ ∃ pre n, segs = pre.map Prod.snd ∧
      bytes = spell pre (fill (n + 1) ++ stop :: rest) := by
  induction h with
  | stop n rest => exact ⟨fun s hs => absurd hs List.not_mem_nil, [], n, rfl, rfl⟩
  | @segment n s bytes rest segs hne hwalk ih =>
      obtain ⟨hall, pre, m, rfl, rfl⟩ := ih
      refine ⟨?_, (n, s) :: pre, m, rfl, rfl⟩
      intro t ht
      cases List.mem_cons.mp ht with
      | inl heq => exact heq ▸ hne
      | inr hmem => exact hall t hmem

/-- A header is spelt in one way up to its first marker `stop`. -/
theorem spell_inj {stop : UInt8} (hstop : stop ≠ 0xff) {pre pre' : List (Nat × Segment)}
    (hpre : ∀ p ∈ pre, p.2.marker ≠ stop) (hpre' : ∀ p ∈ pre', p.2.marker ≠ stop) {n n' : Nat}
    {rest rest' : List UInt8} (h : spell pre (fill (n + 1) ++ stop :: rest) =
      spell pre' (fill (n' + 1) ++ stop :: rest')) : pre = pre' ∧ n = n' ∧ rest = rest' := by
  induction pre generalizing pre' with
  | nil =>
      cases pre' with
      | nil =>
          obtain ⟨hn, _, hrest⟩ := fill_append_inj hstop hstop h
          exact ⟨rfl, by omega, hrest⟩
      | cons p' pre' =>
          obtain ⟨_, hmarker, _⟩ := fill_append_inj hstop p'.2.marker_ne h
          exact absurd hmarker.symm (hpre' p' (List.mem_cons_self ..))
  | cons p pre ih =>
      cases pre' with
      | nil =>
          obtain ⟨_, hmarker, _⟩ := fill_append_inj p.2.marker_ne hstop h
          exact absurd hmarker (hpre p (List.mem_cons_self ..))
      | cons p' pre' =>
          obtain ⟨hn, hmarker, hbody⟩ := fill_append_inj p.2.marker_ne p'.2.marker_ne h
          obtain ⟨hpayload, hrest⟩ := Segment.body_append_inj hbody
          obtain ⟨rfl, hend⟩ := ih (fun q hq => hpre q (List.mem_cons_of_mem _ hq))
            (fun q hq => hpre' q (List.mem_cons_of_mem _ hq)) hrest
          refine ⟨?_, hend⟩
          obtain ⟨n, s⟩ := p
          obtain ⟨n', s'⟩ := p'
          rw [show s = s' from Segment.ext hmarker hpayload, show n = n' by omega]

/-- Segments are cut in front of whatever the tail is cut into. -/
theorem Walk.spell {stop : UInt8} (pre : List (Nat × Segment)) {tail rest : List UInt8}
    {segs : List Segment} (hne : ∀ s ∈ pre.map Prod.snd, s.marker ≠ stop)
    (h : Walk stop tail segs rest) :
    Walk stop (Segments.spell pre tail) (pre.map Prod.snd ++ segs) rest := by
  induction pre with
  | nil => exact h
  | cons p pre ih =>
      have hrest := ih fun s hs => hne s (List.mem_cons_of_mem _ hs)
      exact .segment p.1 (hne p.2 (List.mem_cons_self ..)) hrest

end Segments
