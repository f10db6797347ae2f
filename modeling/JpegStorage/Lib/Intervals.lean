import JpegStorage.Lib.Stuffing

/-!
# Restart intervals in a scan

The bytes of a scan are split at the markers in it.  `FF` and a zero are the data
byte `FF`, bytes `FF` directly before a marker are fill, and one of the eight
restart markers ends an interval.  Any other marker ends the scan.

`splitScan_spell` is the round trip: intervals spelled with any amount of fill
are split into what they were.
-/

namespace Stuffing

/-- An interval that a restart marker ends. -/
structure Interval where
  /-- The data bytes. -/
  data : List UInt8
  /-- The second byte of the marker. -/
  marker : UInt8
deriving DecidableEq, Repr

/-- The intervals of a scan. -/
structure Split where
  /-- The intervals a marker ends. -/
  closed : List Interval
  /-- The data bytes behind the last marker. -/
  last : List UInt8
deriving DecidableEq, Repr

/-- Data bytes in front of a scan. -/
def Split.prepend (data : List UInt8) (s : Split) : Split :=
  match s.closed with
  | [] => ⟨[], data ++ s.last⟩
  | iv :: ivs => ⟨{ iv with data := data ++ iv.data } :: ivs, s.last⟩

/-- Is the byte the second one of a restart marker? -/
def IsRestart (c : UInt8) : Prop := 0xd0 ≤ c ∧ c ≤ 0xd7

instance : DecidablePred IsRestart := fun _ => instDecidableAnd

theorem IsRestart.ne {c : UInt8} (h : IsRestart c) : c ≠ 0xff ∧ c ≠ 0x00 := by
  constructor
  · rintro rfl
    exact absurd h.2 (by decide)
  · rintro rfl
    exact absurd h.1 (by decide)

/-- Split the bytes of a scan.  The flag says that the byte before was an `FF`
whose meaning is open. -/
def splitScan : Bool → List UInt8 → Split
  | _, [] => ⟨[], []⟩
  | false, c :: rest =>
      if c = 0xff then splitScan true rest else (splitScan false rest).prepend [c]
  | true, c :: rest =>
      if c = 0xff then splitScan true rest
      else if c = 0x00 then (splitScan false rest).prepend [0xff]
      else if IsRestart c then
        let s := splitScan false rest
        ⟨⟨[], c⟩ :: s.closed, s.last⟩
      else ⟨[], []⟩

@[simp] theorem Split.prepend_nil (s : Split) : s.prepend [] = s := by
  obtain ⟨closed, last⟩ := s
  cases closed <;> rfl

theorem Split.prepend_prepend (xs ys : List UInt8) (s : Split) :
    (s.prepend ys).prepend xs = s.prepend (xs ++ ys) := by
  obtain ⟨closed, last⟩ := s
  cases closed <;> simp [Split.prepend]

/-- Stuffed data is data. -/
theorem splitScan_stuff (data rest : List UInt8) :
    splitScan false (stuff data ++ rest) = (splitScan false rest).prepend data := by
  induction data with
  | nil => simp [stuff]
  | cons b data ih =>
      rw [stuff]
      split
      next hb =>
        subst hb
        rw [List.cons_append, List.cons_append, splitScan, if_pos rfl, splitScan,
          if_neg (by decide), if_pos rfl, ih, Split.prepend_prepend]
        rfl
      next hb =>
        rw [List.cons_append, splitScan, if_neg hb, ih, Split.prepend_prepend]
        rfl

/-- Fill is skipped. -/
theorem splitScan_fill (n : Nat) (rest : List UInt8) :
    splitScan true (List.replicate n 0xff ++ rest) = splitScan true rest := by
  induction n with
  | zero => rfl
  | succ n ih => rw [List.replicate_succ, List.cons_append, splitScan, if_pos rfl, ih]

/-- A marker with fill in front of it. -/
def spellMarker (n : Nat) (c : UInt8) : List UInt8 := List.replicate n 0xff ++ [0xff, c]

theorem spellMarker_cons (n : Nat) (c : UInt8) :
    spellMarker n c = 0xff :: (List.replicate n 0xff ++ [c]) := by
  induction n with
  | zero => rfl
  | succ n ih =>
      rw [spellMarker, List.replicate_succ, List.cons_append, ← spellMarker, ih, List.cons_append]

theorem splitScan_marker {c : UInt8} (h : c ≠ 0xff ∧ c ≠ 0x00) (n : Nat) (rest : List UInt8) :
    splitScan false (spellMarker n c ++ rest) =
      if IsRestart c then
        ⟨⟨[], c⟩ :: (splitScan false rest).closed, (splitScan false rest).last⟩
      else ⟨[], []⟩ := by
  rw [spellMarker_cons, List.cons_append, List.append_assoc, splitScan, if_pos rfl, splitScan_fill,
    List.singleton_append, splitScan, if_neg h.1, if_neg h.2]

/-- Intervals with the fill in front of their markers. -/
def spellIntervals : List (Interval × Nat) → List UInt8
  | [] => []
  | (iv, fill) :: ivs => stuff iv.data ++ spellMarker fill iv.marker ++ spellIntervals ivs

/-- Intervals are split into what was spelled. -/
theorem splitScan_spell {ivs : List (Interval × Nat)} (h : ∀ iv ∈ ivs, IsRestart iv.1.marker)
    (last : List UInt8) {rest : List UInt8} (hrest : splitScan false rest = ⟨[], []⟩) :
    splitScan false (spellIntervals ivs ++ (stuff last ++ rest)) = ⟨ivs.map Prod.fst, last⟩ := by
  induction ivs with
  | nil =>
      rw [spellIntervals, List.nil_append, splitScan_stuff, hrest, Split.prepend]
      simp
  | cons iv ivs ih =>
      obtain ⟨⟨data, marker⟩, fill⟩ := iv
      have hmarker : IsRestart marker := h _ (List.mem_cons_self ..)
      have hivs := ih fun iv hiv => h iv (List.mem_cons_of_mem _ hiv)
      rw [spellIntervals, List.append_assoc, List.append_assoc, splitScan_stuff,
        splitScan_marker hmarker.ne, if_pos hmarker, hivs]
      simp [Split.prepend]

end Stuffing
