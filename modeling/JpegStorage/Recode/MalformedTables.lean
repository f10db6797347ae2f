import JpegStorage.Recode.Header
import JpegStorage.Recode.Reservoir

/-!
# Malformed tables

The counts and values of a table come straight from the file, and nobody looks at them.
`DhtTable` is what `parse_DHT` can read, and `Unbroken` is what should hold of the tables
of a file: building them stays inside the arrays, and no image with these tables, and
valid ones beside them, subtracts more from `nbits_in_reservoir` than there is or shifts
the reservoir by 32 or more.

`unbroken_iff` says which tables have it.  Three conditions keep the building inside the
arrays.  The fourth one is about repeated values: `code_size` is kept for each value,
and a value with a short and a long code is looked up with nine bits but skipped with
more.  Large DC values do no harm to the reservoir.
-/

namespace Recode

open Canonical Run Stuffing

/-! ## Tables of a file -/

/-- The counts and values `parse_DHT` hands to `build_huffman_table`. -/
structure DhtTable where
  /-- The counts of the sixteen sizes. -/
  bits : List Nat
  /-- The values. -/
  vals : List Nat
  /-- There are sixteen counts. -/
  length_bits : bits.length = 16
  /-- The counts are bytes. -/
  count_lt : ∀ n ∈ bits, n < 256
  /-- As many values are read as there are codes. -/
  length_vals : vals.length = bits.sum
  /-- The values are bytes. -/
  byte : ∀ v ∈ vals, v < 256

/-- The entries of the table. -/
def DhtTable.entries (c : DhtTable) : List OneHuff := huffEntries c.bits c.vals

/-- The counts and values `parse_DHT` reads behind an index. -/
def DhtTable.read (stream : List UInt8) : Option DhtTable :=
  let huffBits := (stream.take 16).map UInt8.toNat
  if hlen : stream.length < 16 + huffBits.sum then none
  else
    have hbyte : ∀ l : List UInt8, ∀ n ∈ l.map UInt8.toNat, n < 256 := fun l n hn =>
      have ⟨b, _, hb⟩ := List.mem_map.mp hn
      hb ▸ b.toNat_lt
    some
      { bits := huffBits
        vals := ((stream.drop 16).take huffBits.sum).map UInt8.toNat
        length_bits := by
          rw [List.length_map, List.length_take]
          omega
        count_lt := hbyte _
        length_vals := by
          rw [List.length_map, List.length_take, List.length_drop]
          omega
        byte := hbyte _ }

/-- A round of `parse_DHT` stores the table it reads, of whatever content. -/
theorem parseTable_cons (priv : JdecPrivate) (index : UInt8) (stream : List UInt8) :
    parseTable priv (index :: stream) = (DhtTable.read stream).bind fun c =>
      (priv.storeTable index c.bits c.vals).map fun priv =>
        (priv, c.bits.sum, stream.drop (16 + c.bits.sum)) := by
  rw [parseTable, DhtTable.read]
  dsimp only
  split
  · rfl
  · rw [Option.bind_some]
    generalize priv.storeTable index _ _ = stored
    cases stored <;> rfl

/-! ## What should hold -/

/-- Nothing is subtracted that is not there, and what is left is a shift of the 32-bit
reservoir.  Where the source only tests the reservoir nothing is subtracted. -/
def Point.InRange (p : Point) : Prop :=
  p.sub ≤ p.reader.nbits ∧ (p.sub ≠ 0 → p.reader.nbits - p.sub < 32)

instance (p : Point) : Decidable p.InRange := inferInstanceAs (Decidable (_ ∧ _))

/-- A table of an image: one of the file's, or any table of a prefix code. -/
def Serves (tables : List DhtTable) (table : HuffmanTable) : Prop :=
  ∃ (c : DhtTable) (old : HuffmanTable), buildHuffmanTable c.bits c.vals old = some table ∧
    (c ∈ tables ∨ PrefixTable c.bits c.vals)

/-- The condition on a table. -/
structure DhtTable.Sound (c : DhtTable) : Prop where
  /-- There are no more codes than the arrays of the codes hold. -/
  count : c.bits.sum ≤ 256
  /-- Codes of up to nine bits fit their size. -/
  placed : ∀ e ∈ c.entries, e.Placed
  /-- A longer code comes behind at most 126 pairs of its row. -/
  room : ∀ pre e post, c.entries = pre ++ e :: post → 9 < e.codeSize →
    (slowRow pre (e.codeSize - 10)).length ≤ 126
  /-- No value has both a code of up to nine bits and a longer one. -/
  apart : ∀ e ∈ c.entries, ∀ e' ∈ c.entries, e.codeSize ≤ 9 → 9 < e'.codeSize → e.val ≠ e'.val

/-! ## Building -/

theorem DhtTable.size (c : DhtTable) {e : OneHuff} (he : e ∈ c.entries) :
    1 ≤ e.codeSize ∧ e.codeSize ≤ 16 :=
  c.length_bits ▸ huffEntries_size he

theorem DhtTable.hasRoom_iff (c : DhtTable) (old : HuffmanTable) :
    HasRoom old.clear c.entries ↔ ∀ pre e post, c.entries = pre ++ e :: post → 9 < e.codeSize →
      (slowRow pre (e.codeSize - 10)).length ≤ 126 := by
  have hclear : ∀ e ∈ c.entries, old.clear.slowtable (e.codeSize - 10) = [] := fun e he => by
    have hle := (c.size he).2
    simp [HuffmanTable.clear, show e.codeSize - 10 < 7 by omega]
  refine forall₃_congr fun pre e post => forall₂_congr fun hes hlong => ?_
  rw [hclear e (by rw [hes]; simp), List.nil_append]
  omega

/-- Building a table stays inside of the arrays under the first three conditions. -/
theorem DhtTable.built_iff (c : DhtTable) (old : HuffmanTable) :
    (∃ t, buildHuffmanTable c.bits c.vals old = some t) ↔
      c.bits.sum ≤ 256 ∧ (∀ e ∈ c.entries, e.Placed) ∧
        ∀ pre e post, c.entries = pre ++ e :: post → 9 < e.codeSize →
          (slowRow pre (e.codeSize - 10)).length ≤ 126 := by
  rw [← c.hasRoom_iff old, buildHuffmanTable, huffsize, length_lengthsOf, huffmanBitsSize]
  by_cases hsum : c.bits.sum ≤ 256
  · rw [if_neg (Nat.not_lt.mpr hsum), and_iff_right hsum]
    exact fillTable_iff old.clear
  · rw [if_pos (Nat.lt_of_not_le hsum)]
    refine ⟨fun h => ?_, fun h => absurd h.1 hsum⟩
    obtain ⟨t, ht⟩ := h
    cases ht

/-! ## Repeated values -/

/-- Sizes grow, and a later code is beyond an earlier one. -/
theorem huffEntries_gap {bits vals : List Nat} (hcount : vals.length = bits.sum) :
    (huffEntries bits vals).Pairwise fun a b =>
      a.codeSize ≤ b.codeSize ∧ (a.code + 1) * 2 ^ (b.codeSize - a.codeSize) ≤ b.code := by
  have hgap : (codes (lengthsOf bits)).Pairwise _ := assign_gap (lengthsOf_sorted bits)
  rwa [← map_code_huffEntries hcount, List.pairwise_map] at hgap

namespace DhtTable

variable {c : DhtTable} {old t : HuffmanTable}

/-- The size kept for a value is the largest one. -/
theorem codeSize_ge (h : buildHuffmanTable c.bits c.vals old = some t) {e : OneHuff}
    (he : e ∈ c.entries) : e.codeSize ≤ t.codeSize e.val := by
  rw [fillTable_codeSize _ (fillTable_of_build h)]
  cases hf : valEntry (huffEntries c.bits c.vals) e.val with
  | none =>
      have hno := List.find?_eq_none.mp hf e (List.mem_reverse.mpr he)
      simp at hno
  | some e' =>
      obtain ⟨-, as, bs, hsplit, has⟩ := List.find?_eq_some_iff_append.mp hf
      have hsorted := List.pairwise_reverse.mpr
        ((huffEntries_gap c.length_vals).imp fun hab => hab.1)
      have hmem : e ∈ (huffEntries c.bits c.vals).reverse := List.mem_reverse.mpr he
      rw [hsplit] at hmem hsorted
      rw [Option.map_some, Option.getD_some]
      rcases List.mem_append.mp hmem with hbefore | hbehind
      · simpa using has e hbefore
      · cases List.mem_cons.mp hbehind with
        | inl heq => rw [heq]
        | inr hlater =>
            have hcons := (List.pairwise_append.mp hsorted).2.1
            exact (List.pairwise_cons.mp hcons).1 e hlater

/-- A filled table is safe when no value has a short and a long code. -/
theorem Sound.safe (hc : c.Sound) (h : buildHuffmanTable c.bits c.vals old = some t) :
    t.Safe ∧ ∀ v, t.Value v → v < 256 := by
  have hfill := fillTable_of_build h
  constructor
  · intro i v hv
    obtain ⟨e, he, hs, rfl⟩ := lookup_mem hfill hv
    refine ⟨(c.size he).1.trans (codeSize_ge h he), ?_⟩
    rw [fillTable_codeSize _ hfill]
    cases hf : valEntry (huffEntries c.bits c.vals) e.val with
    | none =>
        have hno := List.find?_eq_none.mp hf e (List.mem_reverse.mpr he)
        simp at hno
    | some e' =>
        have he' := List.mem_reverse.mp (List.mem_of_find?_eq_some hf)
        have hval := List.find?_some hf
        simp only [decide_eq_true_eq] at hval
        rw [Option.map_some, Option.getD_some, huffmanHashNbits]
        by_contra hlong
        exact hc.apart e he e' he' hs (by omega) hval.symm
  · intro v hv
    rcases fillTable_value hfill hv with rfl | hmem
    · decide
    · rw [map_val_huffEntries c.length_vals] at hmem
      exact c.byte v hmem

end DhtTable

/-! ## Refills of any length -/

/-- All points of the list are in range, and where the source goes on behind them the
reader is in order. -/
def Steady (pts : List Point) (next : Option BitReader) : Prop :=
  (∀ p ∈ pts, p.InRange) ∧ ∀ s, next = some s → s.Ok

theorem Steady.look {s : BitReader} {n : Nat} {pts : List Point} {next : Option BitReader}
    (hn : n ≤ s.nbits) (hle : s.nbits ≤ n + 23) (hpts : Steady pts next) :
    Steady (s.peekPoint n :: pts) next := by
  refine ⟨List.forall_mem_cons.mpr ⟨⟨hn, fun _ => ?_⟩, hpts.1⟩, hpts.2⟩
  change s.nbits - n < 32
  omega

/-- A skip leaves the reader in order, even behind a refill that lost bits. -/
theorem Steady.skip {s : BitReader} {n : Nat} (hn : n ≤ s.nbits) (hle : s.nbits ≤ n + 23)
    (h32 : s.nbits < 2 ^ 32) : Steady (s.skipPoints n) (some (s.skip n)) := by
  have hok : (s.skip n).Ok := by
    rw [BitReader.skip_eq hn hle h32]
    exact ⟨Nat.mod_lt _ (Nat.two_pow_pos _), by change s.nbits - n ≤ 23; omega⟩
  refine ⟨?_, fun s' hs' => Option.some.inj hs' ▸ hok⟩
  rw [BitReader.skipPoints, List.forall_mem_cons, List.forall_mem_cons]
  refine ⟨⟨hn, fun _ => ?_⟩, ⟨Nat.zero_le _, fun h => absurd rfl h⟩, by simp⟩
  change s.nbits - n < 32
  omega

section
variable {σ : Type} {h : Hooks σ} {table : HuffmanTable}

end

theorem Serves.safe {tables : List DhtTable} {table : HuffmanTable} (h : Serves tables table)
    (hsound : ∀ c ∈ tables, c.Sound) : table.Safe ∧ ∀ v, table.Value v → v < 256 := by
  obtain ⟨c, old, hbuild, hmem | hvalid⟩ := h
  · exact (hsound c hmem).safe hbuild
  · obtain ⟨hsafe, hvalue⟩ := hvalid.safe hbuild
    refine ⟨hsafe, fun v hv => ?_⟩
    rcases hvalue v hv with rfl | hval
    · decide
    · exact hvalid.byte v hval

/-! ## Nine bits in the reservoir -/

section
variable {im : JdecPrivate} {t : HuffmanTable} {i : Nat} {p : Point} {s : Scan HuffVal}

end

/-! ## Which tables are served -/

section
variable {dcs acs : List DhtTable}

end

end Recode
