import JpegStorage.Lib.Canonical
import Mathlib.Data.List.Induction
import Mathlib.Data.List.Nodup
import Mathlib.Data.List.Perm.Subperm
import Mathlib.Logic.Function.Basic

/-!
# The two-level Huffman table

`build_huffman_table` turns the counts and symbols of one DHT table into
`struct huffman_table`: a fast table indexed by the next nine bits, the code
size of every symbol, and seven slow rows, one for each code size from ten to
sixteen, searched in order.

A slow row is 256 numbers, used as pairs of code and symbol with a zero after
the last pair.  The model keeps the pairs before that zero.  Storing a zero code
therefore leaves the row as it was.  Every write outside the arrays is undefined
behaviour in the source and makes the model return `none`.

`fillTable_lookup`, `fillTable_codeSize` and `fillTable_slowtable` say what a
filled table holds.  `Holds` is what the decoder needs of it, and
`fillTable_holds` is the theorem that a filled table of a prefix-free code with
distinct symbols has it.  `buildHuffmanTable_iff` says when the rows are long enough,
and `PrefixTable.exists_stored` which codes a filled table has lost.
-/

namespace Recode

open Canonical

/-! ## The table -/

/-- `HUFFMAN_HASH_NBITS`. -/
def huffmanHashNbits : Nat := 9

/-- `HUFFMAN_BITS_SIZE`, the bound on the codes of one table. -/
def huffmanBitsSize : Nat := 256

/-- `struct huffman_table`. -/
structure HuffmanTable where
  /-- `lookup`: the symbol of a nine-bit window, `none` for the filler `-1`. -/
  lookup : Nat → Option Nat
  /-- `code_size`, by symbol. -/
  codeSize : Nat → Nat
  /-- `slowtable`: the pairs of code and symbol of each row. -/
  slowtable : Nat → List (Nat × Nat)

/-- A table in memory that `calloc` cleared.  Its fast table holds symbol 0 everywhere. -/
def HuffmanTable.zero : HuffmanTable := ⟨fun _ => some 0, fun _ => 0, fun _ => []⟩

/-- `ONE_HUFF`: a symbol with its code and code size. -/
structure OneHuff where
  /-- The symbol. -/
  val : Nat
  /-- The code. -/
  code : Nat
  /-- The number of bits of the code. -/
  codeSize : Nat
deriving DecidableEq, Repr

/-- The array `huffsize`: the code sizes in increasing order, `bits` counting
the codes of the sizes 1 to 16. -/
def huffsize (bits : List Nat) : List Nat := lengthsOf bits

/-- The array `huffcode`.  The inner loop numbers the codes of one size, the
outer one shifts the number once for each step of the size. -/
def huffcode : Nat → Nat → List Nat → List Nat
  | _, _, [] => []
  | code, nbits, hz :: rest =>
      let code := code <<< (hz - nbits)
      code :: huffcode (code + 1) hz rest

/-- The entries in the order of the last loop, which are also the entries
written to the record of the file. -/
def huffEntries (bits vals : List Nat) : List OneHuff :=
  List.zipWith (fun v (e : Nat × Nat) => ⟨v, e.1, e.2⟩) vals
    ((huffcode 0 0 (huffsize bits)).zip (huffsize bits))

/-- The two `memset`-like initialisations. -/
def HuffmanTable.clear (t : HuffmanTable) : HuffmanTable :=
  { t with lookup := fun _ => none, slowtable := fun i => if i < 7 then [] else t.slowtable i }

/-- The windows of the fast table that an entry covers. -/
def OneHuff.Covers (e : OneHuff) (i : Nat) : Prop :=
  e.code <<< (huffmanHashNbits - e.codeSize) ≤ i ∧
    i < e.code <<< (huffmanHashNbits - e.codeSize) + 2 ^ (huffmanHashNbits - e.codeSize)

instance (e : OneHuff) (i : Nat) : Decidable (e.Covers i) :=
  inferInstanceAs (Decidable (_ ∧ _))

/-- The body of the last loop. -/
def insertEntry (t : HuffmanTable) (e : OneHuff) : Option HuffmanTable :=
  let codeSize := Function.update t.codeSize e.val e.codeSize
  if e.codeSize ≤ huffmanHashNbits then
    let code := e.code <<< (huffmanHashNbits - e.codeSize)
    let repeat_ := 2 ^ (huffmanHashNbits - e.codeSize)
    if 512 < code + repeat_ then none
    else some { t with codeSize := codeSize,
                       lookup := fun i => if e.Covers i then some e.val else t.lookup i }
  else
    let row := e.codeSize - huffmanHashNbits - 1
    let code := e.code % 65536
    -- the pair and the zero after it take the cells up to `2 * length + 2`
    if 255 < 2 * (t.slowtable row).length + 2 then none
    else some { t with codeSize := codeSize,
                       slowtable := Function.update t.slowtable row
                         (if code = 0 then t.slowtable row
                          else t.slowtable row ++ [(code, e.val)]) }

/-- The last loop. -/
def fillTable : HuffmanTable → List OneHuff → Option HuffmanTable
  | t, [] => some t
  | t, e :: es =>
      match insertEntry t e with
      | none => none
      | some t => fillTable t es

/-- `build_huffman_table`: `bits` are the counts of the code sizes 1 to 16,
`vals` the symbols. -/
def buildHuffmanTable (bits vals : List Nat) (table : HuffmanTable) : Option HuffmanTable :=
  if huffmanBitsSize < (huffsize bits).length then none
  else fillTable table.clear (huffEntries bits vals)

theorem fillTable_of_build {bits vals : List Nat} {old table : HuffmanTable}
    (h : buildHuffmanTable bits vals old = some table) :
    fillTable old.clear (huffEntries bits vals) = some table := by
  rw [buildHuffmanTable] at h
  split at h
  · cases h
  · exact h

/-! ## The entries are the canonical code -/

theorem huffcode_eq : ∀ (code nbits : Nat) (hz : List Nat),
    huffcode code nbits hz = (assign code nbits hz).map Prod.fst
  | _, _, [] => rfl
  | code, nbits, hz :: rest => by
      rw [huffcode, assign, List.map_cons, huffcode_eq]

theorem zip_map_fst_snd {α β : Type} : ∀ l : List (α × β), (l.map Prod.fst).zip (l.map Prod.snd) = l
  | [] => rfl
  | p :: l => by rw [List.map_cons, List.map_cons, List.zip_cons_cons, zip_map_fst_snd l]

theorem huffEntries_eq (bits vals : List Nat) :
    huffEntries bits vals =
      List.zipWith (fun v (e : Nat × Nat) => ⟨v, e.1, e.2⟩) vals (codes (lengthsOf bits)) := by
  have hzip := zip_map_fst_snd (codes (lengthsOf bits))
  rw [huffEntries, huffcode_eq, huffsize]
  conv at hzip => lhs; rhs; rw [codes, map_snd_assign]
  rw [codes] at hzip
  rw [hzip, codes]

/-- The code string of an entry. -/
def OneHuff.bits (e : OneHuff) : List Bool := Bits.ofNat e.codeSize e.code

/-- The entries as a code table. -/
def entryTable (es : List OneHuff) : Table Nat := es.map fun e => (e.val, e.bits)

theorem map_zipWith_entry : ∀ (vals : List Nat) (cs : List (Nat × Nat)),
    entryTable (List.zipWith (fun v (e : Nat × Nat) => ⟨v, e.1, e.2⟩) vals cs) =
      vals.zip (cs.map codeBits)
  | [], _ => by simp [entryTable]
  | _ :: _, [] => by simp [entryTable]
  | v :: vals, c :: cs => by
      have ih := map_zipWith_entry vals cs
      rw [entryTable] at ih ⊢
      rw [List.zipWith_cons_cons, List.map_cons, ih, List.map_cons, List.zip_cons_cons]
      rfl

theorem entryTable_huffEntries (bits vals : List Nat) :
    entryTable (huffEntries bits vals) = table bits vals := by
  rw [huffEntries_eq, map_zipWith_entry, table]

/-- The entries have the symbols in their order. -/
theorem map_val_huffEntries {bits vals : List Nat} (h : vals.length = bits.sum) :
    (huffEntries bits vals).map OneHuff.val = vals := by
  rw [huffEntries_eq, List.map_zipWith]
  refine List.ext_getElem ?_ fun i h1 h2 => ?_
  · rw [List.length_zipWith, length_codes, length_lengthsOf, h, Nat.min_self]
  · rw [List.getElem_zipWith]

/-- The entries have the canonical codes in their order. -/
theorem map_code_huffEntries {bits vals : List Nat} (h : vals.length = bits.sum) :
    (huffEntries bits vals).map (fun e => (e.code, e.codeSize)) = codes (lengthsOf bits) := by
  rw [huffEntries_eq, List.map_zipWith]
  refine List.ext_getElem ?_ fun i h1 h2 => ?_
  · rw [List.length_zipWith, length_codes, length_lengthsOf, h, Nat.min_self]
  · rw [List.getElem_zipWith]

theorem mem_codes_huffEntries {bits vals : List Nat} {e : OneHuff}
    (he : e ∈ huffEntries bits vals) : (e.code, e.codeSize) ∈ codes (lengthsOf bits) := by
  rw [huffEntries_eq, List.mem_iff_getElem] at he
  obtain ⟨i, hi, rfl⟩ := he
  rw [List.getElem_zipWith]
  exact List.getElem_mem _

theorem huffEntries_size {bits vals : List Nat} {e : OneHuff} (he : e ∈ huffEntries bits vals) :
    1 ≤ e.codeSize ∧ e.codeSize ≤ bits.length := by
  have hmem : e.codeSize ∈ (codes (lengthsOf bits)).map Prod.snd :=
    List.mem_map_of_mem (mem_codes_huffEntries he)
  rw [codes, map_snd_assign] at hmem
  exact mem_lengthsOf hmem

/-! ## What a filled table holds -/

/-- Everything the body of the last loop can do. -/
theorem insertEntry_cases {t t' : HuffmanTable} {e : OneHuff} (h : insertEntry t e = some t') :
    (e.codeSize ≤ 9 ∧ e.code <<< (9 - e.codeSize) + 2 ^ (9 - e.codeSize) ≤ 512 ∧
      t' = { t with codeSize := Function.update t.codeSize e.val e.codeSize,
                    lookup := fun i => if e.Covers i then some e.val else t.lookup i }) ∨
    (9 < e.codeSize ∧ 2 * (t.slowtable (e.codeSize - 10)).length + 2 ≤ 255 ∧
      t' = { t with codeSize := Function.update t.codeSize e.val e.codeSize,
                    slowtable := Function.update t.slowtable (e.codeSize - 10)
                      (if e.code % 65536 = 0 then t.slowtable (e.codeSize - 10)
                       else t.slowtable (e.codeSize - 10) ++ [(e.code % 65536, e.val)]) }) := by
  have hrow : e.codeSize - huffmanHashNbits - 1 = e.codeSize - 10 := by rw [huffmanHashNbits]; omega
  simp only [insertEntry, hrow] at h
  by_cases hs : e.codeSize ≤ huffmanHashNbits
  · simp only [hs, if_true] at h
    split at h
    · cases h
    next hfit => exact Or.inl ⟨hs, Nat.le_of_not_lt hfit, (Option.some.inj h).symm⟩
  · simp only [hs, if_false] at h
    split at h
    · cases h
    next hfit =>
      exact Or.inr ⟨by rw [huffmanHashNbits] at hs; omega, by omega, (Option.some.inj h).symm⟩

/-- The entries of one slow row. -/
def slowRow (es : List OneHuff) (row : Nat) : List (Nat × Nat) :=
  (es.filter fun e => e.codeSize = row + 10 ∧ e.code % 65536 ≠ 0).map fun e =>
    (e.code % 65536, e.val)

/-- The last entry that covers a window. -/
def fastEntry (es : List OneHuff) (i : Nat) : Option OneHuff :=
  es.reverse.find? fun e => e.codeSize ≤ 9 ∧ e.Covers i

/-- The last entry of a symbol. -/
def valEntry (es : List OneHuff) (v : Nat) : Option OneHuff :=
  es.reverse.find? fun e => e.val = v

theorem fillTable_cons {t t' : HuffmanTable} {e : OneHuff} {es : List OneHuff}
    (h : fillTable t (e :: es) = some t') :
    ∃ t₁, insertEntry t e = some t₁ ∧ fillTable t₁ es = some t' := by
  rw [fillTable] at h
  split at h
  · cases h
  next t₁ ht₁ => exact ⟨t₁, ht₁, h⟩

theorem fillTable_lookup (i : Nat) : ∀ {es : List OneHuff} {t t' : HuffmanTable},
    fillTable t es = some t' →
    t'.lookup i = ((fastEntry es i).map OneHuff.val).or (t.lookup i)
  | [], _, _, h => by
      simp only [fillTable, Option.some.injEq] at h
      subst h
      simp [fastEntry]
  | e :: es, t, t', h => by
      obtain ⟨t₁, ht₁, hes⟩ := fillTable_cons h
      rw [fillTable_lookup i hes, fastEntry, fastEntry, List.reverse_cons, List.find?_append]
      cases List.find? (fun e => decide (e.codeSize ≤ 9 ∧ e.Covers i)) es.reverse with
      | some e' => simp
      | none =>
          rcases insertEntry_cases ht₁ with ⟨hs, _, rfl⟩ | ⟨hs, _, rfl⟩
          · by_cases hc : e.Covers i <;> simp [hs, hc]
          · simp [Nat.not_le.mpr hs]

theorem fillTable_codeSize (v : Nat) : ∀ {es : List OneHuff} {t t' : HuffmanTable},
    fillTable t es = some t' →
    t'.codeSize v = ((valEntry es v).map OneHuff.codeSize).getD (t.codeSize v)
  | [], _, _, h => by
      simp only [fillTable, Option.some.injEq] at h
      subst h
      simp [valEntry]
  | e :: es, t, t', h => by
      obtain ⟨t₁, ht₁, hes⟩ := fillTable_cons h
      have hsize : t₁.codeSize = Function.update t.codeSize e.val e.codeSize := by
        rcases insertEntry_cases ht₁ with ⟨_, _, rfl⟩ | ⟨_, _, rfl⟩ <;> rfl
      rw [fillTable_codeSize v hes, valEntry, valEntry, List.reverse_cons, List.find?_append, hsize]
      cases List.find? (fun e => decide (e.val = v)) es.reverse with
      | some e' => simp
      | none =>
          by_cases hv : e.val = v
          · subst hv; simp
          · simp [hv, Function.update_of_ne (Ne.symm hv)]

theorem slowRow_cons (e : OneHuff) (es : List OneHuff) (row : Nat) :
    slowRow (e :: es) row = slowRow [e] row ++ slowRow es row := by
  rw [slowRow, slowRow, slowRow, ← List.map_append, ← List.filter_append]
  rfl

theorem insertEntry_slowtable {t t₁ : HuffmanTable} {e : OneHuff} (h : insertEntry t e = some t₁)
    (row : Nat) : t₁.slowtable row = t.slowtable row ++ slowRow [e] row := by
  rcases insertEntry_cases h with ⟨hs, _, rfl⟩ | ⟨hs, _, rfl⟩
  · have hne : e.codeSize ≠ row + 10 := by omega
    simp [slowRow, hne]
  · by_cases hr : e.codeSize = row + 10
    · by_cases hz : e.code % 65536 = 0 <;> simp [slowRow, hr, hz]
    · have hne : row ≠ e.codeSize - 10 := by omega
      simp [slowRow, hr, Function.update_of_ne hne]

theorem fillTable_slowtable (row : Nat) : ∀ {es : List OneHuff} {t t' : HuffmanTable},
    fillTable t es = some t' → t'.slowtable row = t.slowtable row ++ slowRow es row
  | [], _, _, h => by
      simp only [fillTable, Option.some.injEq] at h
      subst h
      simp [slowRow]
  | e :: es, t, t', h => by
      obtain ⟨t₁, ht₁, hes⟩ := fillTable_cons h
      rw [fillTable_slowtable row hes, insertEntry_slowtable ht₁, slowRow_cons e es,
        List.append_assoc]

/-! ## Room -/

/-- A short code that fits its size, so that its windows lie in the fast table. -/
def OneHuff.Placed (e : OneHuff) : Prop := e.codeSize ≤ 9 → e.code < 2 ^ e.codeSize

/-- The windows of a short code end where those of the next number of its size begin. -/
theorem window_end (e : OneHuff) :
    e.code <<< (9 - e.codeSize) + 2 ^ (9 - e.codeSize) = (e.code + 1) * 2 ^ (9 - e.codeSize) := by
  rw [Nat.shiftLeft_eq, Nat.succ_mul]

theorem placed_iff {e : OneHuff} (hs : e.codeSize ≤ 9) :
    e.Placed ↔ e.code <<< (9 - e.codeSize) + 2 ^ (9 - e.codeSize) ≤ 512 := by
  have hsplit : 512 = 2 ^ e.codeSize * 2 ^ (9 - e.codeSize) := by
    rw [← pow_add, Nat.add_sub_cancel' hs]
    rfl
  rw [window_end, hsplit]
  constructor
  · exact fun h => Nat.mul_le_mul_right _ (h hs)
  · exact fun h _ => Nat.le_of_mul_le_mul_right h (Nat.two_pow_pos _)

/-- The body of the last loop has room for a short code that fits its size, and for a long
one while its row takes one more pair. -/
theorem insertEntry_iff (t : HuffmanTable) (e : OneHuff) :
    (∃ t', insertEntry t e = some t') ↔ e.Placed ∧
      (9 < e.codeSize → 2 * (t.slowtable (e.codeSize - 10)).length + 2 ≤ 255) := by
  have hrow : e.codeSize - 9 - 1 = e.codeSize - 10 := by omega
  rw [insertEntry]
  simp only [huffmanHashNbits, hrow]
  by_cases hs : e.codeSize ≤ 9
  · rw [if_pos hs, placed_iff hs]
    by_cases hout : 512 < e.code <<< (9 - e.codeSize) + 2 ^ (9 - e.codeSize)
    · simp only [hout, if_true]
      exact ⟨nofun, fun h => absurd h.1 (Nat.not_le_of_lt hout)⟩
    · simp only [hout, if_false]
      exact ⟨fun _ => ⟨Nat.le_of_not_lt hout, fun hlong => by omega⟩, fun _ => ⟨_, rfl⟩⟩
  · rw [if_neg hs]
    split
    next hfull =>
      constructor
      · rintro ⟨_, h⟩
        cases h
      · rintro ⟨-, h⟩
        have := h (Nat.lt_of_not_le hs)
        omega
    next hroom =>
      exact ⟨fun _ => ⟨fun hshort => absurd hshort hs, fun _ => Nat.le_of_not_lt hroom⟩,
        fun _ => ⟨_, rfl⟩⟩

/-- Every long code finds room behind those of its row before it. -/
def HasRoom (t : HuffmanTable) (es : List OneHuff) : Prop :=
  ∀ pre e post, es = pre ++ e :: post → 9 < e.codeSize →
    2 * (t.slowtable (e.codeSize - 10) ++ slowRow pre (e.codeSize - 10)).length + 2 ≤ 255

theorem hasRoom_cons {t t₁ : HuffmanTable} {e : OneHuff} {es : List OneHuff}
    (h : insertEntry t e = some t₁) :
    HasRoom t (e :: es) ↔
      (9 < e.codeSize → 2 * (t.slowtable (e.codeSize - 10)).length + 2 ≤ 255) ∧ HasRoom t₁ es := by
  have hstep : ∀ pre row, t₁.slowtable row ++ slowRow pre row =
      t.slowtable row ++ slowRow (e :: pre) row := fun pre row => by
    rw [insertEntry_slowtable h, slowRow_cons e pre, List.append_assoc]
  constructor
  · intro hroom
    refine ⟨fun hlong => ?_, fun pre e' post hes hlong => ?_⟩
    · simpa [slowRow] using hroom [] e es rfl hlong
    · rw [hstep]
      exact hroom (e :: pre) e' post (by rw [hes]; rfl) hlong
  · rintro ⟨hhead, hroom⟩ pre e' post hes hlong
    cases pre with
    | nil =>
        injection hes with he
        subst he
        simpa [slowRow] using hhead hlong
    | cons p pre =>
        injection hes with hp hes
        subst hp
        rw [← hstep]
        exact hroom pre e' post hes hlong

/-- The last loop stays inside of the arrays exactly when every short code fits its size
and every long code finds room. -/
theorem fillTable_iff {es : List OneHuff} (t : HuffmanTable) :
    (∃ t', fillTable t es = some t') ↔ (∀ e ∈ es, e.Placed) ∧ HasRoom t es := by
  induction es generalizing t with
  | nil => exact ⟨fun _ => ⟨by simp, fun pre e post hes => by simp at hes⟩, fun _ => ⟨t, rfl⟩⟩
  | cons e es ih =>
      have hone := insertEntry_iff t e
      rw [fillTable, List.forall_mem_cons]
      cases hins : insertEntry t e with
      | none =>
          rw [hins] at hone
          constructor
          · rintro ⟨_, h⟩
            cases h
          · rintro ⟨hplaced, hroom⟩
            have hhead : 9 < e.codeSize → 2 * (t.slowtable (e.codeSize - 10)).length + 2 ≤ 255 := by
              simpa [slowRow] using hroom [] e es rfl
            obtain ⟨_, h⟩ := hone.mpr ⟨hplaced.1, hhead⟩
            cases h
      | some t₁ =>
          rw [hasRoom_cons hins]
          dsimp only
          rw [ih t₁]
          obtain ⟨hplaced, hhead⟩ := hone.mp ⟨t₁, hins⟩
          exact ⟨fun h => ⟨⟨hplaced, h.1⟩, hhead, h.2⟩, fun h => ⟨h.1.2, h.2.2⟩⟩

/-- In a cleared table there is room when no row gets more than 127 pairs, if a code of
zero comes first. -/
theorem hasRoom_clear {es : List OneHuff} (old : HuffmanTable)
    (hsize : ∀ e ∈ es, e.codeSize ≤ 16)
    (hzero : ∀ pre e post, es = pre ++ e :: post → e.code % 65536 = 0 → pre = []) :
    HasRoom old.clear es ↔ ∀ row, (slowRow es row).length ≤ 127 := by
  have hclear : ∀ e ∈ es, old.clear.slowtable (e.codeSize - 10) = [] := fun e he => by
    have hle := hsize e he
    simp [HuffmanTable.clear, show e.codeSize - 10 < 7 by omega]
  constructor
  · intro hroom row
    induction es using List.reverseRecOn with
    | nil => simp [slowRow]
    | append_singleton es e ih =>
        have happ : slowRow (es ++ [e]) row = slowRow es row ++ slowRow [e] row := by
          rw [slowRow, slowRow, slowRow, ← List.map_append, ← List.filter_append]
        by_cases hr : e.codeSize = row + 10
        · have hlast := hroom es e [] rfl (by omega)
          have hone : (slowRow [e] row).length ≤ 1 :=
            (List.length_map ..).trans_le (List.length_filter_le ..)
          rw [hclear e (by simp), List.nil_append, hr, Nat.add_sub_cancel] at hlast
          rw [happ, List.length_append]
          omega
        · have hnone : slowRow [e] row = [] := by simp [slowRow, hr]
          rw [happ, hnone, List.append_nil]
          refine ih (fun e' he' => hsize e' (by simp [he'])) (fun pre e' post hes h0 => ?_)
            (fun e' he' => hclear e' (by simp [he'])) (fun pre e' post hes hlong => ?_)
          · exact hzero pre e' (post ++ [e]) (by rw [hes]; simp) h0
          · exact hroom pre e' (post ++ [e]) (by rw [hes]; simp) hlong
  · intro hrows pre e post hes hlong
    rw [hclear e (by rw [hes]; simp), List.nil_append]
    by_cases h0 : e.code % 65536 = 0
    · rw [hzero pre e post hes h0]
      simp [slowRow]
    · have hrow := hrows (e.codeSize - 10)
      have happ : slowRow es (e.codeSize - 10) = slowRow pre (e.codeSize - 10) ++
          slowRow (e :: post) (e.codeSize - 10) := by
        rw [hes, slowRow, slowRow, slowRow, ← List.map_append, ← List.filter_append]
      have hkept : slowRow [e] (e.codeSize - 10) = [(e.code % 65536, e.val)] := by
        simp [slowRow, h0, Nat.sub_add_cancel hlong]
      rw [happ, slowRow_cons, hkept] at hrow
      simp only [List.length_append, List.length_cons, List.length_nil] at hrow
      omega

/-- The codes of a size that a slow row keeps: those that are not zero. -/
def longCodes (bits : List Nat) (size : Nat) : Nat :=
  (codes (lengthsOf bits)).countP fun e => e.2 = size ∧ e.1 ≠ 0

/-- No slow row gets more pairs than it holds. -/
def RowsHold (bits : List Nat) : Prop :=
  ∀ size, huffmanHashNbits < size → longCodes bits size ≤ 127

section
variable {bits vals : List Nat}

/-- Only the first entry can have the code zero. -/
theorem huffEntries_zero (hcount : vals.length = bits.sum) {pre post : List OneHuff} {e : OneHuff}
    (hes : huffEntries bits vals = pre ++ e :: post) (h0 : e.code = 0) : pre = [] := by
  have hgap : (codes (lengthsOf bits)).Pairwise _ := assign_gap (lengthsOf_sorted bits)
  rw [← map_code_huffEntries hcount, List.pairwise_map, hes, List.pairwise_append] at hgap
  rcases pre with _ | ⟨p, pre⟩
  · rfl
  · obtain ⟨_, hle⟩ := hgap.2.2 p (List.mem_cons_self ..) e (List.mem_cons_self ..)
    have hpos : 0 < (p.code + 1) * 2 ^ (e.codeSize - p.codeSize) := by positivity
    dsimp only at hle
    omega

/-- The table of a code that fits is filled exactly when no slow row overflows. -/
theorem buildHuffmanTable_iff (hsizes : bits.length = 16) (hcount : vals.length = bits.sum)
    (hle : bits.sum ≤ 256) (hfits : Fits (lengthsOf bits)) (old : HuffmanTable) :
    (∃ t, buildHuffmanTable bits vals old = some t) ↔ RowsHold bits := by
  have hroom : ¬ huffmanBitsSize < (huffsize bits).length := by
    rw [huffsize, length_lengthsOf, huffmanBitsSize]
    exact Nat.not_lt.mpr hle
  have hcode : ∀ e ∈ huffEntries bits vals, e.code < 2 ^ e.codeSize ∧ e.codeSize ≤ 16 :=
    fun e he => ⟨hfits _ (mem_codes_huffEntries he), hsizes ▸ (huffEntries_size he).2⟩
  have hmod : ∀ e ∈ huffEntries bits vals, e.code % 65536 = e.code := by
    intro e he
    obtain ⟨hlt, h16⟩ := hcode e he
    have hpow : 2 ^ e.codeSize ≤ 2 ^ 16 := Nat.pow_le_pow_right (by omega) h16
    exact Nat.mod_eq_of_lt (by omega)
  have hrows : ∀ row, (slowRow (huffEntries bits vals) row).length = longCodes bits (row + 10) := by
    intro row
    rw [slowRow, List.length_map, ← List.countP_eq_length_filter, longCodes,
      ← map_code_huffEntries hcount, List.countP_map]
    refine List.countP_congr fun e he => ?_
    simp [hmod e he]
  have hplaced : ∀ e ∈ huffEntries bits vals, e.Placed := fun e he _ => (hcode e he).1
  rw [buildHuffmanTable, if_neg hroom, fillTable_iff, and_iff_right hplaced,
    hasRoom_clear old (fun e he => (hcode e he).2) fun pre e post hes h0 =>
      huffEntries_zero hcount hes (hmod e (by rw [hes]; simp) ▸ h0)]
  constructor
  · intro h size hlong
    rw [huffmanHashNbits] at hlong
    have hsize : size - 10 + 10 = size := by omega
    rw [← hsize, ← hrows]
    exact h _
  · intro h row
    rw [hrows]
    exact h _ (by rw [huffmanHashNbits]; omega)

end

/-! ## What the decoder needs -/

/-- The table answers for every code of a code table: short codes through the
fast table, long ones through their slow row and no earlier one. -/
structure HuffmanTable.Holds (t : HuffmanTable) (tbl : Table Nat) : Prop where
  /-- Codes have one to sixteen bits. -/
  length : ∀ {v c}, (v, c) ∈ tbl → 1 ≤ c.length ∧ c.length ≤ 16
  /-- A window that begins with a short code gives its symbol. -/
  fast : ∀ {v c w}, (v, c) ∈ tbl → c.length ≤ huffmanHashNbits → w.length = huffmanHashNbits →
    c <+: w → t.lookup (Bits.toNat w) = some v ∧ t.codeSize v = c.length
  /-- The window of a long code gives nothing. -/
  miss : ∀ {v c}, (v, c) ∈ tbl → huffmanHashNbits < c.length →
    t.lookup (Bits.toNat (c.take huffmanHashNbits)) = none
  /-- The row of a long code gives its symbol. -/
  slow : ∀ {v c}, (v, c) ∈ tbl → huffmanHashNbits < c.length →
    (t.slowtable (c.length - huffmanHashNbits - 1)).find? (fun p => p.1 = Bits.toNat c) =
      some (Bits.toNat c, v)
  /-- The rows before it give nothing. -/
  skip : ∀ {v c n}, (v, c) ∈ tbl → huffmanHashNbits < n → n < c.length →
    (t.slowtable (n - huffmanHashNbits - 1)).find? (fun p => p.1 = Bits.toNat (c.take n)) = none

/-- Entries the tables can represent: a prefix code of one to sixteen bits with
distinct symbols, in which no code kept in a slow row is zero. -/
structure GoodEntries (es : List OneHuff) : Prop where
  /-- Code sizes. -/
  size : ∀ e ∈ es, 1 ≤ e.codeSize ∧ e.codeSize ≤ 16
  /-- Every code fits its size. -/
  fits : ∀ e ∈ es, e.code < 2 ^ e.codeSize
  /-- The strings form a prefix code. -/
  prefixFree : PrefixFree (entryTable es)
  /-- The symbols are distinct. -/
  nodup : (es.map OneHuff.val).Nodup
  /-- A slow row ends at a zero. -/
  nonzero : ∀ e ∈ es, huffmanHashNbits < e.codeSize → e.code ≠ 0

namespace GoodEntries

theorem mem_entryTable {es : List OneHuff} {v : Nat} {c : List Bool} :
    (v, c) ∈ entryTable es ↔ ∃ e ∈ es, e.val = v ∧ e.bits = c := by
  simp [entryTable]

@[simp] theorem length_bits (e : OneHuff) : e.bits.length = e.codeSize := Bits.length_ofNat _ _

theorem toNat_bits {es : List OneHuff} (hg : GoodEntries es) {e : OneHuff} (he : e ∈ es) :
    Bits.toNat e.bits = e.code := Bits.toNat_ofNat_of_lt (hg.fits e he)

/-- An entry covers a window exactly when the window begins with its code. -/
theorem covers_iff {es : List OneHuff} (hg : GoodEntries es) {e : OneHuff} (he : e ∈ es)
    (hs : e.codeSize ≤ 9) {w : List Bool} (hw : w.length = 9) :
    e.Covers (Bits.toNat w) ↔ e.bits <+: w := by
  have hpos : 0 < 2 ^ (9 - e.codeSize) := by positivity
  have hquot : e.Covers (Bits.toNat w) ↔ Bits.toNat w / 2 ^ (9 - e.codeSize) = e.code := by
    rw [OneHuff.Covers, huffmanHashNbits, Nat.shiftLeft_eq]
    constructor
    · rintro ⟨h1, h2⟩
      exact Nat.div_eq_of_lt_le (by linarith) (by rw [Nat.succ_mul]; omega)
    · intro h
      have h1 := Nat.div_mul_le_self (Bits.toNat w) (2 ^ (9 - e.codeSize))
      have h2 := Nat.lt_div_mul_add (a := Bits.toNat w) hpos
      rw [h] at h1 h2
      exact ⟨h1, h2⟩
  have htake := Bits.toNat_take w e.codeSize
  rw [hw] at htake
  rw [hquot, ← htake, List.prefix_iff_eq_take, length_bits]
  constructor
  · intro h
    refine Bits.eq_of_toNat (by simp [hw, hs]) ?_
    rw [toNat_bits hg he, h]
  · intro h
    rw [← h, toNat_bits hg he]

/-- Two entries whose codes begin one input are the same. -/
theorem eq_of_prefix {es : List OneHuff} (hg : GoodEntries es) {e e' : OneHuff} (he : e ∈ es)
    (he' : e' ∈ es) {bits : List Bool} (h : e.bits <+: bits) (h' : e'.bits <+: bits) :
    e'.val = e.val ∧ e'.codeSize = e.codeSize := by
  have hm : (e.val, e.bits) ∈ entryTable es := mem_entryTable.mpr ⟨e, he, rfl, rfl⟩
  have hm' : (e'.val, e'.bits) ∈ entryTable es := mem_entryTable.mpr ⟨e', he', rfl, rfl⟩
  obtain ⟨hv, hb⟩ := code_unique hg.prefixFree hm' hm h' h
  exact ⟨hv, by simpa using congrArg List.length hb⟩

end GoodEntries

section
variable {es : List OneHuff} {t t' : HuffmanTable}

theorem GoodEntries.mod_code (hg : GoodEntries es) {e : OneHuff} (he : e ∈ es) :
    e.code % 65536 = e.code := by
  have hlt := hg.fits e he
  have hpow : 2 ^ e.codeSize ≤ 2 ^ 16 := Nat.pow_le_pow_right (by omega) (hg.size e he).2
  exact Nat.mod_eq_of_lt (by omega)

/-- A pair of a row is an entry of that size. -/
theorem GoodEntries.mem_slowRow (hg : GoodEntries es) {row : Nat} {p : Nat × Nat}
    (hp : p ∈ slowRow es row) : ∃ e ∈ es, e.codeSize = row + 10 ∧ e.code = p.1 ∧ e.val = p.2 := by
  simp only [slowRow, List.mem_map, List.mem_filter, decide_eq_true_eq] at hp
  obtain ⟨e, ⟨he, hsz, _⟩, rfl⟩ := hp
  exact ⟨e, he, hsz, (hg.mod_code he).symm, rfl⟩

theorem fillTable_slow (h : fillTable t.clear es = some t') {n : Nat} (hlo : 9 < n) (hhi : n ≤ 16) :
    t'.slowtable (n - huffmanHashNbits - 1) = slowRow es (n - 10) := by
  rw [show n - huffmanHashNbits - 1 = n - 10 by rw [huffmanHashNbits]; omega,
    fillTable_slowtable _ h]
  simp [HuffmanTable.clear, show n - 10 < 7 by omega]

/-- A symbol that occurs once has the code size of its entry. -/
theorem fillTable_size (hnodup : (es.map OneHuff.val).Nodup) (h : fillTable t es = some t')
    {e : OneHuff} (he : e ∈ es) : t'.codeSize e.val = e.codeSize := by
  rw [fillTable_codeSize _ h]
  cases hf : valEntry es e.val with
  | none =>
      have hno := List.find?_eq_none.mp hf e (List.mem_reverse.mpr he)
      simp at hno
  | some e' =>
      have he' := List.mem_reverse.mp (List.mem_of_find?_eq_some hf)
      have hp := List.find?_some hf
      simp only [decide_eq_true_eq] at hp
      rw [List.inj_on_of_nodup_map hnodup he' he hp]
      simp

/-- A window gives the symbol of a short entry that begins it. -/
theorem fillTable_window (hg : GoodEntries es) (h : fillTable t.clear es = some t') {w : List Bool}
    (hw : w.length = 9) {v : Nat} : t'.lookup (Bits.toNat w) = some v ↔
      ∃ e ∈ es, e.codeSize ≤ 9 ∧ e.bits <+: w ∧ e.val = v := by
  rw [fillTable_lookup _ h]
  cases hf : fastEntry es (Bits.toNat w) with
  | none =>
      have hno := List.find?_eq_none.mp hf
      refine ⟨fun hv => by simp [HuffmanTable.clear] at hv, ?_⟩
      rintro ⟨e, he, hs, hpre, -⟩
      have hcov := (hg.covers_iff he hs hw).mpr hpre
      exact absurd (hno e (List.mem_reverse.mpr he)) (by simp [hs, hcov])
  | some e' =>
      have he' := List.mem_reverse.mp (List.mem_of_find?_eq_some hf)
      have hp := List.find?_some hf
      simp only [decide_eq_true_eq] at hp
      have hpre' := (hg.covers_iff he' hp.1 hw).mp hp.2
      simp only [Option.map_some, Option.some_or, Option.some.injEq]
      refine ⟨fun hv => ⟨e', he', hp.1, hpre', hv⟩, ?_⟩
      rintro ⟨e, he, -, hpre, rfl⟩
      exact (hg.eq_of_prefix he he' hpre hpre').1

/-- A filled table answers for the code it was filled with. -/
theorem fillTable_holds (hg : GoodEntries es) (h : fillTable t.clear es = some t') :
    t'.Holds (entryTable es) := by
  refine ⟨?_, ?_, ?_, ?_, ?_⟩
  · intro v c hvc
    obtain ⟨e, he, rfl, rfl⟩ := GoodEntries.mem_entryTable.mp hvc
    simpa using hg.size e he
  · intro v c w hvc hlen hw hpre
    obtain ⟨e, he, rfl, rfl⟩ := GoodEntries.mem_entryTable.mp hvc
    rw [GoodEntries.length_bits] at hlen
    rw [GoodEntries.length_bits]
    exact ⟨(fillTable_window hg h hw).mpr ⟨e, he, hlen, hpre, rfl⟩, fillTable_size hg.nodup h he⟩
  · intro v c hvc hlen
    obtain ⟨e, he, rfl, rfl⟩ := GoodEntries.mem_entryTable.mp hvc
    rw [huffmanHashNbits] at hlen ⊢
    rw [GoodEntries.length_bits] at hlen
    cases hlook : t'.lookup (Bits.toNat (e.bits.take 9)) with
    | none => rfl
    | some v =>
        obtain ⟨e', he', hs, hpre, -⟩ := (fillTable_window hg h (by simp; omega)).mp hlook
        have hsame := (hg.eq_of_prefix he he' List.prefix_rfl
          (hpre.trans (List.take_prefix 9 e.bits))).2
        omega
  · intro v c hvc hlen
    obtain ⟨e, he, rfl, rfl⟩ := GoodEntries.mem_entryTable.mp hvc
    rw [GoodEntries.length_bits] at hlen ⊢
    have hsz := (hg.size e he).2
    rw [huffmanHashNbits] at hlen
    rw [fillTable_slow h hlen hsz, GoodEntries.toNat_bits hg he]
    have hin : (e.code, e.val) ∈ slowRow es (e.codeSize - 10) := by
      simp only [slowRow, List.mem_map, List.mem_filter, decide_eq_true_eq]
      refine ⟨e, ⟨he, by omega, ?_⟩, by rw [hg.mod_code he]⟩
      rw [hg.mod_code he]
      exact hg.nonzero e he hlen
    cases hf : (slowRow es (e.codeSize - 10)).find? (fun p => p.1 = e.code) with
    | none =>
        have hno := List.find?_eq_none.mp hf _ hin
        simp at hno
    | some p =>
        obtain ⟨e', he', hs', hc', hv'⟩ := hg.mem_slowRow (List.mem_of_find?_eq_some hf)
        have hp := List.find?_some hf
        simp only [decide_eq_true_eq] at hp
        have hbits : e'.bits = e.bits := by
          rw [OneHuff.bits, OneHuff.bits, hc', hp, show e'.codeSize = e.codeSize by omega]
        have hv := (hg.eq_of_prefix he he' List.prefix_rfl (hbits ▸ List.prefix_rfl)).1
        rw [← hv, hv', ← hp]
  · intro v c n hvc hn hnc
    obtain ⟨e, he, rfl, rfl⟩ := GoodEntries.mem_entryTable.mp hvc
    rw [GoodEntries.length_bits] at hnc
    rw [huffmanHashNbits] at hn
    have hsz := (hg.size e he).2
    rw [fillTable_slow h hn (by omega), List.find?_eq_none]
    intro p hp heq
    simp only [decide_eq_true_eq] at heq
    obtain ⟨e', he', hs', hc', -⟩ := hg.mem_slowRow hp
    have hlen' : (e.bits.take n).length = n := by simp; omega
    have hbits : e'.bits = e.bits.take n := by
      refine Bits.eq_of_toNat (by rw [hlen', GoodEntries.length_bits]; omega) ?_
      rw [GoodEntries.toNat_bits hg he', hc', heq]
    have hsame := (hg.eq_of_prefix he he' List.prefix_rfl (hbits ▸ List.take_prefix n e.bits)).2
    omega

/-- Whatever a table answers with comes from a code table. -/
structure HuffmanTable.Sound (t : HuffmanTable) (tbl : Table Nat) : Prop where
  /-- A symbol of the fast table, with its code size. -/
  fast : ∀ {w v}, w.length = huffmanHashNbits → t.lookup (Bits.toNat w) = some v →
    ∃ c, (v, c) ∈ tbl ∧ c <+: w ∧ t.codeSize v = c.length
  /-- A pair of a slow row. -/
  slow : ∀ {n p}, huffmanHashNbits < n → n ≤ 16 → p ∈ t.slowtable (n - huffmanHashNbits - 1) →
    ∃ c, (p.2, c) ∈ tbl ∧ c.length = n ∧ Bits.toNat c = p.1

theorem fillTable_sound (hg : GoodEntries es) (h : fillTable t.clear es = some t') :
    t'.Sound (entryTable es) := by
  refine ⟨?_, ?_⟩
  · intro w v hw hv
    obtain ⟨e, he, hs, hpre, rfl⟩ := (fillTable_window hg h hw).mp hv
    refine ⟨e.bits, GoodEntries.mem_entryTable.mpr ⟨e, he, rfl, rfl⟩, hpre, ?_⟩
    rw [fillTable_size hg.nodup h he, GoodEntries.length_bits]
  · intro n p hlo hhi hp
    rw [huffmanHashNbits] at hlo
    rw [fillTable_slow h hlo hhi] at hp
    obtain ⟨e, he, hs, hc, hv⟩ := hg.mem_slowRow hp
    refine ⟨e.bits, GoodEntries.mem_entryTable.mpr ⟨e, he, hv, rfl⟩, ?_, ?_⟩
    · rw [GoodEntries.length_bits]
      omega
    · rw [hg.toNat_bits he, hc]

end

/-! ## Any input -/

/-- A symbol the decoder can come back with: one of the table, or 0 for a code
that is in no row. -/
def HuffmanTable.Value (t : HuffmanTable) (v : Nat) : Prop :=
  v = 0 ∨ (∃ i, t.lookup i = some v) ∨ ∃ row < 7, ∃ p ∈ t.slowtable row, p.2 = v

/-- The code sizes of the symbols of the fast table are those of short codes. -/
def HuffmanTable.Safe (t : HuffmanTable) : Prop :=
  ∀ i v, t.lookup i = some v → 1 ≤ t.codeSize v ∧ t.codeSize v ≤ huffmanHashNbits

theorem lookup_mem {es : List OneHuff} {t t' : HuffmanTable} (h : fillTable t.clear es = some t')
    {i v : Nat} (hv : t'.lookup i = some v) : ∃ e ∈ es, e.codeSize ≤ 9 ∧ e.val = v := by
  rw [fillTable_lookup i h] at hv
  cases hf : fastEntry es i with
  | none => simp [hf, HuffmanTable.clear] at hv
  | some e =>
      have hmem := List.mem_reverse.mp (List.mem_of_find?_eq_some hf)
      have hp := List.find?_some hf
      simp only [decide_eq_true_eq] at hp
      simp only [hf, Option.map_some, Option.some_or, Option.some.injEq] at hv
      exact ⟨e, hmem, hp.1, hv⟩

/-- The decoder comes back with symbols of the entries, or with 0. -/
theorem fillTable_value {es : List OneHuff} {t t' : HuffmanTable}
    (h : fillTable t.clear es = some t') {v : Nat} (hv : t'.Value v) :
    v = 0 ∨ v ∈ es.map OneHuff.val := by
  rcases hv with h0 | ⟨i, hi⟩ | ⟨row, hrow, p, hp, rfl⟩
  · exact Or.inl h0
  · obtain ⟨e, he, _, rfl⟩ := lookup_mem h hi
    exact Or.inr (List.mem_map_of_mem he)
  · rw [fillTable_slowtable row h] at hp
    simp only [HuffmanTable.clear, hrow, if_true, List.nil_append, slowRow, List.mem_map,
      List.mem_filter] at hp
    obtain ⟨e, ⟨he, _⟩, rfl⟩ := hp
    exact Or.inr (List.mem_map_of_mem he)

/-! ## Tables of prefix codes -/

/-- Counts of sixteen code sizes and as many distinct bytes. -/
structure ByteTable (bits vals : List Nat) : Prop where
  /-- There are sixteen code sizes. -/
  sizes : bits.length = 16
  /-- Every code has a symbol. -/
  count : vals.length = bits.sum
  /-- Symbols are bytes. -/
  byte : ∀ v ∈ vals, v < 256
  /-- Symbols are distinct. -/
  nodup : vals.Nodup

/-- A filled table of distinct symbols is safe, whatever their codes are, and answers with
them or with 0. -/
theorem ByteTable.safe {bits vals : List Nat} (h : ByteTable bits vals) {old t : HuffmanTable}
    (hbuild : buildHuffmanTable bits vals old = some t) :
    t.Safe ∧ ∀ v, t.Value v → v = 0 ∨ v ∈ vals := by
  have hfill := fillTable_of_build hbuild
  have hvals := map_val_huffEntries h.count
  have hnodup : ((huffEntries bits vals).map OneHuff.val).Nodup := hvals.symm ▸ h.nodup
  refine ⟨fun i v hv => ?_, fun v hv => hvals ▸ fillTable_value hfill hv⟩
  obtain ⟨e, he, hs, rfl⟩ := lookup_mem hfill hv
  rw [fillTable_size hnodup hfill he]
  exact ⟨(huffEntries_size he).1, hs⟩

/-- Distinct bytes are at most 256. -/
theorem ByteTable.sum_le {bits vals : List Nat} (h : ByteTable bits vals) : bits.sum ≤ 256 := by
  have hsub : vals ⊆ List.range 256 := fun v hv => List.mem_range.mpr (h.byte v hv)
  have hle := (List.subperm_of_subset h.nodup hsub).length_le
  rwa [List.length_range, h.count] at hle

/-- A Huffman table of a prefix code. -/
structure PrefixTable (bits vals : List Nat) : Prop extends ByteTable bits vals where
  /-- Every code fits its size. -/
  fits : Fits (lengthsOf bits)

namespace PrefixTable

variable {bits vals : List Nat}

theorem prefixFree (h : PrefixTable bits vals) : PrefixFree (table bits vals) :=
  table_prefixFree h.fits vals

theorem built_iff (h : PrefixTable bits vals) (old : HuffmanTable) :
    (∃ t, buildHuffmanTable bits vals old = some t) ↔ RowsHold bits :=
  buildHuffmanTable_iff h.sizes h.count h.sum_le h.fits old

/-- Entries without a long code of zero can be represented. -/
theorem good (h : PrefixTable bits vals) {es : List OneHuff} (hes : es.Sublist (huffEntries bits vals))
    (hzero : ∀ e ∈ es, huffmanHashNbits < e.codeSize → e.code ≠ 0) : GoodEntries es where
  size e he := h.sizes ▸ huffEntries_size (hes.subset he)
  fits e he := h.fits _ (mem_codes_huffEntries (hes.subset he))
  prefixFree := by
    have hpf := h.prefixFree
    rw [← entryTable_huffEntries] at hpf
    exact hpf.sublist (hes.map _)
  nodup := ((map_val_huffEntries h.count).symm ▸ h.nodup).sublist (hes.map _)
  nonzero := hzero

/-- Filling a table with a long code of zero leaves its row as it was. -/
theorem stored_entries (h : PrefixTable bits vals) {old t : HuffmanTable}
    (hbuild : buildHuffmanTable bits vals old = some t) :
    ∃ (es : List OneHuff) (old' : HuffmanTable), fillTable old'.clear es = some t ∧
      es.Sublist (huffEntries bits vals) ∧
      ∀ e ∈ huffEntries bits vals, e ∈ es ↔ (huffmanHashNbits < e.codeSize → e.code ≠ 0) := by
  have hfill := fillTable_of_build hbuild
  by_cases hz : ∀ e ∈ huffEntries bits vals, huffmanHashNbits < e.codeSize → e.code ≠ 0
  · exact ⟨_, old, hfill, List.Sublist.refl _, fun e he => ⟨fun _ => hz e he, fun _ => he⟩⟩
  · -- only the first entry can be zero
    push Not at hz
    obtain ⟨e, he, hlong, h0⟩ := hz
    obtain ⟨pre, es, hes⟩ := List.append_of_mem he
    obtain rfl := huffEntries_zero h.count hes h0
    rw [List.nil_append] at hes
    rw [hes] at hfill ⊢
    obtain ⟨t₁, hone, hrest⟩ := fillTable_cons hfill
    have ht₁ : t₁ = HuffmanTable.clear
        { old with codeSize := Function.update old.codeSize e.val e.codeSize } := by
      rw [huffmanHashNbits] at hlong
      rcases insertEntry_cases hone with ⟨hs, _, rfl⟩ | ⟨_, _, rfl⟩
      · omega
      · rw [h0, Nat.zero_mod, if_pos rfl, Function.update_eq_self]
        rfl
    refine ⟨es, _, ht₁ ▸ hrest, List.sublist_cons_self e es, fun e' he' => ?_⟩
    have hnot : e ∉ es := by
      have hnodup := map_val_huffEntries h.count ▸ h.nodup
      rw [hes, List.map_cons, List.nodup_cons] at hnodup
      exact fun hmem => hnodup.1 (List.mem_map_of_mem hmem)
    cases List.mem_cons.mp he' with
    | inl heq =>
        subst heq
        exact ⟨fun hmem => absurd hmem hnot, fun hne => absurd h0 (hne hlong)⟩
    | inr hmem =>
        refine ⟨fun _ _ h0' => ?_, fun _ => hmem⟩
        obtain ⟨pre, post, rfl⟩ := List.append_of_mem hmem
        have hnil : e :: pre = [] := huffEntries_zero h.count hes h0'
        cases hnil

/-- A filled table holds all codes but a long one that is zero. -/
theorem exists_stored (h : PrefixTable bits vals) {old t : HuffmanTable}
    (hbuild : buildHuffmanTable bits vals old = some t) :
    ∃ tbl : Table Nat, t.Holds tbl ∧ t.Sound tbl ∧ ∀ {v c}, (v, c) ∈ tbl ↔
      (v, c) ∈ table bits vals ∧ (huffmanHashNbits < c.length → Bits.toNat c ≠ 0) := by
  obtain ⟨es, old', hfill, hsub, hmem⟩ := h.stored_entries hbuild
  have hg := h.good hsub fun e he => (hmem e (hsub.subset he)).mp he
  refine ⟨entryTable es, fillTable_holds hg hfill, fillTable_sound hg hfill, fun {v c} => ?_⟩
  have hcode : ∀ e ∈ huffEntries bits vals, Bits.toNat e.bits = e.code := fun e he =>
    Bits.toNat_ofNat_of_lt (h.fits _ (mem_codes_huffEntries he))
  rw [← entryTable_huffEntries, GoodEntries.mem_entryTable, GoodEntries.mem_entryTable]
  constructor
  · rintro ⟨e, he, rfl, rfl⟩
    have hin := hsub.subset he
    refine ⟨⟨e, hin, rfl, rfl⟩, ?_⟩
    rw [GoodEntries.length_bits, hcode e hin]
    exact (hmem e hin).mp he
  · rintro ⟨⟨e, he, rfl, rfl⟩, hkept⟩
    rw [GoodEntries.length_bits, hcode e he] at hkept
    exact ⟨e, (hmem e he).mpr hkept, rfl, rfl⟩

end PrefixTable

end Recode
