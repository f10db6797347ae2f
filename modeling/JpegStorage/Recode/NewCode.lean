import JpegStorage.Recode.CodeString
import JpegStorage.Recode.DataUnit
import Mathlib.Data.List.GetD
import Mathlib.Data.List.Perm.Basic

/-!
# The new codes

After the first pass the used symbols of each table are ranked by their counts
and get the codes of a fixed quota: `one_size_max` says how many codes there
are of each size, and `cal_new_huffman` numbers them.

`calNewHuffman_eq` says that the strings are the canonical codes of the quota,
as long as none needs padding, which for the quota of the source none does.
`buildTree_spec` collects what the encoder relies on: every used symbol has a
code, and the codes are those a decoder rebuilds from the counts and the symbols.
-/

namespace Recode

open Canonical Baseline

/-! ## The histogram -/

/-- `huff_val`: the counts of the symbols of the four tables, as they would be
without a bound. -/
abbrev HuffVal := Nat → Nat → Nat

/-- A count as the `int` it is kept in. -/
def countCell (n : Nat) : Int := (n : Int).bmod (2 ^ 32)

/-- A count as the `unsigned long` it is kept in in `recodejpg`, and the `long long`
that is taken from it. -/
def longCell (n : Nat) : Int := (n : Int).bmod (2 ^ 64)

/-- `one_hufftype`. -/
structure OneHufftype where
  /-- `val`. -/
  val : List Nat
  /-- `num`. -/
  num : List Int
  /-- `code`; `none` is a pointer that was not set. -/
  code : List (Option (List Char))
  /-- `count`. -/
  count : Nat
deriving DecidableEq, Repr

/-- A table before anything is stored in it.  `huff_val_useful` comes from `malloc`, and its new
memory is taken to be zero, as the initialisers of `one_hufftype` say.  It matters for the
`count` of a table without symbols only. -/
def OneHufftype.empty : OneHufftype :=
  ⟨List.replicate 256 0, List.replicate 256 0, List.replicate 256 none, 0⟩

/-- The loop of `build_huff_val_useful` for one table; `a` is the next free place. -/
def collect (cell : Nat → Int) : List Nat → Nat → OneHufftype → OneHufftype
  | [], _, t => t
  | i :: is, a, t =>
      if cell i ≠ 0 then
        collect cell is (a + 1)
          { t with val := t.val.set a i, num := t.num.set a (cell i), count := a + 1 }
      else collect cell is a t

/-- The loop over all symbols. -/
def collectAll (cell : Nat → Int) : OneHufftype := collect cell (List.range 256) 0 .empty

/-- `HUFF_VAL_USEFUL`. -/
structure HuffValUseful where
  /-- `DC0`. -/
  dc0 : OneHufftype
  /-- `DC1`. -/
  dc1 : OneHufftype
  /-- `AC0`. -/
  ac0 : OneHufftype
  /-- `AC1`. -/
  ac1 : OneHufftype
deriving DecidableEq, Repr

/-- The table of a type number. -/
def HuffValUseful.table (u : HuffValUseful) : Nat → OneHufftype
  | 0 => u.dc0
  | 1 => u.dc1
  | 2 => u.ac0
  | _ => u.ac1

/-- The used symbols of the four tables. -/
def collectTables (cell : Nat → Nat → Int) : HuffValUseful where
  dc0 := collectAll (cell 0)
  dc1 := collectAll (cell 1)
  ac0 := collectAll (cell 2)
  ac1 := collectAll (cell 3)

/-- `build_huff_val_useful`. -/
def buildHuffValUseful (v : HuffVal) : HuffValUseful :=
  collectTables fun type i => countCell (v type i)

/-- `build_huff_val_useful` of `recodejpg`. -/
def buildHuffValUsefulLong (v : HuffVal) : HuffValUseful :=
  collectTables fun type i => longCell (v type i)

/-! ## Ranking -/

/-- An integer converted to a `float` and back: rounded to 24 bits, ties to even. -/
def float32 (n : Int) : Int :=
  let shift := n.natAbs.log2 - 23
  let low := n.natAbs % 2 ^ shift
  let high := n.natAbs / 2 ^ shift
  let up := 2 ^ shift < 2 * low ∨ (2 ^ shift = 2 * low ∧ high % 2 = 1)
  n.sign * ((high + if up then 1 else 0 : Nat) * 2 ^ shift : Nat)

/-- The inner loop of `BubbleSort`, on the pairs of `p` and `index`.  The smaller
number goes through a `float`. -/
def bubblePass : Nat → List (Int × Nat) → List (Int × Nat)
  | n + 1, a :: b :: l =>
      if a.1 < b.1 then b :: bubblePass n ((float32 a.1, a.2) :: l) else a :: bubblePass n (b :: l)
  | _, l => l

/-- `BubbleSort`: the sorted numbers and `index`. -/
def bubbleSort (p : List Int) : List Int × List Nat :=
  ((List.range p.length).foldl (fun l i => bubblePass (p.length - i - 1) l)
    (p.zip (List.range p.length))).unzip

/-- `move_array`. -/
def moveArray (arr index : List Nat) : List Nat := index.map fun k => arr.getD k 0

/-! ## Numbering -/

/-- A character buffer. -/
abbrev CharBuf := Nat → Char

/-- `strcpy`. -/
def strcpy (str : List Char) (buf : CharBuf) : CharBuf := fun j =>
  if h : j < str.length then str[j] else if j = str.length then Char.ofNat 0 else buf j

/-- The string in a buffer of 32 characters, the size `recodejpg` gives it.  The strings that leave
the 16 bytes of the other program are in `CodeBuffers`. -/
def bufString (buf : CharBuf) : List Char :=
  ((List.range 32).map buf).takeWhile (· ≠ Char.ofNat 0)

/-- The two loops that put zeros in front.  They run downwards, so the first one
moves each character once. -/
def padZeros (size tempLen : Nat) (buf : CharBuf) : CharBuf := fun j =>
  if j < size - tempLen then '0' else if j ≤ tempLen then buf (j - 1) else buf j

/-- `one_size_max`: how many codes there are of each size. -/
def oneSizeMax : List Nat := [0, 1, 0, 1, 3, 3, 2, 4, 7, 0, 0, 0, 0, 0, 0, 0, 256]

/-- The loop of `cal_new_huffman`, with the number of strings still to be made.
A round makes a string or goes on to the next size.  `none` is a size past the
end of the quota. -/
def calLoop (quota : List Nat) : Nat → Nat → Nat → Nat → Nat → CharBuf →
    Option (List (List Char) × CharBuf)
  | _, 0, _, _, _, buf => some ([], buf)
  | 0, _ + 1, _, _, _, _ => none
  | fuel + 1, todo + 1, size, sizeNum, huffcode, buf =>
      match quota[size]? with
      | none => none
      | some max =>
          if sizeNum < max then
            let huffcode := if sizeNum ≠ 0 then huffcode + 1 else huffcode
            let buf := strcpy (tobin huffcode) buf
            let tempLen := (bufString buf).length
            let buf := if tempLen < size then padZeros size tempLen buf else buf
            match calLoop quota fuel todo size (sizeNum + 1) huffcode buf with
            | none => none
            | some (arr, buf') => some (bufString buf :: arr, buf')
          else
            let huffcode := if max ≠ 0 then huffcode + 1 else huffcode
            calLoop quota fuel (todo + 1) (size + 1) 0 (huffcode * 2) buf

/-- `cal_new_huffman`.  Every round makes a string or takes one of the sizes.  The strings are
lists, so none is too long for its place here. -/
def calNewHuffman (quota : List Nat) (length : Nat) (buf : CharBuf) :
    Option (List (List Char) × CharBuf) :=
  match calLoop quota (length + quota.length) length 1 0 0 (strcpy [] buf) with
  | none => none
  | some (arr, buf) => some (arr, strcpy [] buf)

/-! ## The trees -/

/-- The common part of the four functions that build a tree. -/
def buildTree (t : OneHufftype) (buf : CharBuf) : Except Stop (OneHufftype × CharBuf) :=
  let (num, index) := bubbleSort (t.num.take t.count)
  match calNewHuffman oneSizeMax t.count buf with
  | none => .error .undefined
  | some (code, buf) =>
      .ok ({ t with num := num ++ t.num.drop t.count,
                    val := moveArray t.val index ++ t.val.drop t.count,
                    code := code.map some ++ t.code.drop t.count }, buf)

/-- `build_DC0_tree`. -/
def buildDC0Tree (u : HuffValUseful) (buf : CharBuf) : Except Stop (HuffValUseful × CharBuf) := do
  let (t, buf) ← buildTree u.dc0 buf
  pure ({ u with dc0 := t }, buf)

/-- `build_DC1_tree`. -/
def buildDC1Tree (u : HuffValUseful) (buf : CharBuf) : Except Stop (HuffValUseful × CharBuf) := do
  let (t, buf) ← buildTree u.dc1 buf
  pure ({ u with dc1 := t }, buf)

/-- `build_AC0_tree`. -/
def buildAC0Tree (u : HuffValUseful) (buf : CharBuf) : Except Stop (HuffValUseful × CharBuf) := do
  let (t, buf) ← buildTree u.ac0 buf
  pure ({ u with ac0 := t }, buf)

/-- `build_AC1_tree`, which also gives up on a code of more than sixteen bits. -/
def buildAC1Tree (u : HuffValUseful) (buf : CharBuf) : Except Stop (HuffValUseful × CharBuf) := do
  let (t, buf) ← buildTree u.ac1 buf
  if (t.code.take t.count).any (fun c => 16 < (c.getD []).length) then throw .exit
  pure ({ u with ac1 := t }, buf)

/-- The four calls of `main`. -/
def buildTrees (u : HuffValUseful) (buf : CharBuf) : Except Stop (HuffValUseful × CharBuf) := do
  let (u, buf) ← buildDC0Tree u buf
  let (u, buf) ← buildDC1Tree u buf
  let (u, buf) ← buildAC0Tree u buf
  buildAC1Tree u buf

/-- `Find_New_code`.  It searches all 256 places. -/
def findNewCode (u : HuffValUseful) (val type : Nat) : Except Stop (List Char) :=
  match ((u.table type).val.zip (u.table type).code).find? (fun p => p.1 = val) with
  | none => .error .exit
  | some (_, none) => .error .undefined
  | some (_, some code) => .ok code

/-! ## The numbering is canonical -/

/-- A code that `tobin` prints with all its bits. -/
def Printable (e : Nat × Nat) : Prop :=
  e.2 ≤ 19 ∧ e.1 < 2 ^ e.2 ∧ (e.2 = 1 ∨ 0 < e.2 ∧ 2 ^ (e.2 - 1) ≤ e.1)

instance (e : Nat × Nat) : Decidable (Printable e) := inferInstanceAs (Decidable (_ ∧ _))

/-- The string of a code. -/
def codeString (e : Nat × Nat) : List Char := (codeBits e).map bitChar

@[simp] theorem length_codeString (e : Nat × Nat) : (codeString e).length = e.2 := by
  rw [codeString, List.length_map, length_codeBits]

theorem tobin_printable {e : Nat × Nat} (h : Printable e) : tobin e.1 = codeString e := by
  obtain ⟨h19, hlt, hlo⟩ := h
  refine tobin_ofNat ?_ h19 hlt ?_ <;> rcases hlo with h | ⟨h, h'⟩ <;> omega

theorem bitChar_ne_zero (b : Bool) : bitChar b ≠ Char.ofNat 0 := by
  cases b <;> decide

theorem bufString_strcpy {str : List Char} (buf : CharBuf) (hlen : str.length < 32)
    (hne : ∀ c ∈ str, c ≠ Char.ofNat 0) : bufString (strcpy str buf) = str := by
  have hsplit : 32 = str.length + (1 + (31 - str.length)) := by omega
  have hfront : (List.range str.length).map (strcpy str buf) = str := by
    refine List.ext_getElem (by simp) fun i h1 h2 => ?_
    rw [List.getElem_map, List.getElem_range, strcpy, dif_pos h2]
  have hend : strcpy str buf (str.length + 0) = Char.ofNat 0 := by
    rw [Nat.add_zero, strcpy, dif_neg (Nat.lt_irrefl _), if_pos rfl]
  rw [bufString, hsplit, List.range_add, List.map_append, hfront,
    List.takeWhile_append_of_pos (by simpa using hne), List.range_add, List.map_append,
    List.map_append, List.range_one, List.map_singleton, List.map_singleton, hend]
  simp

theorem bufString_codeString {e : Nat × Nat} (he : Printable e) (buf : CharBuf) :
    bufString (strcpy (codeString e) buf) = codeString e := by
  refine bufString_strcpy buf ?_ fun c hc => ?_
  · rw [length_codeString]
    have := he.1
    omega
  · obtain ⟨b, _, rfl⟩ := List.mem_map.mp hc
    exact bitChar_ne_zero b

/-- The codes still to come when `sizeNum` of the size are made and `next` is the
next free number. -/
def remaining (quota : List Nat) (size sizeNum next : Nat) : List (Nat × Nat) :=
  assign next size
    (List.replicate (quota.getD size 0 - sizeNum) size ++
      lengthsFrom (size + 1) (quota.drop (size + 1)))

theorem remaining_more {quota : List Nat} {size sizeNum next : Nat}
    (h : sizeNum < quota.getD size 0) :
    remaining quota size sizeNum next =
      (next, size) :: remaining quota size (sizeNum + 1) (next + 1) := by
  have hrep : quota.getD size 0 - sizeNum = (quota.getD size 0 - (sizeNum + 1)) + 1 := by omega
  rw [remaining, remaining, hrep, List.replicate_succ, List.cons_append, assign, Nat.sub_self,
    Nat.shiftLeft_zero]

theorem remaining_next {quota : List Nat} {size sizeNum : Nat} (next : Nat)
    (h : quota.getD size 0 ≤ sizeNum) :
    remaining quota size sizeNum next = remaining quota (size + 1) 0 (next * 2) := by
  have hlengths : lengthsFrom (size + 1) (quota.drop (size + 1)) =
      List.replicate (quota.getD (size + 1) 0) (size + 1) ++
        lengthsFrom (size + 1 + 1) (quota.drop (size + 1 + 1)) := by
    by_cases hin : size + 1 < quota.length
    · rw [List.drop_eq_getElem_cons hin, lengthsFrom, List.getD_eq_getElem _ _ hin]
    · rw [List.drop_eq_nil_of_le (by omega), List.drop_eq_nil_of_le (by omega),
        List.getD_eq_default _ _ (by omega)]
      rfl
  rw [remaining, remaining, Nat.sub_eq_zero_of_le h, List.replicate_zero, List.nil_append,
    Nat.sub_zero, ← hlengths]
  exact assign_next fun l hl => (mem_lengthsFrom hl).1

theorem remaining_end {quota : List Nat} {size sizeNum next : Nat} (h : quota.length ≤ size) :
    remaining quota size sizeNum next = [] := by
  rw [remaining, List.getD_eq_default _ _ h, List.drop_eq_nil_of_le (by omega), Nat.zero_sub]
  rfl

theorem codes_eq_remaining (quota : List Nat) :
    codes (lengthsOf (quota.drop 1)) = remaining quota 1 0 0 := by
  have hzero : (0 :: quota.drop 1).getD 0 0 ≤ 0 := Nat.le_refl 0
  have hnext := remaining_next 0 hzero
  have htail : remaining (0 :: quota.drop 1) 1 0 0 = remaining quota 1 0 0 := by
    cases quota with
    | nil => rfl
    | cons q quota => rfl
  rw [← htail, ← hnext]
  simp [remaining, codes, lengthsOf]

/-- The rounds of `cal_new_huffman` that make these codes. -/
inductive Rounds (quota : List Nat) :
    Nat → Nat → Nat → Nat → Nat → List (Nat × Nat) → Prop where
  | done {fuel size sizeNum code : Nat} : Rounds quota fuel 0 size sizeNum code []
  /-- The next code of the size. -/
  | make {fuel todo size sizeNum code next max : Nat} {es : List (Nat × Nat)}
      (hq : quota[size]? = some max) (hlt : sizeNum < max)
      (hnext : (if sizeNum ≠ 0 then code + 1 else code) = next) (hprint : Printable (next, size))
      (rest : Rounds quota fuel todo size (sizeNum + 1) next es) :
      Rounds quota (fuel + 1) (todo + 1) size sizeNum code ((next, size) :: es)
  /-- On to the next size. -/
  | grow {fuel todo size sizeNum code max : Nat} {es : List (Nat × Nat)}
      (hq : quota[size]? = some max) (hge : ¬ sizeNum < max)
      (rest : Rounds quota fuel (todo + 1) (size + 1) 0
        ((if max ≠ 0 then code + 1 else code) * 2) es) :
      Rounds quota (fuel + 1) (todo + 1) size sizeNum code es

/-- The rounds make the codes still to come. -/
theorem remaining_rounds {quota : List Nat} : ∀ (fuel todo size sizeNum code next : Nat),
    sizeNum ≤ quota.getD size 0 → (if sizeNum ≠ 0 then code + 1 else code) = next →
    todo ≤ (remaining quota size sizeNum next).length → todo + (quota.length - size) ≤ fuel →
    (∀ e ∈ (remaining quota size sizeNum next).take todo, Printable e) →
    Rounds quota fuel todo size sizeNum code ((remaining quota size sizeNum next).take todo)
  | fuel, 0, _, _, _, _, _, _, _, _, _ => .done
  | fuel, todo + 1, size, sizeNum, code, next, hle, hnext, htodo, hfuel, hprint => by
      have hin : size < quota.length := by
        by_contra hout
        rw [remaining_end (Nat.le_of_not_lt hout)] at htodo
        simp at htodo
      obtain ⟨fuel, rfl⟩ : ∃ f, fuel = f + 1 := ⟨fuel - 1, by omega⟩
      have hq : quota[size]? = some (quota.getD size 0) := by
        rw [List.getD_eq_getElem _ _ hin, List.getElem?_eq_getElem hin]
      by_cases hlt : sizeNum < quota.getD size 0
      · rw [remaining_more hlt] at htodo hprint ⊢
        rw [List.take_succ_cons] at hprint ⊢
        refine .make hq hlt hnext (hprint _ (List.mem_cons_self ..)) ?_
        exact remaining_rounds fuel todo size (sizeNum + 1) next (next + 1) (by omega) (by simp)
          (by simpa using htodo) (by omega) (fun e he => hprint e (List.mem_cons_of_mem _ he))
      · rw [remaining_next next (by omega)] at htodo hprint ⊢
        have hcode : (if quota.getD size 0 ≠ 0 then code + 1 else code) = next := by
          rw [← hnext, show sizeNum = quota.getD size 0 by omega]
        refine .grow hq hlt ?_
        rw [hcode]
        exact remaining_rounds fuel (todo + 1) (size + 1) 0 (next * 2) (next * 2) (by omega)
          (by simp) htodo (by omega) hprint
termination_by fuel => fuel

/-- The rounds for the first codes of a quota. -/
theorem codes_rounds {quota : List Nat} {n : Nat}
    (hn : n ≤ (codes (lengthsOf (quota.drop 1))).length)
    (hprint : ∀ e ∈ (codes (lengthsOf (quota.drop 1))).take n, Printable e) :
    Rounds quota (n + quota.length) n 1 0 0 ((codes (lengthsOf (quota.drop 1))).take n) := by
  rw [codes_eq_remaining] at hn hprint ⊢
  exact remaining_rounds _ n 1 0 0 0 (Nat.zero_le _) (by simp) hn (by omega) hprint

/-- The loop gives the strings of the codes. -/
theorem Rounds.calLoop_eq {quota : List Nat} {fuel todo size sizeNum code : Nat}
    {es : List (Nat × Nat)} (h : Rounds quota fuel todo size sizeNum code es) : ∀ buf : CharBuf,
    ∃ buf', calLoop quota fuel todo size sizeNum code buf = some (es.map codeString, buf') := by
  induction h with
  | done => exact fun buf => ⟨buf, by simp [calLoop]⟩
  | @make _ _ size _ _ next _ _ hq hlt hnext hprint _ ih =>
      intro buf
      obtain ⟨buf', hrest⟩ := ih (strcpy (codeString (next, size)) buf)
      have hfull : ¬ (codeString (next, size)).length < size := by
        rw [length_codeString]
        exact Nat.lt_irrefl _
      refine ⟨buf', ?_⟩
      rw [calLoop, hq]
      simp only [hlt, if_true, hnext, tobin_printable hprint, bufString_codeString hprint, hfull,
        if_false, hrest, List.map_cons]
  | grow hq hge _ ih =>
      intro buf
      obtain ⟨buf', hrest⟩ := ih buf
      refine ⟨buf', ?_⟩
      rw [calLoop, hq]
      simp only [hge, if_false, hrest]

/-- `cal_new_huffman` makes the first canonical codes of the quota. -/
theorem calNewHuffman_eq {quota : List Nat} {n : Nat} (buf : CharBuf)
    (hn : n ≤ (codes (lengthsOf (quota.drop 1))).length)
    (hprint : ∀ e ∈ (codes (lengthsOf (quota.drop 1))).take n, Printable e) :
    ∃ buf', calNewHuffman quota n buf =
      some (((codes (lengthsOf (quota.drop 1))).take n).map codeString, buf') := by
  obtain ⟨buf', hloop⟩ := (codes_rounds hn hprint).calLoop_eq (strcpy [] buf)
  exact ⟨strcpy [] buf', by rw [calNewHuffman, hloop]⟩

/-! ## The quota of the source -/

/-- The codes `one_size_max` provides for. -/
def quotaCodes : List (Nat × Nat) := codes (lengthsOf (oneSizeMax.drop 1))

theorem quotaCodes_printable : ∀ e ∈ quotaCodes, Printable e := by decide +kernel

theorem quotaCodes_fits : Fits (lengthsOf (oneSizeMax.drop 1)) := by decide +kernel

theorem quotaCodes_length : quotaCodes.length = 277 := by decide +kernel

/-- There are codes for all 256 symbols. -/
theorem calNewHuffman_quota {n : Nat} (hn : n ≤ 256) (buf : CharBuf) :
    ∃ buf', calNewHuffman oneSizeMax n buf = some ((quotaCodes.take n).map codeString, buf') := by
  refine calNewHuffman_eq buf ?_ fun e he => quotaCodes_printable e (List.mem_of_mem_take he)
  exact Nat.le_trans hn (quotaCodes_length.symm ▸ by decide)

/-! ## Ranking permutes -/

theorem bubblePass_perm : ∀ (n : Nat) (l : List (Int × Nat)),
    ((bubblePass n l).map Prod.snd).Perm (l.map Prod.snd)
  | 0, l => by simp [bubblePass]
  | _ + 1, [] => by simp [bubblePass]
  | _ + 1, [a] => by simp [bubblePass]
  | n + 1, a :: b :: l => by
      rw [bubblePass]
      split
      · have ih := bubblePass_perm n ((float32 a.1, a.2) :: l)
        rw [List.map_cons] at ih
        rw [List.map_cons, List.map_cons, List.map_cons]
        exact (ih.cons b.2).trans (List.Perm.swap ..)
      · have ih := bubblePass_perm n (b :: l)
        rw [List.map_cons, List.map_cons]
        exact ih.cons a.2

theorem bubbleSort_perm (p : List Int) : (bubbleSort p).2.Perm (List.range p.length) := by
  have hfold : ∀ (is : List Nat) (l : List (Int × Nat)),
      ((is.foldl (fun l i => bubblePass (p.length - i - 1) l) l).map Prod.snd).Perm
        (l.map Prod.snd) := by
    intro is
    induction is with
    | nil => exact fun l => .refl _
    | cons i is ih =>
        intro l
        exact (ih _).trans (bubblePass_perm _ l)
  have h := hfold (List.range p.length) (p.zip (List.range p.length))
  rw [List.map_snd_zip (by simp)] at h
  rw [bubbleSort, List.unzip_snd]
  exact h

theorem moveArray_perm (arr : List Nat) {index : List Nat} {n : Nat} (hn : n ≤ arr.length)
    (h : index.Perm (List.range n)) : (moveArray arr index).Perm (arr.take n) := by
  have hmap : (List.range n).map (fun k => arr.getD k 0) = arr.take n := by
    refine List.ext_getElem (by simp; omega) fun i h1 h2 => ?_
    rw [List.length_map, List.length_range] at h1
    rw [List.getElem_map, List.getElem_range, List.getElem_take,
      List.getD_eq_getElem _ _ (by omega)]
  rw [← hmap]
  exact h.map _

/-! ## A table after both steps -/

/-- A count below 2^31 reads as itself. -/
theorem countCell_ne_zero {n : Nat} (h : 1 ≤ n) (hlt : n < 2 ^ 31) : countCell n ≠ 0 := by
  have hlo : -((2 ^ 32 : Nat) : Int) ≤ (n : Int) * 2 := by omega
  have hhi : (n : Int) * 2 < ((2 ^ 32 : Nat) : Int) := by omega
  have hcell := Int.bmod_eq_of_le_mul_two hlo hhi
  unfold countCell
  intro h0
  have := hcell.symm.trans h0
  omega

/-- The symbols a histogram shows. -/
def usedSymbols (cell : Nat → Int) (is : List Nat) : List Nat := is.filter fun i => cell i ≠ 0

theorem splice_set {α : Type} (x : α) (xs : List α) {l : List α} {a : Nat} (h : a < l.length) :
    (l.set a x).take (a + 1) ++ xs ++ (l.set a x).drop (a + 1 + xs.length) =
      l.take a ++ (x :: xs) ++ l.drop (a + (xs.length + 1)) := by
  have htake : (l.set a x).take (a + 1) = l.take a ++ [x] := by
    rw [List.take_succ_eq_append_getElem (by simpa using h), List.take_set_of_le (Nat.le_refl a),
      List.getElem_set_self]
  rw [htake, List.drop_set_of_lt (by omega), show a + 1 + xs.length = a + (xs.length + 1) by omega]
  simp

theorem collect_eq (cell : Nat → Int) : ∀ (is : List Nat) (a : Nat) (t : OneHufftype),
    t.count = a → a + (usedSymbols cell is).length ≤ t.val.length →
    t.num.length = t.val.length →
    collect cell is a t =
      { val := t.val.take a ++ usedSymbols cell is ++ t.val.drop (a + (usedSymbols cell is).length),
        num := t.num.take a ++ (usedSymbols cell is).map cell ++
          t.num.drop (a + (usedSymbols cell is).length),
        code := t.code,
        count := a + (usedSymbols cell is).length }
  | [], a, t, ha, _, _ => by
      subst ha
      simp [collect, usedSymbols]
  | i :: is, a, t, ha, hlen, hnum => by
      rw [collect]
      by_cases hc : cell i ≠ 0
      · have hused : usedSymbols cell (i :: is) = i :: usedSymbols cell is := by
          rw [usedSymbols, List.filter_cons_of_pos (by simpa using hc)]
          rfl
        rw [hused, List.length_cons] at hlen ⊢
        rw [if_pos hc, collect_eq cell is (a + 1) _ rfl (by simp; omega) (by simp [hnum])]
        have hval := splice_set i (usedSymbols cell is) (l := t.val) (a := a) (by omega)
        have hnums := splice_set (cell i) ((usedSymbols cell is).map cell) (l := t.num) (a := a)
          (by omega)
        rw [List.length_map] at hnums
        have hcount : a + 1 + (usedSymbols cell is).length =
            a + ((usedSymbols cell is).length + 1) := by omega
        rw [hcount] at hval hnums
        simp only [hcount, hval, hnums, List.map_cons]
      · have hused : usedSymbols cell (i :: is) = usedSymbols cell is := by
          rw [usedSymbols, List.filter_cons_of_neg (by simpa using hc)]
          rfl
        rw [hused] at hlen ⊢
        rw [if_neg hc]
        exact collect_eq cell is a t ha hlen hnum

/-- What the encoder and the table writer rely on in a finished table. -/
structure OneHufftype.Built (t : OneHufftype) (cell : Nat → Int) : Prop where
  /-- There are at most 256 symbols. -/
  count_le : t.count ≤ 256
  /-- The symbols are the used ones. -/
  val : (t.val.take t.count).Perm (usedSymbols cell (List.range 256))
  /-- Their codes are the first of the quota. -/
  code : t.code.take t.count = (quotaCodes.take t.count).map fun e => some (codeString e)
  /-- The array of symbols. -/
  length_val : t.val.length = 256
  /-- The array of codes. -/
  length_code : t.code.length = 256

/-- Ranking and numbering a collected table. -/
theorem buildTree_eq {used vals : List Nat} {nums : List Int} (z : List Nat) (zn : List Int)
    (c₀ : List (Option (List Char))) (hnums : nums.length = used.length) (hle : used.length ≤ 256)
    (hv : moveArray (used ++ z) (bubbleSort nums).2 = vals) (buf : CharBuf) :
    ∃ num buf', buildTree ⟨used ++ z, nums ++ zn, c₀, used.length⟩ buf =
      .ok (⟨vals ++ z, num,
        (quotaCodes.take used.length).map (fun e => some (codeString e)) ++ c₀.drop used.length,
        used.length⟩, buf') := by
  obtain ⟨buf', hcal⟩ := calNewHuffman_quota hle buf
  have hnum : (nums ++ zn).take used.length = nums := by rw [← hnums, List.take_left]
  refine ⟨(bubbleSort nums).1 ++ (nums ++ zn).drop used.length, buf', ?_⟩
  simp only [buildTree, hnum, hcal, hv, List.drop_left, List.map_map]
  rfl

theorem length_usedSymbols_le (cell : Nat → Int) :
    (usedSymbols cell (List.range 256)).length ≤ 256 :=
  (List.length_filter_le _ _).trans_eq List.length_range

/-- The used symbols are collected in order, and nothing else is stored. -/
theorem collectAll_eq (cell : Nat → Int) :
    collectAll cell =
      { val := usedSymbols cell (List.range 256) ++
          List.replicate (256 - (usedSymbols cell (List.range 256)).length) 0,
        num := (usedSymbols cell (List.range 256)).map cell ++
          List.replicate (256 - (usedSymbols cell (List.range 256)).length) 0,
        code := List.replicate 256 none,
        count := (usedSymbols cell (List.range 256)).length } := by
  have hle := length_usedSymbols_le cell
  have hcollect := collect_eq cell (List.range 256) 0 .empty rfl
    (by rw [OneHufftype.empty, List.length_replicate]; omega)
    (by rw [OneHufftype.empty, List.length_replicate, List.length_replicate])
  simp only [List.take_zero, List.nil_append, Nat.zero_add, OneHufftype.empty,
    List.drop_replicate] at hcollect
  rw [collectAll, OneHufftype.empty, hcollect]

theorem buildTree_spec (cell : Nat → Int) (buf : CharBuf) :
    ∃ t buf', buildTree (collectAll cell) buf = .ok (t, buf') ∧ t.Built cell := by
  have hle := length_usedSymbols_le cell
  rw [collectAll_eq]
  generalize hused : usedSymbols cell (List.range 256) = used at hle
  have hperm := bubbleSort_perm (used.map cell)
  rw [List.length_map] at hperm
  have hmove := moveArray_perm (used ++ List.replicate (256 - used.length) 0) (by simp) hperm
  rw [List.take_left] at hmove
  have hnums : (used.map cell).length = used.length := List.length_map ..
  obtain ⟨num, buf', hrun⟩ := buildTree_eq (List.replicate (256 - used.length) 0)
    (List.replicate (256 - used.length) 0) (List.replicate 256 none) hnums hle rfl buf
  generalize moveArray _ _ = vals at hmove hrun
  have hvals := hmove.length_eq
  have hcodes : ((quotaCodes.take used.length).map fun e => some (codeString e)).length =
      used.length := by
    rw [List.length_map, List.length_take, quotaCodes_length]
    omega
  refine ⟨_, buf', hrun, ⟨hle, ?_, ?_, ?_, ?_⟩⟩
  · rw [List.take_left' hvals, hused]
    exact hmove
  · exact List.take_left' hcodes
  · rw [List.length_append, List.length_replicate]
    omega
  · rw [List.length_append, hcodes, List.length_drop, List.length_replicate]
    omega

/-! ## The table a decoder rebuilds -/

/-- How many codes there are of each size from 1 to 16. -/
def OneHufftype.sizeCounts (t : OneHufftype) : List Nat :=
  (List.range 16).map fun i =>
    (t.code.take t.count).countP fun c => (c.getD []).length = i + 1

/-- The symbols in the order of their codes. -/
def OneHufftype.symbols (t : OneHufftype) : List Nat := t.val.take t.count

/-- The code table of the counts and the symbols. -/
def OneHufftype.decodeTable (t : OneHufftype) : Table Nat := table t.sizeCounts t.symbols

namespace OneHufftype.Built

variable {t : OneHufftype} {cell : Nat → Int}

theorem lengthsOf_sizeCounts (h : t.Built cell) :
    lengthsOf t.sizeCounts = (lengthsOf (oneSizeMax.drop 1)).take t.count := by
  have hmap : quotaCodes.map Prod.snd = lengthsOf (oneSizeMax.drop 1) := map_snd_assign ..
  have hcounts : t.sizeCounts = (List.range 16).map fun i =>
      ((lengthsOf (oneSizeMax.drop 1)).take t.count).count (i + 1) := by
    refine List.map_congr_left fun i _ => ?_
    rw [h.code, List.countP_map, ← hmap, ← List.map_take, List.count, List.countP_map]
    exact List.countP_congr fun e _ => by simp
  rw [hcounts]
  refine lengthsOf_count ((lengthsOf_sorted _).sublist (List.take_sublist ..)) fun k hk => ?_
  have hmem := mem_lengthsOf (List.mem_of_mem_take hk)
  exact ⟨hmem.1, hmem.2⟩

theorem codes_sizeCounts (h : t.Built cell) :
    codes (lengthsOf t.sizeCounts) = quotaCodes.take t.count := by
  rw [h.lengthsOf_sizeCounts, codes_take]
  rfl

theorem decodeTable_eq (h : t.Built cell) :
    t.decodeTable = t.symbols.zip ((quotaCodes.take t.count).map codeBits) := by
  rw [decodeTable, table, h.codes_sizeCounts]

/-- A decoder can read the new code. -/
theorem prefixFree (h : t.Built cell) : PrefixFree t.decodeTable := by
  refine table_prefixFree ?_ t.symbols
  rw [h.lengthsOf_sizeCounts]
  exact quotaCodes_fits.take t.count

theorem mem_symbols (h : t.Built cell) {v : Nat} :
    v ∈ t.symbols ↔ v < 256 ∧ cell v ≠ 0 := by
  rw [symbols, h.val.mem_iff, usedSymbols, List.mem_filter, List.mem_range]
  simp

theorem nodup_symbols (h : t.Built cell) : t.symbols.Nodup :=
  h.val.nodup_iff.mpr (List.nodup_range.filter _)

end OneHufftype.Built

/-- A used symbol is found, with its code of the rebuilt table. -/
theorem findNewCode_built {u : HuffValUseful} {type : Nat} {cell : Nat → Int}
    (h : (u.table type).Built cell) {v : Nat} (hv : v < 256) (hused : cell v ≠ 0) :
    ∃ c, findNewCode u v type = .ok (c.map bitChar) ∧ (v, c) ∈ (u.table type).decodeTable := by
  generalize ht : u.table type = t at h
  have hsplit : t.val.zip t.code = t.symbols.zip (t.code.take t.count) ++
      (t.val.drop t.count).zip (t.code.drop t.count) := by
    rw [OneHufftype.symbols, ← List.zip_append (by
      rw [List.length_take, List.length_take, h.length_val, h.length_code]),
      List.take_append_drop, List.take_append_drop]
  have hmem : v ∈ (t.symbols.zip (t.code.take t.count)).map Prod.fst := by
    rw [List.map_fst_zip, h.mem_symbols]
    · exact ⟨hv, hused⟩
    · rw [OneHufftype.symbols, List.length_take, List.length_take, h.length_val, h.length_code]
  obtain ⟨p, hp, hpv⟩ := List.mem_map.mp hmem
  rw [findNewCode, ht, hsplit, List.find?_append]
  cases hf : (t.symbols.zip (t.code.take t.count)).find? (fun p => p.1 = v) with
  | none =>
      have := List.find?_eq_none.mp hf p hp
      simp [hpv] at this
  | some q =>
      have hq := List.mem_of_find?_eq_some hf
      have hqv := List.find?_some hf
      simp only [decide_eq_true_eq] at hqv
      rw [h.code, List.zip_map_right, List.mem_map] at hq
      obtain ⟨⟨w, e⟩, he, rfl⟩ := hq
      subst hqv
      refine ⟨codeBits e, rfl, ?_⟩
      rw [h.decodeTable_eq, List.zip_map_right, List.mem_map]
      exact ⟨_, he, rfl⟩

/-- No code has more than sixteen bits. -/
theorem OneHufftype.Built.length_le {t : OneHufftype} {cell : Nat → Int} (h : t.Built cell) :
    ∀ c ∈ t.code.take t.count, (c.getD []).length ≤ 16 := by
  intro c hc
  rw [h.code, List.mem_map] at hc
  obtain ⟨e, he, rfl⟩ := hc
  have hmap : e.2 ∈ quotaCodes.map Prod.snd := List.mem_map_of_mem (List.mem_of_mem_take he)
  rw [quotaCodes, codes, map_snd_assign] at hmap
  rw [Option.getD_some, length_codeString]
  exact (mem_lengthsOf hmap).2

theorem buildTrees_ok {u : HuffValUseful} {dc0 dc1 ac0 ac1 : OneHufftype}
    {buf buf₁ buf₂ buf₃ buf₄ : CharBuf} (hdc0 : buildTree u.dc0 buf = .ok (dc0, buf₁))
    (hdc1 : buildTree u.dc1 buf₁ = .ok (dc1, buf₂)) (hac0 : buildTree u.ac0 buf₂ = .ok (ac0, buf₃))
    (hac1 : buildTree u.ac1 buf₃ = .ok (ac1, buf₄))
    (hsize : (ac1.code.take ac1.count).any (fun c => 16 < (c.getD []).length) = false) :
    buildTrees u buf = .ok (⟨dc0, dc1, ac0, ac1⟩, buf₄) := by
  simp only [buildTrees, buildDC0Tree, buildDC1Tree, buildAC0Tree, buildAC1Tree, hdc0, hdc1, hac0,
    hac1, bind, pure, Except.bind, Except.pure, hsize]
  rfl

/-- All four trees are built, whatever the counts and the buffer were. -/
theorem buildTrees_spec (cell : Nat → Nat → Int) (buf : CharBuf) :
    ∃ u buf', buildTrees (collectTables cell) buf = .ok (u, buf') ∧
      ∀ type < 4, (u.table type).Built (cell type) := by
  obtain ⟨dc0, buf₁, hdc0, hb0⟩ := buildTree_spec (cell 0) buf
  obtain ⟨dc1, buf₂, hdc1, hb1⟩ := buildTree_spec (cell 1) buf₁
  obtain ⟨ac0, buf₃, hac0, hb2⟩ := buildTree_spec (cell 2) buf₂
  obtain ⟨ac1, buf₄, hac1, hb3⟩ := buildTree_spec (cell 3) buf₃
  have hsize : (ac1.code.take ac1.count).any (fun c => 16 < (c.getD []).length) = false := by
    rw [List.any_eq_false]
    intro c hc
    have := hb3.length_le c hc
    simp only [decide_eq_true_eq]
    omega
  generalize hu : collectTables cell = u
  rw [collectTables] at hu
  rw [show collectAll (cell 0) = u.dc0 by rw [← hu]] at hdc0
  rw [show collectAll (cell 1) = u.dc1 by rw [← hu]] at hdc1
  rw [show collectAll (cell 2) = u.ac0 by rw [← hu]] at hac0
  rw [show collectAll (cell 3) = u.ac1 by rw [← hu]] at hac1
  refine ⟨_, _, buildTrees_ok hdc0 hdc1 hac0 hac1 hsize, ?_⟩
  intro type htype
  match type, htype with
  | 0, _ => exact hb0
  | 1, _ => exact hb1
  | 2, _ => exact hb2
  | 3, _ => exact hb3

end Recode
