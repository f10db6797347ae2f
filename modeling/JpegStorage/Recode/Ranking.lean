import JpegStorage.Lib.BubbleSort
import JpegStorage.Recode.NewCode

/-!
# Ranking the counts

`BubbleSort` swaps two counts through a `float`, which has 24 bits, so a count that moves
back may change.  A swap that changes a count makes it a number a `float` can hold, and
those stay, so there are more of them in the end than there were before (`floats_le`).
If no swap changes a count the sort is an exact one, and otherwise the counts
that come out are not those that went in.
-/

namespace Recode

open BubbleSort Canonical

/-! ## Rounding -/

/-- The rounding of `float32` without the sign. -/
def round24 (n : Nat) : Nat :=
  let shift := n.log2 - 23
  let low := n % 2 ^ shift
  let high := n / 2 ^ shift
  let up := 2 ^ shift < 2 * low ∨ (2 ^ shift = 2 * low ∧ high % 2 = 1)
  (high + if up then 1 else 0) * 2 ^ shift

theorem float32_eq (n : Int) : float32 n = n.sign * (round24 n.natAbs : Nat) := rfl

/-- A number with 24 bits before its zeros is not rounded. -/
theorem round24_of_dvd {n : Nat} (h : 2 ^ (n.log2 - 23) ∣ n) : round24 n = n := by
  have hlow : n % 2 ^ (n.log2 - 23) = 0 := Nat.mod_eq_zero_of_dvd h
  have hpos : 0 < 2 ^ (n.log2 - 23) := Nat.pow_pos (by decide)
  rw [round24, hlow, if_neg (by omega), Nat.add_zero, Nat.div_mul_cancel h]

theorem round24_form (n : Nat) : ∃ m s, round24 n = m * 2 ^ s ∧ m ≤ 2 ^ 24 := by
  refine ⟨_, _, rfl, ?_⟩
  have hlt : n / 2 ^ (n.log2 - 23) < 2 ^ 24 := by
    rw [Nat.div_lt_iff_lt_mul (Nat.pow_pos (by decide)), ← Nat.pow_add]
    refine Nat.lt_log2_self.trans_le (Nat.pow_le_pow_right (by decide) ?_)
    omega
  split
  · exact hlt
  · exact hlt.le

theorem dvd_of_form {m s : Nat} (h : m ≤ 2 ^ 24) :
    2 ^ ((m * 2 ^ s).log2 - 23) ∣ m * 2 ^ s := by
  rcases Nat.lt_or_eq_of_le h with hlt | rfl
  · refine (pow_dvd_pow 2 ?_).trans (Nat.dvd_mul_left ..)
    rcases Nat.eq_zero_or_pos m with rfl | hpos
    · rw [Nat.zero_mul, Nat.log2_zero]
      omega
    · have hprod : m * 2 ^ s ≠ 0 := (Nat.mul_pos hpos (Nat.pow_pos (by decide))).ne'
      have hbits : m * 2 ^ s < 2 ^ (24 + s) := by
        rw [Nat.pow_add]
        exact Nat.mul_lt_mul_of_pos_right hlt (Nat.pow_pos (by decide))
      have hlog := (Nat.log2_lt hprod).mpr hbits
      omega
  · rw [← Nat.pow_add, Nat.log2_two_pow]
    exact pow_dvd_pow 2 (by omega)

theorem round24_round24 (n : Nat) : round24 (round24 n) = round24 n := by
  obtain ⟨m, s, hform, hm⟩ := round24_form n
  rw [hform]
  exact round24_of_dvd (dvd_of_form hm)

theorem natAbs_float32 (n : Int) : (float32 n).natAbs = round24 n.natAbs := by
  rcases eq_or_ne n 0 with rfl | hn
  · rfl
  · rw [float32_eq, Int.natAbs_mul, Int.natAbs_sign_of_ne_zero hn, Nat.one_mul,
      Int.natAbs_natCast]

/-- A rounded number is not rounded again. -/
theorem float32_float32 (n : Int) : float32 (float32 n) = float32 n := by
  rw [float32_eq (float32 n), natAbs_float32, round24_round24, ← natAbs_float32,
    Int.sign_mul_natAbs]

/-! ## Passes -/

/-- Every number with a greater one behind it is one that a `float` holds. -/
def Exact (l : List (Int × Nat)) : Prop := l.Pairwise fun a b => a.1 < b.1 → float32 a.1 = a.1

/-- How many of the numbers a `float` holds. -/
def floats (l : List (Int × Nat)) : Nat := l.countP fun a => float32 a.1 = a.1

theorem bubblePass_zero (l : List (Int × Nat)) : bubblePass 0 l = l := by
  cases l <;> rfl

theorem bubblePass_swap {a b : Int × Nat} (h : a.1 < b.1) (n : Nat) (l : List (Int × Nat)) :
    bubblePass (n + 1) (a :: b :: l) = b :: bubblePass n ((float32 a.1, a.2) :: l) := if_pos h

theorem bubblePass_keep {a b : Int × Nat} (h : ¬ a.1 < b.1) (n : Nat) (l : List (Int × Nat)) :
    bubblePass (n + 1) (a :: b :: l) = a :: bubblePass n (b :: l) := if_neg h

theorem floats_cons (a : Int × Nat) (l : List (Int × Nat)) :
    floats (a :: l) = floats l + if float32 a.1 = a.1 then 1 else 0 := by
  rw [floats, floats, List.countP_cons]
  simp

theorem floats_rounded (a : Int × Nat) (l : List (Int × Nat)) :
    floats ((float32 a.1, a.2) :: l) = floats l + 1 := by
  rw [floats_cons, if_pos (float32_float32 a.1)]

/-- A number that a `float` holds stays one. -/
theorem floats_le (n : Nat) (l : List (Int × Nat)) : floats l ≤ floats (bubblePass n l) := by
  induction n generalizing l with
  | zero => rw [bubblePass_zero]
  | succ n ih =>
      rcases l with _ | ⟨a, _ | ⟨b, l⟩⟩
      · exact Nat.le_refl _
      · exact Nat.le_refl _
      · by_cases h : a.1 < b.1
        · have hrest := ih ((float32 a.1, a.2) :: l)
          rw [floats_rounded] at hrest
          rw [bubblePass_swap h, floats_cons b, floats_cons a, floats_cons b]
          split <;> split <;> omega
        · have hrest := ih (b :: l)
          rw [bubblePass_keep h, floats_cons a, floats_cons a]
          omega

/-- Without rounding a pass is an exact one. -/
theorem Exact.bubblePass_eq {l : List (Int × Nat)} (h : Exact l) (n : Nat) :
    bubblePass n l = pass Prod.fst n l := by
  induction n generalizing l with
  | zero => rw [bubblePass_zero, pass_zero]
  | succ n ih =>
      rcases l with _ | ⟨a, _ | ⟨b, l⟩⟩
      · rfl
      · rfl
      · obtain ⟨ha, hbl⟩ := List.pairwise_cons.mp h
        by_cases hlt : a.1 < b.1
        · have hal : Exact (a :: l) := h.sublist (by simp)
          have hfloat : float32 a.1 = a.1 := ha b (List.mem_cons_self ..) hlt
          rw [bubblePass_swap hlt, pass_swap hlt, hfloat, ih hal]
        · rw [bubblePass_keep hlt, pass_keep hlt, ih hbl]

theorem Exact.pass {l : List (Int × Nat)} (h : Exact l) (n : Nat) : Exact (pass Prod.fst n l) := by
  induction n generalizing l with
  | zero =>
      rw [pass_zero]
      exact h
  | succ n ih =>
      rcases l with _ | ⟨a, _ | ⟨b, l⟩⟩
      · exact h
      · exact h
      · obtain ⟨ha, hbl⟩ := List.pairwise_cons.mp h
        by_cases hlt : a.1 < b.1
        · have hal : Exact (a :: l) := h.sublist (by simp)
          rw [pass_swap hlt]
          refine List.pairwise_cons.mpr ⟨fun x hx hbx => ?_, ih hal⟩
          rcases List.mem_cons.mp ((pass_perm n (a :: l)).mem_iff.mp hx) with rfl | hx
          · exact absurd hbx hlt.not_gt
          · exact (List.pairwise_cons.mp hbl).1 x hx hbx
        · rw [pass_keep hlt]
          refine List.pairwise_cons.mpr ⟨fun x hx => ?_, ih hbl⟩
          exact ha x ((pass_perm n (b :: l)).mem_iff.mp hx)

/-- A pass that leaves the numbers `Exact` and no more of them rounded was an exact one. -/
theorem exact_of_bubblePass {n : Nat} {l : List (Int × Nat)} (h : Exact (bubblePass n l))
    (hfloats : floats (bubblePass n l) = floats l) : Exact l := by
  induction n generalizing l with
  | zero =>
      rw [bubblePass_zero] at h
      exact h
  | succ n ih =>
      rcases l with _ | ⟨a, _ | ⟨b, l⟩⟩
      · exact h
      · exact h
      · by_cases hlt : a.1 < b.1
        · rw [bubblePass_swap hlt] at h hfloats
          have hle := floats_le n ((float32 a.1, a.2) :: l)
          rw [floats_rounded] at hle
          rw [floats_cons b, floats_cons a, floats_cons b] at hfloats
          have hfloat : float32 a.1 = a.1 := by
            by_contra hne
            rw [if_neg hne] at hfloats
            omega
          have hsame : (float32 a.1, a.2) = a := by rw [hfloat]
          rw [if_pos hfloat, hsame] at hfloats
          rw [hsame] at h hle
          obtain ⟨hb, htail⟩ := List.pairwise_cons.mp h
          have hal : Exact (a :: l) := by
            refine ih htail ?_
            rw [floats_cons, if_pos hfloat]
            omega
          refine List.pairwise_cons.mpr ⟨fun _ _ _ => hfloat, ?_⟩
          refine List.pairwise_cons.mpr ⟨fun x hx => hb x ?_, hal.sublist (by simp)⟩
          rw [hal.bubblePass_eq, (pass_perm n (a :: l)).mem_iff]
          exact List.mem_cons_of_mem a hx
        · rw [bubblePass_keep hlt] at h hfloats
          rw [floats_cons a, floats_cons a] at hfloats
          obtain ⟨ha, htail⟩ := List.pairwise_cons.mp h
          have hbl : Exact (b :: l) := ih htail (by omega)
          refine List.pairwise_cons.mpr ⟨fun x hx => ha x ?_, hbl⟩
          rwa [hbl.bubblePass_eq, (pass_perm n (b :: l)).mem_iff]

/-! ## All passes -/

section
variable {count : Nat → Nat}

theorem Exact.foldl_eq (is : List Nat) {l : List (Int × Nat)} (h : Exact l) :
    is.foldl (fun acc i => bubblePass (count i) acc) l =
      is.foldl (fun acc i => BubbleSort.pass Prod.fst (count i) acc) l := by
  induction is generalizing l with
  | nil => rfl
  | cons i is ih =>
      rw [List.foldl_cons, List.foldl_cons, h.bubblePass_eq]
      exact ih (h.pass (count i))

theorem floats_foldl_le (is : List Nat) (l : List (Int × Nat)) :
    floats l ≤ floats (is.foldl (fun acc i => bubblePass (count i) acc) l) := by
  induction is generalizing l with
  | nil => exact Nat.le_refl _
  | cons i is ih => exact (floats_le (count i) l).trans (ih _)

theorem exact_of_foldl (is : List Nat) {l : List (Int × Nat)}
    (h : Exact (is.foldl (fun acc i => bubblePass (count i) acc) l))
    (hfloats : floats (is.foldl (fun acc i => bubblePass (count i) acc) l) = floats l) :
    Exact l := by
  induction is generalizing l with
  | nil => exact h
  | cons i is ih =>
      rw [List.foldl_cons] at h hfloats
      have hfirst := floats_le (count i) l
      have hrest := @floats_foldl_le count is (bubblePass (count i) l)
      exact exact_of_bubblePass (ih h (by omega)) (by omega)

end

/-- The numbers with their places. -/
def placed (p : List Int) : List (Int × Nat) := p.zip (List.range p.length)

theorem map_fst_placed (p : List Int) : (placed p).map Prod.fst = p :=
  List.map_fst_zip (by simp)

/-- A number is at its place. -/
theorem fst_of_mem_placed {p : List Int} {a : Int × Nat} (h : a ∈ placed p) :
    a.1 = p.getD a.2 0 := by
  obtain ⟨i, hi, rfl⟩ := List.mem_iff_getElem.mp h
  have hlt : i < p.length := by simpa [placed] using hi
  have hplace : (placed p)[i] = (p[i], i) := by simp [placed]
  rw [hplace, List.getD_eq_getElem _ _ hlt]

theorem exact_placed {p : List Int} :
    Exact (placed p) ↔ p.Pairwise fun m n => m < n → float32 m = m := by
  conv_rhs => rw [← map_fst_placed p]
  rw [List.pairwise_map]
  rfl

/-- The pairs after `BubbleSort`. -/
def ranked (p : List Int) : List (Int × Nat) :=
  (List.range p.length).foldl (fun acc i => bubblePass (p.length - i - 1) acc) (placed p)

theorem bubbleSort_eq (p : List Int) :
    bubbleSort p = ((ranked p).map Prod.fst, (ranked p).map Prod.snd) :=
  List.unzip_eq_map

theorem ranked_of_exact {p : List Int} (h : Exact (placed p)) :
    ranked p = sort Prod.fst (placed p) := by
  have hlen : (placed p).length = p.length := by simp [placed]
  rw [ranked, sort, hlen]
  exact h.foldl_eq _

theorem floats_eq_countP (l : List (Int × Nat)) :
    floats l = (l.map Prod.fst).countP fun n => float32 n = n := by
  rw [List.countP_map]
  rfl

/-! ## The ranking -/

/-- What `BubbleSort`, `move_array` and `cal_new_huffman` should make of the symbols `vals` and
their counts `nums`. -/
structure Ranked (vals : List Nat) (nums num : List Int) (index : List Nat)
    (code : List (List Char)) : Prop where
  /-- The counts descend. -/
  sorted : num.Pairwise fun m n => n ≤ m
  /-- `index` is a permutation. -/
  perm : index.Perm (List.range nums.length)
  /-- A count is taken from the place `index` says. -/
  relates : num = index.map fun k => nums.getD k 0
  /-- Each symbol keeps its count. -/
  pairs : ((moveArray vals index).zip num).Perm (vals.zip nums)
  /-- A symbol with a larger count has no longer code. -/
  codes : ∀ x ∈ num.zip code, ∀ y ∈ num.zip code, y.1 < x.1 → x.2.length ≤ y.2.length

theorem getD_range {α : Type} (l : List α) (d : α) :
    (List.range l.length).map (fun k => l.getD k d) = l := by
  refine List.ext_getElem (by simp) fun i h1 h2 => ?_
  rw [List.getElem_map, List.getElem_range, List.getD_eq_getElem _ _ h2]

/-- Counts taken from the places a permutation says. -/
theorem relates_perm {nums num : List Int} {index : List Nat}
    (hperm : index.Perm (List.range nums.length))
    (hrelates : num = index.map fun k => nums.getD k 0) : num.Perm nums := by
  have hmap := hperm.map fun k => nums.getD k 0
  rwa [← hrelates, getD_range] at hmap

/-- The symbols move as the counts do. -/
theorem pairs_perm {vals : List Nat} {nums num : List Int} {index : List Nat}
    (hlen : vals.length = nums.length) (hperm : index.Perm (List.range nums.length))
    (hrelates : num = index.map fun k => nums.getD k 0) :
    ((moveArray vals index).zip num).Perm (vals.zip nums) := by
  have hmap := hperm.map fun k => (vals.getD k 0, nums.getD k 0)
  have hrange : (List.range nums.length).map (fun k => (vals.getD k 0, nums.getD k 0)) =
      vals.zip nums := by
    conv_rhs => rw [← getD_range vals 0, ← getD_range nums 0, hlen]
    rw [List.zip_map']
  rwa [hrange, ← List.zip_map', ← hrelates] at hmap

/-- The codes get longer. -/
theorem lengths_sorted (n : Nat) :
    ((quotaCodes.take n).map codeString).Pairwise fun c d => c.length ≤ d.length := by
  rw [List.pairwise_map]
  have hsorted := lengthsOf_sorted (oneSizeMax.drop 1)
  have hlengths : quotaCodes.map Prod.snd = lengthsOf (oneSizeMax.drop 1) := map_snd_assign ..
  rw [← hlengths, List.pairwise_map] at hsorted
  simp only [length_codeString]
  exact hsorted.sublist (List.take_sublist ..)

/-- With sorted counts and sorted codes a larger count has no longer code. -/
theorem codes_of_sorted {num : List Int} {code : List (List Char)}
    (hnum : num.Pairwise fun m n => n ≤ m) (hcode : code.Pairwise fun c d => c.length ≤ d.length) :
    ∀ x ∈ num.zip code, ∀ y ∈ num.zip code, y.1 < x.1 → x.2.length ≤ y.2.length := by
  induction num generalizing code with
  | nil => simp
  | cons n num ih =>
      cases code with
      | nil => simp
      | cons c code =>
          obtain ⟨hn, hnum⟩ := List.pairwise_cons.mp hnum
          obtain ⟨hc, hcode⟩ := List.pairwise_cons.mp hcode
          intro x hx y hy hlt
          rw [List.zip_cons_cons] at hx hy
          rcases List.mem_cons.mp hx with rfl | hx'
          · rcases List.mem_cons.mp hy with rfl | hy'
            · exact Nat.le_refl _
            · exact hc y.2 (List.of_mem_zip hy').2
          · rcases List.mem_cons.mp hy with rfl | hy'
            · exact absurd (hn x.1 (List.of_mem_zip hx').1) (not_le.mpr hlt)
            · exact ih hnum hcode x hx' y hy' hlt

theorem Exact.ranked {vals : List Nat} {nums : List Int} (h : Exact (placed nums))
    (hlen : vals.length = nums.length) :
    Ranked vals nums ((ranked nums).map Prod.fst) ((ranked nums).map Prod.snd)
      ((quotaCodes.take nums.length).map codeString) := by
  have hperm : (Recode.ranked nums).Perm (placed nums) := by
    rw [ranked_of_exact h]
    exact sort_perm _
  have hsorted : ((Recode.ranked nums).map Prod.fst).Pairwise fun m n => n ≤ m := by
    rw [ranked_of_exact h, List.pairwise_map]
    exact sort_sorted _
  have hindex : ((Recode.ranked nums).map Prod.snd).Perm (List.range nums.length) := by
    have hsnd : (placed nums).map Prod.snd = List.range nums.length :=
      List.map_snd_zip (by simp)
    rw [← hsnd]
    exact hperm.map Prod.snd
  have hrelates : (Recode.ranked nums).map Prod.fst =
      ((Recode.ranked nums).map Prod.snd).map fun k => nums.getD k 0 := by
    rw [List.map_map]
    refine List.map_congr_left fun a ha => ?_
    exact fst_of_mem_placed (hperm.mem_iff.mp ha)
  exact ⟨hsorted, hindex, hrelates, pairs_perm hlen hindex hrelates,
    codes_of_sorted hsorted (lengths_sorted _)⟩

theorem Ranked.exact {vals : List Nat} {nums : List Int} {code : List (List Char)}
    (h : Ranked vals nums ((ranked nums).map Prod.fst) ((ranked nums).map Prod.snd) code) :
    Exact (placed nums) := by
  have hperm := relates_perm h.perm h.relates
  have hfloats : floats (ranked nums) = floats (placed nums) := by
    rw [floats_eq_countP, floats_eq_countP, map_fst_placed]
    exact hperm.countP_eq _
  refine exact_of_foldl (List.range nums.length) ?_ hfloats
  have hsorted := List.pairwise_map.mp h.sorted
  exact hsorted.imp fun hle hlt => absurd hlt (not_lt.mpr hle)

/-- The counts are ranked if and only if a `float` holds every count that has a larger one
behind it. -/
theorem ranking_exact {vals : List Nat} {nums : List Int} (hlen : vals.length = nums.length)
    (hsize : nums.length ≤ 256) (buf : CharBuf) :
    ∃ code buf', calNewHuffman oneSizeMax nums.length buf = some (code, buf') ∧
      (Ranked vals nums (bubbleSort nums).1 (bubbleSort nums).2 code ↔
        nums.Pairwise fun m n => m < n → float32 m = m) := by
  obtain ⟨buf', hcal⟩ := calNewHuffman_quota hsize buf
  refine ⟨_, buf', hcal, ?_⟩
  rw [← exact_placed, bubbleSort_eq]
  exact ⟨Ranked.exact, fun h => h.ranked hlen⟩

/-- Three small counts are ranked. -/
theorem ranking_exact_three : ∃ code buf',
    calNewHuffman oneSizeMax 3 (fun _ => ' ') = some (code, buf') ∧
      Ranked [1, 2, 3] [2, 9, 5] (bubbleSort [2, 9, 5]).1 (bubbleSort [2, 9, 5]).2 code := by
  obtain ⟨code, buf', hcal, hranked⟩ :=
    @ranking_exact [1, 2, 3] [2, 9, 5] rfl (by simp) fun _ => ' '
  exact ⟨code, buf', hcal, hranked.mpr (by decide +kernel)⟩

/-- The first symbol has more than the third, but gets the longer code: its count is rounded
when it moves behind the second. -/
theorem ranking_rounded :
    bubbleSort [33554434, 33554435, 33554433] =
        ([33554435, 33554433, 33554432], [1, 2, 0]) ∧
      (quotaCodes.take 3).map Prod.snd = [1, 3, 4] ∧
      ∀ code, ¬ Ranked [1, 2, 3] [33554434, 33554435, 33554433]
        (bubbleSort [33554434, 33554435, 33554433]).1
        (bubbleSort [33554434, 33554435, 33554433]).2 code := by
  have hsort : bubbleSort [33554434, 33554435, 33554433] =
      ([33554435, 33554433, 33554432], [1, 2, 0]) := by decide +kernel
  refine ⟨hsort, by decide +kernel, fun code hranked => ?_⟩
  have hrelates := hranked.relates
  rw [hsort] at hrelates
  simp at hrelates

end Recode
