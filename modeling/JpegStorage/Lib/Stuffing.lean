import JpegStorage.Lib.Bits

/-!
# Byte stuffing

Entropy-coded data may hold the byte `FF`, which also starts a marker.  The
writer of a scan puts a `00` after it (`stuff`), and the reader drops that `00`
again (`unstuff`).  A reader drops it while it walks over the bytes, so
`skipData n` is the position behind `n` data bytes.
-/

namespace Stuffing

/-- Data bytes as they stand in the file. -/
def stuff : List UInt8 → List UInt8
  | [] => []
  | b :: bs => if b = 0xff then 0xff :: 0x00 :: stuff bs else b :: stuff bs

/-- The position behind the byte `c` just read: a zero after `FF` is skipped. -/
def afterByte (c : UInt8) (rest : List UInt8) : List UInt8 :=
  match c, rest with
  | 0xff, 0x00 :: rest => rest
  | _, rest => rest

/-- The data bytes a reader sees. -/
def unstuff : List UInt8 → List UInt8
  | 0xff :: 0x00 :: rest => 0xff :: unstuff rest
  | c :: rest => c :: unstuff rest
  | [] => []

/-- The position behind `n` data bytes. -/
def skipData : Nat → List UInt8 → List UInt8
  | 0, s => s
  | _ + 1, [] => []
  | n + 1, c :: rest => skipData n (afterByte c rest)

theorem afterByte_of_ne {c : UInt8} (h : c ≠ 0xff) (rest : List UInt8) : afterByte c rest = rest := by
  unfold afterByte
  split
  · exact absurd rfl h
  · rfl

@[simp] theorem afterByte_zero (rest : List UInt8) : afterByte 0xff (0x00 :: rest) = rest := rfl

theorem afterByte_cons_of_ne (c : UInt8) {m : UInt8} (h : m ≠ 0x00) (rest : List UInt8) :
    afterByte c (m :: rest) = m :: rest := by
  unfold afterByte
  split
  next heq => injection heq with h1 _; exact absurd h1 h
  · rfl

theorem length_afterByte_le (c : UInt8) (rest : List UInt8) :
    (afterByte c rest).length ≤ rest.length := by
  unfold afterByte
  split
  · simp only [List.length_cons]
    omega
  · exact Nat.le_refl _

@[simp] theorem unstuff_nil : unstuff [] = [] := rfl

theorem unstuff_cons (c : UInt8) (rest : List UInt8) :
    unstuff (c :: rest) = c :: unstuff (afterByte c rest) := by
  by_cases hc : c = 0xff
  · subst hc
    match rest with
    | [] => rfl
    | m :: rest' =>
        by_cases hm : m = 0x00
        · subst hm; rfl
        · rw [afterByte_cons_of_ne _ hm, unstuff.eq_2]
          intro r _ heq
          injection heq with h1 _
          exact hm h1
  · rw [afterByte_of_ne hc, unstuff.eq_2]
    intro r heq
    exact absurd heq hc

@[simp] theorem skipData_zero (s : List UInt8) : skipData 0 s = s := by cases s <;> rfl

@[simp] theorem skipData_nil (n : Nat) : skipData n [] = [] := by cases n <;> rfl

@[simp] theorem skipData_succ_cons (n : Nat) (c : UInt8) (rest : List UInt8) :
    skipData (n + 1) (c :: rest) = skipData n (afterByte c rest) := rfl

theorem skipData_add : ∀ (m n : Nat) (s : List UInt8), skipData (m + n) s = skipData n (skipData m s)
  | 0, n, s => by simp
  | m + 1, n, [] => by simp
  | m + 1, n, c :: rest => by
      rw [Nat.add_right_comm, skipData_succ_cons, skipData_succ_cons, skipData_add m n]

/-- The reader takes back what the writer stuffed. -/
theorem unstuff_stuff_append : ∀ (d rest : List UInt8), unstuff (stuff d ++ rest) = d ++ unstuff rest
  | [], rest => rfl
  | b :: d, rest => by
      rw [stuff]
      split
      next hb =>
        subst hb
        rw [List.cons_append, List.cons_append, unstuff_cons, afterByte_zero,
          unstuff_stuff_append d, List.cons_append]
      next hb =>
        rw [List.cons_append, unstuff_cons, afterByte_of_ne hb, unstuff_stuff_append d,
          List.cons_append]

theorem skipData_stuff_append : ∀ (d rest : List UInt8), skipData d.length (stuff d ++ rest) = rest
  | [], rest => by simp [stuff]
  | b :: d, rest => by
      rw [stuff, List.length_cons]
      split
      next hb =>
        subst hb
        rw [List.cons_append, List.cons_append, skipData_succ_cons, afterByte_zero,
          skipData_stuff_append d]
      next hb =>
        rw [List.cons_append, skipData_succ_cons, afterByte_of_ne hb, skipData_stuff_append d]

theorem stuff_append (xs ys : List UInt8) : stuff (xs ++ ys) = stuff xs ++ stuff ys := by
  induction xs with
  | nil => rfl
  | cons b xs ih =>
      rw [List.cons_append, stuff, stuff, ih]
      split <;> rfl

/-- The bytes of a position that data is skipped to are a suffix of it. -/
theorem skipData_suffix : ∀ (n : Nat) (s : List UInt8), skipData n s <:+ s
  | 0, s => by simp
  | n + 1, [] => by simp
  | n + 1, c :: rest => by
      have hafter : afterByte c rest <:+ c :: rest := by
        unfold afterByte
        split
        next rest' => exact (List.suffix_cons _ _).trans (List.suffix_cons _ _)
        · exact List.suffix_cons _ _
      exact (skipData_suffix n _).trans hafter

/-- The data bytes in front of a position that data is skipped to. -/
theorem unstuff_take_skipData : ∀ (n : Nat) (s : List UInt8),
    unstuff (s.take (s.length - (skipData n s).length)) = (unstuff s).take n
  | 0, s => by simp
  | n + 1, [] => by simp
  | n + 1, c :: rest => by
      have ih := unstuff_take_skipData n (afterByte c rest)
      have hle := (skipData_suffix n (afterByte c rest)).length_le
      rw [skipData_succ_cons, unstuff_cons, List.take_succ_cons, ← ih]
      by_cases hz : c = 0xff ∧ ∃ rest', rest = 0x00 :: rest'
      · obtain ⟨rfl, rest', rfl⟩ := hz
        rw [afterByte_zero] at hle ⊢
        have hlen : (0xff :: 0x00 :: rest').length - (skipData n rest').length =
            rest'.length - (skipData n rest').length + 2 := by
          rw [List.length_cons, List.length_cons]
          omega
        rw [hlen, List.take_succ_cons, List.take_succ_cons, unstuff_cons, afterByte_zero]
      · have hnext : ∀ l, l <+: rest → afterByte c l = l := by
          intro l hl
          by_cases hc : c = 0xff
          · cases l with
            | nil => subst hc; rfl
            | cons m l' =>
                obtain ⟨t, rfl⟩ := hl
                have hm : m ≠ 0x00 := fun hm => hz ⟨hc, l' ++ t, by rw [hm, List.cons_append]⟩
                exact afterByte_cons_of_ne c hm l'
          · exact afterByte_of_ne hc l
        rw [hnext rest List.prefix_rfl] at hle ⊢
        have hlen : (c :: rest).length - (skipData n rest).length =
            rest.length - (skipData n rest).length + 1 := by
          rw [List.length_cons]
          omega
        rw [hlen, List.take_succ_cons, unstuff_cons, hnext _ (List.take_prefix ..)]

end Stuffing
