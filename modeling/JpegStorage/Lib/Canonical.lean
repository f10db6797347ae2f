import JpegStorage.Lib.Bits
import Mathlib.Algebra.Order.BigOperators.Group.List
import Mathlib.Data.List.GetD

/-!
# Canonical prefix codes

A code table is a list of symbols with their bit strings.  `readSymbol` decodes
one symbol by looking for the entry whose string the input begins with.  On a
prefix-free table it inverts `encode`, one symbol at a time (`readSymbol_append`)
and it never invents a symbol (`readSymbol_sound`).  `readBitwise` does the same a
bit at a time.

The canonical code of a list of lengths gives consecutive numbers to codes of
one length and appends zeros when the length grows (`assign`).  `assign_gap`
says what that leaves between two codes: the later code, cut to the length of
the earlier one, is a larger number.  So the table is prefix-free as soon as
every number fits its length (`table_prefixFree`), which a Kraft sum of at most
one makes sure of (`fits_of_kraft`).
-/

namespace Canonical

/-! ## Code tables -/

/-- Symbols with their codes. -/
abbrev Table (α : Type) := List (α × List Bool)

/-- No code begins with another. -/
def PrefixFree {α : Type} (tbl : Table α) : Prop :=
  tbl.Pairwise fun a b => ¬ a.2 <+: b.2 ∧ ¬ b.2 <+: a.2

/-- Decode one symbol: the entry the input begins with, and the rest. -/
def readSymbol {α : Type} : Table α → List Bool → Option (α × List Bool)
  | [], _ => none
  | e :: tbl, bits =>
      if e.2 <+: bits then some (e.1, bits.drop e.2.length) else readSymbol tbl bits

theorem readSymbol_sound {α : Type} : ∀ {tbl : Table α} {bits rest : List Bool} {a : α},
    readSymbol tbl bits = some (a, rest) → ∃ c, (a, c) ∈ tbl ∧ bits = c ++ rest
  | [], _, _, _, h => by simp [readSymbol] at h
  | e :: tbl, bits, rest, a, h => by
      rw [readSymbol] at h
      by_cases hp : e.2 <+: bits
      · rw [if_pos hp, Option.some.injEq, Prod.mk.injEq] at h
        obtain ⟨rfl, rfl⟩ := h
        obtain ⟨t, rfl⟩ := hp
        exact ⟨e.2, List.mem_cons_self .., by simp⟩
      · rw [if_neg hp] at h
        obtain ⟨c, hc, hbits⟩ := readSymbol_sound h
        exact ⟨c, List.mem_cons_of_mem _ hc, hbits⟩

theorem readSymbol_append {α : Type} : ∀ {tbl : Table α} {a : α} {c : List Bool},
    PrefixFree tbl → (a, c) ∈ tbl → ∀ rest, readSymbol tbl (c ++ rest) = some (a, rest)
  | [], _, _, _, h, _ => by cases h
  | e :: tbl, a, c, hpf, h, rest => by
      rw [PrefixFree, List.pairwise_cons] at hpf
      rw [readSymbol]
      cases List.mem_cons.mp h with
      | inl he =>
          subst he
          rw [if_pos (List.prefix_append c rest)]
          simp
      | inr htl =>
          have hno : ¬ e.2 <+: c ++ rest := by
            intro hp
            rcases List.prefix_or_prefix_of_prefix hp (List.prefix_append c rest) with h1 | h1
            · exact (hpf.1 _ htl).1 h1
            · exact (hpf.1 _ htl).2 h1
          rw [if_neg hno]
          exact readSymbol_append hpf.2 htl rest

/-- In a prefix-free table only one entry matches an input. -/
theorem code_unique {α : Type} {tbl : Table α} (hpf : PrefixFree tbl) {a b : α} {c d : List Bool}
    (ha : (a, c) ∈ tbl) (hb : (b, d) ∈ tbl) {bits : List Bool} (hc : c <+: bits) (hd : d <+: bits) :
    a = b ∧ c = d := by
  obtain ⟨s, rfl⟩ := hc
  obtain ⟨t, ht⟩ := hd
  have h1 := readSymbol_append hpf ha s
  rw [← ht, readSymbol_append hpf hb t, Option.some.injEq, Prod.mk.injEq] at h1
  refine ⟨h1.1.symm, ?_⟩
  rw [h1.2] at ht
  exact (List.append_cancel_right ht).symm

/-- Decode one symbol bit by bit: take bits until those seen are a code. -/
def readBitwise {α : Type} (tbl : Table α) : List Bool → List Bool → Option (α × List Bool)
  | seen, [] => (tbl.find? fun e => e.2 = seen).map fun e => (e.1, [])
  | seen, b :: bits =>
      match tbl.find? fun e => e.2 = seen with
      | some e => some (e.1, b :: bits)
      | none => readBitwise tbl (seen ++ [b]) bits

/-- Bits that begin a longer code are no code. -/
theorem find?_begun {α : Type} {tbl : Table α} (hpf : PrefixFree tbl) {a : α} {seen : List Bool}
    {b : Bool} {more : List Bool} (h : (a, seen ++ b :: more) ∈ tbl) :
    (tbl.find? fun e => e.2 = seen) = none := by
  rw [List.find?_eq_none]
  intro e he heq
  rw [decide_eq_true_eq] at heq
  have hsame := (code_unique hpf h he List.prefix_rfl (heq ▸ List.prefix_append ..)).2
  rw [heq] at hsame
  exact absurd (List.append_right_eq_self.mp hsame) (List.cons_ne_nil b more)

/-- The code that was seen is found. -/
theorem find?_code {α : Type} {tbl : Table α} (hpf : PrefixFree tbl) {a : α} {c : List Bool}
    (h : (a, c) ∈ tbl) : ∃ e, (tbl.find? fun e => e.2 = c) = some e ∧ e.1 = a := by
  cases hf : tbl.find? fun e => e.2 = c with
  | none =>
      have hno := List.find?_eq_none.mp hf _ h
      simp at hno
  | some e =>
      have heq := List.find?_some hf
      rw [decide_eq_true_eq] at heq
      have he : (e.1, c) ∈ tbl := heq ▸ List.mem_of_find?_eq_some hf
      exact ⟨e, rfl, (code_unique hpf he h List.prefix_rfl List.prefix_rfl).1⟩

/-- Bit by bit, the rest of a code is taken and nothing else. -/
theorem readBitwise_append {α : Type} {tbl : Table α} (hpf : PrefixFree tbl) {a : α}
    (rest : List Bool) : ∀ {more seen : List Bool}, (a, seen ++ more) ∈ tbl →
      readBitwise tbl seen (more ++ rest) = some (a, rest)
  | [], seen, h => by
      rw [List.append_nil] at h
      obtain ⟨e, hf, rfl⟩ := find?_code hpf h
      cases rest with
      | nil => simp [readBitwise, hf]
      | cons b rest => simp [readBitwise, hf]
  | b :: more, seen, h => by
      have hsplit : seen ++ b :: more = (seen ++ [b]) ++ more := by simp
      rw [List.cons_append, readBitwise, find?_begun hpf h]
      exact readBitwise_append hpf rest (hsplit ▸ h)

/-! ## Lengths from counts -/

/-- `n` codes of length `l` for each count `n`, the length growing by one. -/
def lengthsFrom : Nat → List Nat → List Nat
  | _, [] => []
  | l, n :: ns => List.replicate n l ++ lengthsFrom (l + 1) ns

/-- The code lengths that a list of counts for the lengths `1, 2, …` describes. -/
def lengthsOf (counts : List Nat) : List Nat := lengthsFrom 1 counts

theorem length_lengthsFrom : ∀ (l : Nat) (ns : List Nat), (lengthsFrom l ns).length = ns.sum
  | _, [] => rfl
  | l, n :: ns => by
      rw [lengthsFrom, List.length_append, List.length_replicate, length_lengthsFrom (l + 1) ns,
        List.sum_cons]

theorem length_lengthsOf (counts : List Nat) : (lengthsOf counts).length = counts.sum :=
  length_lengthsFrom 1 counts

theorem mem_lengthsFrom : ∀ {l : Nat} {ns : List Nat} {k : Nat},
    k ∈ lengthsFrom l ns → l ≤ k ∧ k < l + ns.length
  | _, [], _, h => by cases h
  | l, n :: ns, k, h => by
      rw [lengthsFrom, List.mem_append] at h
      rw [List.length_cons]
      cases h with
      | inl h =>
          obtain ⟨_, rfl⟩ := List.mem_replicate.mp h
          omega
      | inr h =>
          have := mem_lengthsFrom h
          omega

theorem lengthsFrom_sorted : ∀ (l : Nat) (ns : List Nat), (lengthsFrom l ns).Pairwise (· ≤ ·)
  | _, [] => List.Pairwise.nil
  | l, n :: ns => by
      rw [lengthsFrom, List.pairwise_append]
      refine ⟨List.pairwise_replicate.mpr (Or.inr (Nat.le_refl l)),
        lengthsFrom_sorted (l + 1) ns, fun a ha b hb => ?_⟩
      obtain ⟨_, rfl⟩ := List.mem_replicate.mp ha
      have := (mem_lengthsFrom hb).1
      omega

theorem lengthsOf_sorted (counts : List Nat) : (lengthsOf counts).Pairwise (· ≤ ·) :=
  lengthsFrom_sorted 1 counts

theorem count_lengthsFrom (k : Nat) : ∀ (l : Nat) (ns : List Nat),
    (lengthsFrom l ns).count k = if l ≤ k then ns.getD (k - l) 0 else 0
  | _, [] => by simp [lengthsFrom]
  | l, n :: ns => by
      rw [lengthsFrom, List.count_append, count_lengthsFrom k (l + 1) ns, List.count_replicate]
      rcases Nat.lt_trichotomy l k with h | h | h
      · have hsub : k - l = k - (l + 1) + 1 := by omega
        have hge : l + 1 ≤ k := h
        simp [Nat.ne_of_lt h, Nat.le_of_lt h, hge, hsub]
      · subst h
        simp
      · simp [Nat.ne_of_gt h, Nat.not_le.mpr h, show ¬ l + 1 ≤ k by omega]

/-- Counting sorted lengths and listing them again gives them back. -/
theorem lengthsOf_count {ls : List Nat} {m : Nat} (hs : ls.Pairwise (· ≤ ·))
    (hm : ∀ k ∈ ls, 1 ≤ k ∧ k ≤ m) :
    lengthsOf ((List.range m).map fun i => ls.count (i + 1)) = ls := by
  refine List.Perm.eq_of_pairwise (fun a b _ _ hab hba => Nat.le_antisymm hab hba)
    (lengthsOf_sorted _) hs ?_
  rw [List.perm_iff_count]
  intro k
  rw [lengthsOf, count_lengthsFrom]
  by_cases hk : 1 ≤ k ∧ k ≤ m
  · rw [if_pos hk.1, List.getD_eq_getElem _ _ (by simp; omega)]
    simp [Nat.sub_add_cancel hk.1]
  · have hout : k ∉ ls := fun h => hk (hm k h)
    rw [List.count_eq_zero_of_not_mem hout]
    split
    next h1 => rw [List.getD_eq_default _ _ (by simp; omega)]
    · rfl

theorem mem_lengthsOf {counts : List Nat} {k : Nat} (h : k ∈ lengthsOf counts) :
    1 ≤ k ∧ k ≤ counts.length := by
  have := mem_lengthsFrom h
  omega

/-! ## Code numbers -/

/-- Consecutive numbers from `code` on, with zeros appended where the length
grows.  `prev` is the length `code` is meant for.  The pairs are number and
length. -/
def assign : Nat → Nat → List Nat → List (Nat × Nat)
  | _, _, [] => []
  | code, prev, l :: ls =>
      (code <<< (l - prev), l) :: assign (code <<< (l - prev) + 1) l ls

/-- The canonical code of a list of lengths. -/
def codes (ls : List Nat) : List (Nat × Nat) := assign 0 0 ls

@[simp] theorem length_assign : ∀ (code prev : Nat) (ls : List Nat),
    (assign code prev ls).length = ls.length
  | _, _, [] => rfl
  | code, prev, l :: ls => by rw [assign, List.length_cons, length_assign, List.length_cons]

@[simp] theorem map_snd_assign : ∀ (code prev : Nat) (ls : List Nat),
    (assign code prev ls).map Prod.snd = ls
  | _, _, [] => rfl
  | code, prev, l :: ls => by rw [assign, List.map_cons, map_snd_assign]

@[simp] theorem length_codes (ls : List Nat) : (codes ls).length = ls.length :=
  length_assign 0 0 ls

/-- Fewer lengths give fewer codes and leave the others alone. -/
theorem assign_take : ∀ (code prev n : Nat) (ls : List Nat),
    assign code prev (ls.take n) = (assign code prev ls).take n
  | _, _, 0, _ => by simp [assign]
  | _, _, _ + 1, [] => by simp [assign]
  | code, prev, n + 1, l :: ls => by
      rw [List.take_succ_cons, assign, assign, List.take_succ_cons, assign_take]

theorem codes_take (n : Nat) (ls : List Nat) : codes (ls.take n) = (codes ls).take n :=
  assign_take 0 0 n ls

/-- Going on to the next length doubles the next free number. -/
theorem assign_next {code prev : Nat} : ∀ {ls : List Nat}, (∀ l ∈ ls, prev + 1 ≤ l) →
    assign code prev ls = assign (code * 2) (prev + 1) ls
  | [], _ => rfl
  | l :: ls, h => by
      have hl := h l (List.mem_cons_self ..)
      have hshift : code <<< (l - prev) = (code * 2) <<< (l - (prev + 1)) := by
        rw [Nat.shiftLeft_eq, Nat.shiftLeft_eq, show l - prev = l - (prev + 1) + 1 by omega, pow_succ]
        ring
      rw [assign, assign, hshift]

/-- Every later number is at least the next free one, shifted to its length. -/
theorem le_of_mem_assign : ∀ {code prev : Nat} {ls : List Nat}, (∀ l ∈ ls, prev ≤ l) →
    ls.Pairwise (· ≤ ·) → ∀ e ∈ assign code prev ls, code * 2 ^ (e.2 - prev) ≤ e.1 ∧ prev ≤ e.2
  | _, _, [], _, _, e, he => by cases he
  | code, prev, l :: ls, hprev, hs, e, he => by
      have hl := hprev l (List.mem_cons_self ..)
      rw [List.pairwise_cons] at hs
      rw [assign, Nat.shiftLeft_eq] at he
      cases List.mem_cons.mp he with
      | inl h => subst h; exact ⟨Nat.le_refl _, hl⟩
      | inr h =>
          obtain ⟨hge, hle⟩ := le_of_mem_assign hs.1 hs.2 e h
          refine ⟨?_, by omega⟩
          calc code * 2 ^ (e.2 - prev)
              = code * 2 ^ (l - prev) * 2 ^ (e.2 - l) := by
                rw [Nat.mul_assoc, ← pow_add]; congr 2; omega
            _ ≤ (code * 2 ^ (l - prev) + 1) * 2 ^ (e.2 - l) :=
                Nat.mul_le_mul_right _ (Nat.le_succ _)
            _ ≤ e.1 := hge

/-- Between two codes in order: the later one, cut to the length of the earlier
one, is a larger number. -/
theorem assign_gap : ∀ {code prev : Nat} {ls : List Nat}, ls.Pairwise (· ≤ ·) →
    (assign code prev ls).Pairwise fun a b => a.2 ≤ b.2 ∧ (a.1 + 1) * 2 ^ (b.2 - a.2) ≤ b.1
  | _, _, [], _ => List.Pairwise.nil
  | code, prev, l :: ls, hs => by
      rw [List.pairwise_cons] at hs
      rw [assign, List.pairwise_cons]
      refine ⟨fun e he => ?_, assign_gap hs.2⟩
      obtain ⟨hge, hle⟩ := le_of_mem_assign hs.1 hs.2 e he
      exact ⟨hle, hge⟩

/-- Every number is below the power its length allows. -/
def Fits (ls : List Nat) : Prop := ∀ e ∈ codes ls, e.1 < 2 ^ e.2

instance (ls : List Nat) : Decidable (Fits ls) :=
  inferInstanceAs (Decidable (∀ e ∈ codes ls, e.1 < 2 ^ e.2))

/-- Fewer lengths fit if more do. -/
theorem Fits.take {ls : List Nat} (h : Fits ls) (n : Nat) : Fits (ls.take n) := by
  intro e he
  rw [codes_take] at he
  exact h e (List.mem_of_mem_take he)

/-! ## The Kraft sum -/

/-- The Kraft sum of code lengths up to `m`, in units of `2 ^ m`. -/
def kraft (m : Nat) (ls : List Nat) : Nat := (ls.map fun l => 2 ^ (m - l)).sum

@[simp] theorem kraft_cons (m l : Nat) (ls : List Nat) :
    kraft m (l :: ls) = 2 ^ (m - l) + kraft m ls := by
  rw [kraft, List.map_cons, List.sum_cons, kraft]

/-- With fewer codes the Kraft sum is smaller. -/
theorem kraft_le_of_sublist {m : Nat} {ls ls' : List Nat} (h : ls.Sublist ls') :
    kraft m ls ≤ kraft m ls' :=
  (h.map fun l => 2 ^ (m - l)).sum_le_sum fun _ _ => Nat.zero_le _

/-- The codes given out so far take no more than their share of the Kraft sum. -/
theorem le_kraft_of_mem_assign {m : Nat} : ∀ {code prev : Nat} {ls : List Nat},
    (∀ l ∈ ls, prev ≤ l ∧ l ≤ m) → ls.Pairwise (· ≤ ·) → ∀ e ∈ assign code prev ls,
      (e.1 + 1) * 2 ^ (m - e.2) ≤ code * 2 ^ (m - prev) + kraft m ls
  | _, _, [], _, _, e, he => by cases he
  | code, prev, l :: ls, hls, hs, e, he => by
      obtain ⟨hprev, hm⟩ := hls l (List.mem_cons_self ..)
      rw [List.pairwise_cons] at hs
      have hhead : (code * 2 ^ (l - prev) + 1) * 2 ^ (m - l) =
          code * 2 ^ (m - prev) + 2 ^ (m - l) := by
        rw [Nat.add_mul, Nat.mul_assoc, ← pow_add, Nat.one_mul,
          show l - prev + (m - l) = m - prev by omega]
      rw [assign, Nat.shiftLeft_eq] at he
      rw [kraft_cons, ← Nat.add_assoc, ← hhead]
      cases List.mem_cons.mp he with
      | inl h =>
          subst h
          exact Nat.le_add_right _ _
      | inr h =>
          exact le_kraft_of_mem_assign
            (fun k hk => ⟨hs.1 k hk, (hls k (List.mem_cons_of_mem _ hk)).2⟩) hs.2 e h

/-- Lengths whose Kraft sum is at most one have room for all their codes. -/
theorem fits_of_kraft {m : Nat} {ls : List Nat} (hm : ∀ l ∈ ls, l ≤ m) (hs : ls.Pairwise (· ≤ ·))
    (h : kraft m ls ≤ 2 ^ m) : Fits ls := by
  intro e he
  have hle := le_kraft_of_mem_assign (fun l hl => ⟨Nat.zero_le l, hm l hl⟩) hs e he
  have hmem : e.2 ∈ (codes ls).map Prod.snd := List.mem_map_of_mem he
  rw [codes, map_snd_assign] at hmem
  have hsplit : 2 ^ m = 2 ^ e.2 * 2 ^ (m - e.2) := by
    rw [← pow_add, Nat.add_sub_cancel' (hm _ hmem)]
  rw [Nat.zero_mul, Nat.zero_add] at hle
  exact Nat.lt_of_succ_le (Nat.le_of_mul_le_mul_right (hsplit ▸ hle.trans h) (Nat.two_pow_pos _))

/-! ## The canonical table -/

/-- The code string of a number and a length. -/
def codeBits (e : Nat × Nat) : List Bool := Bits.ofNat e.2 e.1

@[simp] theorem length_codeBits (e : Nat × Nat) : (codeBits e).length = e.2 :=
  Bits.length_ofNat _ _

/-- The table of a list of counts and a list of symbols: what a decoder that is
told only these rebuilds. -/
def table {α : Type} (counts : List Nat) (vals : List α) : Table α :=
  vals.zip ((codes (lengthsOf counts)).map codeBits)

/-- A gap between the numbers keeps the strings apart. -/
theorem not_prefix_of_gap {a b : Nat × Nat} (hb : b.1 < 2 ^ b.2) (hle : a.2 ≤ b.2)
    (hgap : (a.1 + 1) * 2 ^ (b.2 - a.2) ≤ b.1) :
    ¬ codeBits a <+: codeBits b ∧ ¬ codeBits b <+: codeBits a := by
  have hpos : 0 < 2 ^ (b.2 - a.2) := by positivity
  have hcut : a.1 + 1 ≤ b.1 / 2 ^ (b.2 - a.2) := (Nat.le_div_iff_mul_le hpos).mpr hgap
  have hlt : b.1 / 2 ^ (b.2 - a.2) < 2 ^ a.2 := by
    rw [Nat.div_lt_iff_lt_mul hpos, ← pow_add, Nat.add_sub_cancel' hle]
    exact hb
  have hne : ¬ codeBits a <+: codeBits b := by
    intro hp
    have heq : codeBits a = (codeBits b).take a.2 := by
      simpa using List.prefix_iff_eq_take.mp hp
    rw [codeBits, codeBits, Bits.ofNat_take hle] at heq
    have := Bits.ofNat_injective (by omega) hlt heq
    omega
  refine ⟨hne, fun hp => ?_⟩
  have hlen := hp.length_le
  simp only [length_codeBits] at hlen
  exact hne ((hp.eq_of_length (by simp; omega)) ▸ List.prefix_rfl)

theorem codes_prefixFree {ls : List Nat} (hs : ls.Pairwise (· ≤ ·)) (hf : Fits ls) :
    (codes ls).Pairwise fun a b =>
      ¬ codeBits a <+: codeBits b ∧ ¬ codeBits b <+: codeBits a := by
  have hgap : (codes ls).Pairwise _ := assign_gap hs
  refine hgap.imp_of_mem ?_
  intro a b _ hb h
  exact not_prefix_of_gap (hf b hb) h.1 h.2

theorem pairwise_zip_right {α β : Type} {R : β → β → Prop} : ∀ {xs : List α} {ys : List β},
    ys.Pairwise R → (xs.zip ys).Pairwise fun a b => R a.2 b.2
  | [], _, _ => by simp
  | _ :: _, [], _ => by simp
  | x :: xs, y :: ys, h => by
      rw [List.pairwise_cons] at h
      rw [List.zip_cons_cons, List.pairwise_cons]
      exact ⟨fun e he => h.1 _ (List.of_mem_zip he).2, pairwise_zip_right h.2⟩

/-- A canonical table whose numbers fit is prefix-free. -/
theorem table_prefixFree {α : Type} {counts : List Nat} (hf : Fits (lengthsOf counts))
    (vals : List α) : PrefixFree (table counts vals) := by
  have h := codes_prefixFree (lengthsOf_sorted counts) hf
  refine pairwise_zip_right (R := fun c d => ¬ c <+: d ∧ ¬ d <+: c) ?_
  rw [List.pairwise_map]
  exact h

/-- The codes of a canonical table have lengths `1 … counts.length`. -/
theorem length_of_mem_table {α : Type} {counts : List Nat} {vals : List α} {a : α}
    {c : List Bool} (h : (a, c) ∈ table counts vals) : 1 ≤ c.length ∧ c.length ≤ counts.length := by
  obtain ⟨e, he, rfl⟩ := List.mem_map.mp (List.of_mem_zip h).2
  rw [length_codeBits]
  have hmem : e.2 ∈ (codes (lengthsOf counts)).map Prod.snd := List.mem_map_of_mem he
  rw [codes, map_snd_assign] at hmem
  exact mem_lengthsOf hmem

end Canonical
