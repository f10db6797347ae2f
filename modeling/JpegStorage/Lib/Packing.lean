import Mathlib.Algebra.GroupWithZero.Nat
import Mathlib.Data.List.GetD
import Mathlib.Data.List.Induction
import Mathlib.Data.List.Nodup

/-!
# Packing keyed items into packs

A packing is a sequence of packs, the last of them open.  A pack is a sequence of
items, each with a key, and no key is in two places.  An item is added behind the
last one of the open pack, or the open pack is closed and another one opened.

`At` says where an item is: in which pack, and at which position of the pack's
elements.  It gives the elements back (`At.slice`), it is one place for a key
(`At.unique`), items of a pack do not overlap (`At.disjoint`) and they leave no
element out (`at_covers`).
-/

namespace Packing

section
variable {κ α : Type}

/-- Items with their keys, in order. -/
abbrev Pack (κ α : Type) := List (κ × List α)

/-- The elements of a pack. -/
def content (pack : Pack κ α) : List α := pack.flatMap Prod.snd

@[simp] theorem content_nil : content ([] : Pack κ α) = [] := rfl

theorem content_cons (k : κ) (d : List α) (pack : Pack κ α) :
    content ((k, d) :: pack) = d ++ content pack := rfl

theorem content_append (p q : Pack κ α) : content (p ++ q) = content p ++ content q :=
  List.flatMap_append

@[simp] theorem content_singleton (k : κ) (d : List α) : content [(k, d)] = d :=
  List.append_nil _

/-- The keys of packs. -/
def keys (packs : List (Pack κ α)) : List κ := (packs.map (List.map Prod.fst)).flatten

theorem keys_append_singleton (packs : List (Pack κ α)) (pack : Pack κ α) :
    keys (packs ++ [pack]) = keys packs ++ pack.map Prod.fst := by
  rw [keys, List.map_append, List.flatten_append, List.map_singleton, List.flatten_singleton]
  rfl

/-- Packs, the last one open. -/
structure Packs (κ α : Type) where
  /-- The closed packs, oldest first. -/
  closed : List (Pack κ α)
  /-- The open pack. -/
  current : Pack κ α
  /-- No key is in two places. -/
  nodup : (keys (closed ++ [current])).Nodup

namespace Packs

/-- All packs. -/
def packs (P : Packs κ α) : List (Pack κ α) := P.closed ++ [P.current]

/-- One open pack without items. -/
def empty : Packs κ α := ⟨[], [], List.nodup_nil⟩

/-- The elements of pack `i`. -/
def contentOf (P : Packs κ α) (i : Nat) : List α := content (P.packs.getD i [])

/-- The item of a key is in pack `i` at position `off`. -/
def At (P : Packs κ α) (k : κ) (i off : Nat) (d : List α) : Prop :=
  ∃ pre post, P.packs[i]? = some (pre ++ (k, d) :: post) ∧ off = (content pre).length

/-- The key of an item. -/
def Has (P : Packs κ α) (k : κ) : Prop := k ∈ keys P.packs

theorem packs_current (P : Packs κ α) : P.packs[P.closed.length]? = some P.current :=
  List.getElem?_concat_length

theorem packs_closed (P : Packs κ α) {i : Nat} (h : i < P.closed.length) :
    P.packs[i]? = P.closed[i]? := List.getElem?_append_left h

theorem length_packs (P : Packs κ α) : P.packs.length = P.closed.length + 1 := List.length_append

/-! ## Growing -/

/-- An item behind the last one of the open pack. -/
def add (P : Packs κ α) (k : κ) (d : List α) (h : ¬ P.Has k) : Packs κ α where
  closed := P.closed
  current := P.current ++ [(k, d)]
  nodup := by
    have hnodup := P.nodup
    rw [Has, packs, keys_append_singleton] at h
    rw [keys_append_singleton] at hnodup ⊢
    rw [List.map_append, ← List.append_assoc]
    refine List.nodup_append.mpr ⟨hnodup, List.nodup_cons.mpr ⟨List.not_mem_nil, .nil⟩, ?_⟩
    intro a ha b hb heq
    obtain rfl := List.mem_singleton.mp hb
    exact h (heq ▸ ha)

/-- The open pack is closed. -/
def rotate (P : Packs κ α) : Packs κ α where
  closed := P.closed ++ [P.current]
  current := []
  nodup := by
    rw [keys_append_singleton, List.map_nil, List.append_nil]
    exact P.nodup

theorem contentOf_current (P : Packs κ α) : P.contentOf P.closed.length = content P.current := by
  rw [contentOf, List.getD_eq_getElem?_getD, packs_current, Option.getD_some]

theorem contentOf_closed (P : Packs κ α) {i : Nat} (h : i < P.closed.length) :
    P.contentOf i = content P.closed[i] := by
  rw [contentOf, List.getD_eq_getElem?_getD, packs_closed P h, List.getElem?_eq_getElem h,
    Option.getD_some]

/-- A closed pack does not change. -/
theorem contentOf_add (P : Packs κ α) {k : κ} {d : List α} (h : ¬ P.Has k) {i : Nat}
    (hi : i < P.closed.length) : (P.add k d h).contentOf i = P.contentOf i := by
  rw [contentOf_closed P hi, contentOf_closed (P.add k d h) hi]
  rfl

/-- Closing the open pack changes no pack. -/
theorem contentOf_rotate (P : Packs κ α) {i : Nat} (hi : i < P.rotate.closed.length) :
    P.rotate.contentOf i = P.contentOf i := by
  rw [contentOf_closed P.rotate hi, contentOf, List.getD_eq_getElem P.packs [] hi]
  rfl

/-- A new item is where the open pack ended, and the others stay. -/
theorem at_add (P : Packs κ α) {k : κ} {d : List α} (h : ¬ P.Has k) {k' : κ} {i off : Nat}
    {d' : List α} : (P.add k d h).At k' i off d' ↔
      P.At k' i off d' ∨
        k' = k ∧ i = P.closed.length ∧ off = (content P.current).length ∧ d' = d := by
  constructor
  · rintro ⟨pre, post, hi, rfl⟩
    have hlt : i < P.closed.length + 1 := by
      have hlen := (List.getElem?_eq_some_iff.mp hi).1
      rwa [length_packs] at hlen
    by_cases hclosed : i < P.closed.length
    · refine Or.inl ⟨pre, post, ?_, rfl⟩
      rw [← hi, packs_closed P hclosed, packs_closed (P.add k d h) hclosed]
      rfl
    · obtain rfl : i = P.closed.length := by omega
      have hcur : P.current ++ [(k, d)] = pre ++ (k', d') :: post := by
        have hat := packs_current (P.add k d h)
        exact Option.some.inj (hat.symm.trans hi)
      induction post using List.reverseRecOn with
      | nil =>
          obtain ⟨hpre, hitem⟩ := List.append_inj' hcur rfl
          obtain ⟨hk, hd⟩ := Prod.mk.inj (List.cons.inj hitem).1
          exact Or.inr ⟨hk.symm, rfl, by rw [hpre], hd.symm⟩
      | append_singleton post x _ =>
          rw [← List.cons_append, ← List.append_assoc] at hcur
          obtain ⟨hpre, _⟩ := List.append_inj' hcur rfl
          exact Or.inl ⟨pre, post, by rw [packs_current, hpre], rfl⟩
  · intro hat
    cases hat with
    | inl hold =>
        obtain ⟨pre, post, hi, rfl⟩ := hold
        have hlt := (List.getElem?_eq_some_iff.mp hi).1
        rw [length_packs] at hlt
        by_cases hclosed : i < P.closed.length
        · refine ⟨pre, post, ?_, rfl⟩
          rw [← hi, packs_closed P hclosed, packs_closed (P.add k d h) hclosed]
          rfl
        · obtain rfl : i = P.closed.length := by omega
          rw [packs_current] at hi
          have hcur := packs_current (P.add k d h)
          refine ⟨pre, post ++ [(k, d)], ?_, rfl⟩
          rw [← List.cons_append, ← List.append_assoc, ← Option.some.inj hi]
          exact hcur
    | inr hnew =>
        obtain ⟨rfl, rfl, rfl, rfl⟩ := hnew
        exact ⟨P.current, [], packs_current (P.add k' d' h), rfl⟩

theorem at_rotate (P : Packs κ α) {k : κ} {i off : Nat} {d : List α} :
    P.rotate.At k i off d ↔ P.At k i off d := by
  have hpacks : P.rotate.packs = P.packs ++ [[]] := rfl
  constructor
  · rintro ⟨pre, post, hi, rfl⟩
    rw [hpacks, List.getElem?_append] at hi
    split at hi
    · exact ⟨pre, post, hi, rfl⟩
    · rw [List.getElem?_singleton] at hi
      split at hi
      · exact absurd (Option.some.inj hi).symm (by simp)
      · cases hi
  · rintro ⟨pre, post, hi, rfl⟩
    have hlt := (List.getElem?_eq_some_iff.mp hi).1
    exact ⟨pre, post, by rw [hpacks, List.getElem?_append_left hlt, hi], rfl⟩

/-! ## Places -/

theorem At.has {P : Packs κ α} {k : κ} {i off : Nat} {d : List α} (h : P.At k i off d) :
    P.Has k := by
  obtain ⟨pre, post, hi, _⟩ := h
  refine List.mem_flatten.mpr ⟨_, List.mem_map_of_mem (List.mem_of_getElem? hi), ?_⟩
  rw [List.map_append, List.map_cons]
  exact List.mem_append_right _ (List.mem_cons_self ..)

theorem Has.at {P : Packs κ α} {k : κ} (h : P.Has k) : ∃ i off d, P.At k i off d := by
  obtain ⟨ks, hks, hk⟩ := List.mem_flatten.mp h
  obtain ⟨pack, hpack, rfl⟩ := List.mem_map.mp hks
  obtain ⟨⟨k', d⟩, hitem, rfl⟩ := List.mem_map.mp hk
  obtain ⟨i, hi⟩ := List.mem_iff_getElem?.mp hpack
  obtain ⟨pre, post, rfl⟩ := List.append_of_mem hitem
  exact ⟨i, _, d, pre, post, hi, rfl⟩

/-- A key is in one place. -/
theorem At.unique {P : Packs κ α} {k : κ} {i i' off off' : Nat} {d d' : List α}
    (h : P.At k i off d) (h' : P.At k i' off' d') : i = i' ∧ off = off' ∧ d = d' := by
  obtain ⟨pre, post, hi, rfl⟩ := h
  obtain ⟨pre', post', hi', rfl⟩ := h'
  obtain ⟨hnodup, hdisjoint⟩ : (∀ ks ∈ P.packs.map (List.map Prod.fst), ks.Nodup) ∧
      (P.packs.map (List.map Prod.fst)).Pairwise List.Disjoint := List.nodup_flatten.mp P.nodup
  have hmem : k ∈ (pre ++ (k, d) :: post).map Prod.fst := by simp
  have hmem' : k ∈ (pre' ++ (k, d') :: post').map Prod.fst := by simp
  have hget : ∀ {j : Nat} {pack : Pack κ α}, P.packs[j]? = some pack →
      (P.packs.map (List.map Prod.fst))[j]? = some (pack.map Prod.fst) := by
    intro j pack hj
    rw [List.getElem?_map, hj]
    rfl
  have hsame : i = i' := by
    by_contra hne
    obtain ⟨hlt, hgi⟩ := List.getElem?_eq_some_iff.mp (hget hi)
    obtain ⟨hlt', hgi'⟩ := List.getElem?_eq_some_iff.mp (hget hi')
    rcases Nat.lt_or_gt_of_ne hne with hij | hij
    · have hdis := List.pairwise_iff_getElem.mp hdisjoint i i' hlt hlt' hij
      rw [hgi, hgi'] at hdis
      exact hdis hmem hmem'
    · have hdis := List.pairwise_iff_getElem.mp hdisjoint i' i hlt' hlt hij
      rw [hgi, hgi'] at hdis
      exact hdis hmem' hmem
  subst hsame
  have hpack : pre ++ (k, d) :: post = pre' ++ (k, d') :: post' :=
    Option.some.inj (hi.symm.trans hi')
  have hkeys := hnodup _ (List.mem_of_getElem? (hget hi))
  rw [List.map_append, List.map_cons, List.nodup_middle, List.nodup_cons, ← List.map_append]
    at hkeys
  have hnotin : ∀ x ∈ pre ++ post, x ≠ (k, d') := by
    intro x hx heq
    have hmem := List.mem_map_of_mem (f := Prod.fst) hx
    rw [heq] at hmem
    exact hkeys.1 hmem
  obtain ⟨hpre, hitem, _⟩ := (List.append_cons_inj_of_notMem
    (fun hx => hnotin _ (List.mem_append_left _ hx) rfl)
    (fun hx => hnotin _ (List.mem_append_right _ hx) rfl)).mp hpack
  exact ⟨rfl, by rw [hpre], (Prod.mk.inj hitem).2⟩

/-- The elements of an item. -/
theorem At.slice {P : Packs κ α} {k : κ} {i off : Nat} {d : List α} (h : P.At k i off d) :
    off + d.length ≤ (P.contentOf i).length ∧ ((P.contentOf i).drop off).take d.length = d := by
  obtain ⟨pre, post, hi, rfl⟩ := h
  have hcontent : P.contentOf i = content pre ++ (d ++ content post) := by
    rw [contentOf, List.getD_eq_getElem?_getD, hi, Option.getD_some, content_append]
    rfl
  rw [hcontent, List.drop_left, List.take_left]
  refine ⟨?_, rfl⟩
  rw [List.length_append, List.length_append]
  omega

/-- Of two items of a pack one ends where the other one begins, or before. -/
theorem content_front {pre mid post post' : Pack κ α} {k k' : κ} {d d' : List α} (hne : k ≠ k')
    (h : (k, d) :: post = mid ++ (k', d') :: post') :
    (content pre).length + d.length ≤ (content (pre ++ mid)).length := by
  cases mid with
  | nil => exact absurd (Prod.mk.inj (List.cons.inj h).1).1 hne
  | cons x mid =>
      obtain ⟨rfl, _⟩ := List.cons.inj h
      rw [content_append, content_cons, List.length_append, List.length_append]
      omega

/-- Items of a pack do not overlap. -/
theorem At.disjoint {P : Packs κ α} {k k' : κ} {i off off' : Nat} {d d' : List α}
    (h : P.At k i off d) (h' : P.At k' i off' d') (hne : k ≠ k') :
    off + d.length ≤ off' ∨ off' + d'.length ≤ off := by
  obtain ⟨pre, post, hi, rfl⟩ := h
  obtain ⟨pre', post', hi', rfl⟩ := h'
  have hpack : pre ++ (k, d) :: post = pre' ++ (k', d') :: post' :=
    Option.some.inj (hi.symm.trans hi')
  rcases List.append_eq_append_iff.mp hpack with ⟨mid, rfl, hmid⟩ | ⟨mid, rfl, hmid⟩
  · exact Or.inl (content_front hne hmid)
  · exact Or.inr (content_front hne.symm hmid)

/-- An item belongs to a pack up to the open one. -/
theorem At.le {P : Packs κ α} {k : κ} {i off : Nat} {d : List α} (h : P.At k i off d) :
    i ≤ P.closed.length := by
  obtain ⟨_, _, hi, _⟩ := h
  have hlt := (List.getElem?_eq_some_iff.mp hi).1
  rw [length_packs] at hlt
  exact Nat.le_of_lt_succ hlt

/-- The item of a key, wherever it is. -/
def Holds (P : Packs κ α) (k : κ) (d : List α) : Prop := ∃ i off, P.At k i off d

theorem has_iff_holds {P : Packs κ α} {k : κ} : P.Has k ↔ ∃ d, P.Holds k d := by
  constructor
  · intro h
    obtain ⟨i, off, d, hat⟩ := h.at
    exact ⟨d, i, off, hat⟩
  · rintro ⟨_, _, _, hat⟩
    exact hat.has

theorem Holds.unique {P : Packs κ α} {k : κ} {d d' : List α} (h : P.Holds k d)
    (h' : P.Holds k d') : d = d' := by
  obtain ⟨_, _, hat⟩ := h
  obtain ⟨_, _, hat'⟩ := h'
  exact (hat.unique hat').2.2

theorem holds_empty {k : κ} {d : List α} : ¬ (empty : Packs κ α).Holds k d := by
  rintro ⟨i, off, pre, post, hi, _⟩
  cases i with
  | zero =>
      have hnil : ([] : Pack κ α) = pre ++ (k, d) :: post := Option.some.inj hi
      cases pre <;> cases hnil
  | succ i => cases hi

theorem holds_rotate {P : Packs κ α} {k : κ} {d : List α} : P.rotate.Holds k d ↔ P.Holds k d := by
  constructor
  · rintro ⟨i, off, hat⟩
    exact ⟨i, off, P.at_rotate.mp hat⟩
  · rintro ⟨i, off, hat⟩
    exact ⟨i, off, P.at_rotate.mpr hat⟩

theorem holds_add {P : Packs κ α} {k : κ} {d : List α} (h : ¬ P.Has k) {k' : κ} {d' : List α} :
    (P.add k d h).Holds k' d' ↔ P.Holds k' d' ∨ k' = k ∧ d' = d := by
  constructor
  · rintro ⟨i, off, hat⟩
    cases (P.at_add h).mp hat with
    | inl hold => exact Or.inl ⟨i, off, hold⟩
    | inr hnew => exact Or.inr ⟨hnew.1, hnew.2.2.2⟩
  · intro hor
    cases hor with
    | inl hold =>
        obtain ⟨i, off, hat⟩ := hold
        exact ⟨i, off, (P.at_add h).mpr (Or.inl hat)⟩
    | inr hnew => exact ⟨_, _, (P.at_add h).mpr (Or.inr ⟨hnew.1, rfl, rfl, hnew.2⟩)⟩

theorem content_covers (pack : Pack κ α) {pos : Nat} (h : pos < (content pack).length) :
    ∃ pre k d post, pack = pre ++ (k, d) :: post ∧ (content pre).length ≤ pos ∧
      pos < (content pre).length + d.length := by
  induction pack generalizing pos with
  | nil => simp at h
  | cons x pack ih =>
      obtain ⟨k, d⟩ := x
      by_cases hlt : pos < d.length
      · exact ⟨[], k, d, pack, rfl, Nat.zero_le _, by simpa using hlt⟩
      · rw [content_cons, List.length_append] at h
        have hpos : pos - d.length < (content pack).length := by omega
        obtain ⟨pre, k', d', post, rfl, hle, hlt'⟩ := ih hpos
        have hlen : (content ((k, d) :: pre)).length = d.length + (content pre).length := by
          rw [content_cons, List.length_append]
        exact ⟨(k, d) :: pre, k', d', post, rfl, by omega, by omega⟩

/-- Every element of a pack belongs to an item. -/
theorem at_covers (P : Packs κ α) {i pos : Nat} (h : pos < (P.contentOf i).length) :
    ∃ k off d, P.At k i off d ∧ off ≤ pos ∧ pos < off + d.length := by
  cases hi : P.packs[i]? with
  | none =>
      rw [contentOf, List.getD_eq_getElem?_getD, hi] at h
      exact absurd h (Nat.not_lt_zero _)
  | some pack =>
      rw [contentOf, List.getD_eq_getElem?_getD, hi, Option.getD_some] at h
      obtain ⟨pre, k, d, post, rfl, hle, hlt⟩ := content_covers pack h
      exact ⟨k, _, d, ⟨pre, post, hi, rfl⟩, hle, hlt⟩

/-! ## All items -/

/-- The items of all packs. -/
def items (P : Packs κ α) : Pack κ α := P.packs.flatten

theorem mem_items {P : Packs κ α} {k : κ} {d : List α} : (k, d) ∈ P.items ↔ P.Holds k d := by
  constructor
  · intro hitem
    obtain ⟨pack, hpack, hmem⟩ := List.mem_flatten.mp hitem
    obtain ⟨i, hi⟩ := List.mem_iff_getElem?.mp hpack
    obtain ⟨pre, post, rfl⟩ := List.append_of_mem hmem
    exact ⟨i, _, pre, post, hi, rfl⟩
  · rintro ⟨i, off, pre, post, hi, _⟩
    exact List.mem_flatten.mpr ⟨_, List.mem_of_getElem? hi,
      List.mem_append_right _ (List.mem_cons_self ..)⟩

theorem nodup_keys_items (P : Packs κ α) : (P.items.map Prod.fst).Nodup := by
  rw [items, List.map_flatten]
  exact P.nodup

/-- The packs have the elements of the items. -/
theorem sum_length_contentOf (P : Packs κ α) :
    ((List.range P.packs.length).map fun i => (P.contentOf i).length).sum =
      (P.items.map fun item => item.2.length).sum := by
  have hpacks : (List.range P.packs.length).map P.contentOf = P.packs.map content := by
    refine List.ext_getElem (by simp) fun i hi _ => ?_
    rw [List.length_map, List.length_range] at hi
    rw [List.getElem_map, List.getElem_map, List.getElem_range, contentOf, List.getD_eq_getElem]
  have hcontent : ∀ pack : Pack κ α,
      (content pack).length = (pack.map fun item => item.2.length).sum := by
    intro pack
    rw [content, List.length_flatMap]
  calc ((List.range P.packs.length).map fun i => (P.contentOf i).length).sum
      = (((List.range P.packs.length).map P.contentOf).map List.length).sum := by
        rw [List.map_map]
        rfl
    _ = (P.packs.map fun pack => (pack.map fun item => item.2.length).sum).sum := by
        rw [hpacks, List.map_map]
        exact congrArg List.sum (List.map_congr_left fun pack _ => hcontent pack)
    _ = (P.items.map fun item => item.2.length).sum := by
        rw [items, List.map_flatten, List.sum_flatten, List.map_map]
        rfl

end Packs

end

end Packing
