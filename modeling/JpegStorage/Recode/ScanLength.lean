import JpegStorage.Lib.Assignment
import JpegStorage.Recode.CodeBuffers
import JpegStorage.Recode.Counts
import JpegStorage.Recode.Ranking

/-!
# The length of the new scans

`cal_new_huffman` makes its codes without a look at the counts: `one_size_max` says how many
there are of each size.  The counts only say which symbol gets which of the codes.  Nothing
better can be done with these codes (`new_scans_shortest`): however they are given to the
symbols, the second pass hands on no fewer bits for the images.  This holds when the sort is
an exact one and both passes see the same symbols.
-/

namespace Recode

open Canonical Baseline Run

/-! ## The bits handed on -/

/-- The number of bits `Write_New_Body` hands on for an image. -/
def handedBits (u : HuffValUseful) (priv : JdecPrivate) : Except Stop Nat :=
  match (writeNewBody u 0 priv).run (Scan.start priv (Writer.start [])) with
  | .ok _ s => .ok (s.out.handed.flatMap stringToBits).length
  | .error e _ => .error e

/-- The number of bits for all images. -/
def handedTotal (u : HuffValUseful) : List JdecPrivate → Except Stop Nat
  | [] => .ok 0
  | priv :: privs => do
      let n ← handedBits u priv
      let m ← handedTotal u privs
      pure (n + m)

/-- Each of the events has a string that the writer takes. -/
def HasStrings (u : HuffValUseful) (es : List Event) : Prop :=
  ∀ e ∈ es, ∃ str, eventString u e = .ok str ∧ str.length ≤ 16

section
variable {u : HuffValUseful} {priv : JdecPrivate} {codes : ScanCodes} {ivs : List McuInterval}

theorem HasStrings.append {es es' : List Event} :
    HasStrings u (es ++ es') ↔ HasStrings u es ∧ HasStrings u es' := List.forall_mem_append

theorem Writer.rst_handed (w : Writer) (last : Nat) : (w.rst last).handed = w.handed := by
  rw [Writer.rst]
  cases w.padByte <;> rfl

/-- The markers are not handed on. -/
theorem writeHooks_intervals_handed (k : Nat) {w : Writer} {base : List UInt8} {given : List Bool}
    (hw : w.Holds base given) (hstr : HasStrings u (intervalEvents ivs)) :
    ∃ w', ((writeHooks u).intervals k ivs).run w = .ok () w' ∧
      w'.handed.flatMap stringToBits =
        w.handed.flatMap stringToBits ++ (intervalEvents ivs).flatMap (eventBits u) := by
  induction ivs generalizing k w base given with
  | nil => exact ⟨w, rfl, (List.append_nil _).symm⟩
  | cons iv ivs ih =>
      obtain ⟨hfirst, hrest⟩ := HasStrings.append.mp hstr
      obtain ⟨w₁, strs, hrun₁, hhanded, hbits, hholds⟩ := writeHooks_events hw hfirst
      have hsum : w₁.handed.flatMap stringToBits =
          w.handed.flatMap stringToBits ++ iv.events.flatMap (eventBits u) := by
        rw [hhanded, List.flatMap_append, hbits]
      cases ivs with
      | nil =>
          refine ⟨w₁, hrun₁, ?_⟩
          rw [hsum, intervalEvents, List.flatMap_singleton]
      | cons iv' ivs =>
          obtain ⟨_, _, _, hempty, _⟩ := hholds.rst (k % 8)
          obtain ⟨w₂, hrun₂, hhanded₂⟩ := ih (k + 1) hempty hrest
          have hrst : ((writeHooks u).rst (k % 8)).run w₁ = .ok () (w₁.rst (k % 8)) := rfl
          refine ⟨w₂, by rw [Hooks.intervals, bind_ok hrun₁, bind_ok hrst, hrun₂], ?_⟩
          have hsplit : intervalEvents (iv :: iv' :: ivs) = iv.events ++ intervalEvents (iv' :: ivs) :=
            List.flatMap_cons
          rw [hhanded₂, Writer.rst_handed, hsum, hsplit, List.flatMap_append, List.append_assoc]

/-- The second pass hands on the bits of the events. -/
theorem Walked.handedBits (h : Walked priv codes ivs) (hstr : HasStrings u (intervalEvents ivs)) :
    handedBits u priv = .ok ((intervalEvents ivs).flatMap (eventBits u)).length := by
  obtain ⟨w, hev, hhanded⟩ :=
    writeHooks_intervals_handed 0 (Writer.start_holds ([] ++ sosHeader 0)) hstr
  obtain ⟨blocks, s, hrun, hout, _⟩ := h.run hev
  rw [Recode.handedBits, writeNewBody_run h.tables u 0 [], hrun]
  dsimp only
  rw [hout, hhanded]
  rfl

/-- The first pass counts them, if it makes no round too many. -/
theorem Walked.passOneImage (h : Walked priv codes ivs) (hwidth : priv.width % 8 ≠ 0)
    (v : HuffVal) : passOneImage priv v = .ok (v.plus (intervalEvents ivs)) := by
  obtain ⟨blocks, s, hrun, hout, _⟩ := h.run (countHooks_intervals 0 ivs v)
  have hcols : mcuCols (priv.width + 1) 8 = mcuCols priv.width 8 := by
    have hsucc := mcuCols_succ priv.width
    rw [if_neg hwidth] at hsucc
    exact Nat.le_antisymm (Nat.le_of_sub_eq_zero hsucc) (mcuCols_mono priv.width)
  have hsync : (modify (resync priv) : EStateM Stop (Scan HuffVal) PUnit).run
      (Scan.start priv v) = .ok ⟨⟩ (resync priv (Scan.start priv v)) := rfl
  rw [Recode.passOneImage, tinyjpegDecode, h.tables.sampling]
  dsimp only
  rw [hcols, bind_ok hsync, hrun]
  exact congrArg Except.ok hout

end

/-! ## What the passes see -/

/-- What both passes see of some images. -/
structure Seen (images : List JdecPrivate) (es : List Event) : Prop where
  /-- The first pass counts the symbols. -/
  counts : ∀ v, passOne images v = .ok (v.plus es)
  /-- The second pass hands on the bits. -/
  handed : ∀ u, HasStrings u es → handedTotal u images = .ok (es.flatMap (eventBits u)).length
  /-- The symbols are bytes of the four tables. -/
  symbols : ∀ type code, Event.symbol type code ∈ es → type < 4 ∧ code < 256
  /-- With codes for the symbols there are strings for all events. -/
  strings : ∀ u, HasCodes u es → HasStrings u es

theorem Seen.nil : Seen [] [] where
  counts _ := rfl
  handed _ _ := rfl
  symbols _ _ hmem := absurd hmem List.not_mem_nil
  strings _ _ _ hmem := absurd hmem List.not_mem_nil

theorem Walked.seen_cons {priv : JdecPrivate} {codes : ScanCodes} {ivs : List McuInterval}
    (h : Walked priv codes ivs) (hwidth : priv.width % 8 ≠ 0) {images : List JdecPrivate}
    {es : List Event} (hes : Seen images es) : Seen (priv :: images) (intervalEvents ivs ++ es) := by
  obtain ⟨interval, hscan⟩ := h.scan
  have hcomponent : ∀ iv : McuInterval, ∀ c ∈ iv.components, c < 3 := fun _ _ hc =>
    ConformingTables.component_lt (mem_mcuComponents hc)
  constructor
  case counts =>
    intro v
    rw [passOne, h.passOneImage hwidth v, HuffVal.plus_append]
    exact hes.counts _
  case handed =>
    intro u hstr
    obtain ⟨hfirst, hrest⟩ := HasStrings.append.mp hstr
    rw [handedTotal, h.handedBits hfirst, hes.handed u hrest, List.flatMap_append,
      List.length_append]
    rfl
  case symbols =>
    intro type code hmem
    rcases List.mem_append.mp hmem with hfirst | hrest
    · obtain ⟨iv, hiv, hmem⟩ := List.mem_flatMap.mp hfirst
      exact unitEvents_symbol h.tables (hcomponent iv) (readUnits_ok (hscan.coded iv hiv).scan)
        type code hmem
    · exact hes.symbols type code hrest
  case strings =>
    intro u hcodes
    refine HasStrings.append.mpr ⟨fun e he => ?_, hes.strings u fun type code hmem =>
      hcodes type code (List.mem_append_right _ hmem)⟩
    obtain ⟨iv, hiv, he⟩ := List.mem_flatMap.mp he
    refine unitEvents_strings ?_ (readUnits_ok (hscan.coded iv hiv).scan) ?_ e he
    · exact fun c hc v code hmem =>
        h.tables.dcSize c (hcomponent iv c hc) v (List.of_mem_zip hmem).1
    · exact fun type code hmem => hcodes type code
        (List.mem_append_left _ (List.mem_flatMap.mpr ⟨iv, hiv, hmem⟩))

theorem exists_seen {images : List JdecPrivate}
    (h : ∀ im ∈ images, ConformingImage im ∧ im.width % 8 ≠ 0) : ∃ es, Seen images es := by
  induction images with
  | nil => exact ⟨[], .nil⟩
  | cons im images ih =>
      obtain ⟨es, hes⟩ := ih fun im hmem => h im (List.mem_cons_of_mem _ hmem)
      obtain ⟨himage, hwidth⟩ := h im (List.mem_cons_self ..)
      obtain ⟨codes, ivs, hwalked⟩ := himage.walked
      exact ⟨_, hwalked.seen_cons hwidth hes⟩

/-! ## The length -/

/-- The bits of the magnitudes among some events. -/
def magnitudeBits : List Event → Nat
  | [] => 0
  | .symbol _ _ :: es => magnitudeBits es
  | .magnitude value :: es => (tobin value).length + magnitudeBits es

/-- The bits of the codes of counted symbols of a table. -/
def codeLengths (u : HuffValUseful) (v : HuffVal) (type : Nat) : Nat :=
  ∑ code ∈ Finset.range 256, v type code * (newCode u type code).length

theorem codeLengths_plus (u : HuffValUseful) (v : HuffVal) {t c : Nat} (hc : c < 256) (type : Nat) :
    codeLengths u (v.plus [.symbol t c]) type =
      codeLengths u v type + if t = type then (newCode u t c).length else 0 := by
  have hone : ∑ code ∈ Finset.range 256,
      [Event.symbol t c].count (.symbol type code) * (newCode u type code).length =
        if t = type then (newCode u t c).length else 0 := by
    by_cases ht : t = type
    · subst ht
      rw [if_pos rfl, Finset.sum_eq_single_of_mem c (Finset.mem_range.mpr hc) fun code _ hne => ?_]
      · rw [List.count_singleton_self, Nat.one_mul]
      · rw [List.count_eq_zero_of_not_mem fun hmem => hne ?_, Nat.zero_mul]
        injection List.mem_singleton.mp hmem
    · rw [if_neg ht]
      refine Finset.sum_eq_zero fun code _ => ?_
      rw [List.count_eq_zero_of_not_mem fun hmem => ht ?_, Nat.zero_mul]
      injection List.mem_singleton.mp hmem with htype
      exact htype.symm
  rw [codeLengths, codeLengths, ← hone, ← Finset.sum_add_distrib]
  refine Finset.sum_congr rfl fun code _ => ?_
  rw [HuffVal.plus, Nat.add_mul]

/-- The bits of events are those of the magnitudes and those of the codes. -/
theorem length_eventBits (u : HuffValUseful) {es : List Event}
    (hes : ∀ type code, Event.symbol type code ∈ es → type < 4 ∧ code < 256) :
    (es.flatMap (eventBits u)).length = magnitudeBits es +
      ∑ type ∈ Finset.range 4, codeLengths u (HuffVal.plus (fun _ _ => 0) es) type := by
  induction es with
  | nil =>
      rw [List.flatMap_nil, List.length_nil, magnitudeBits, Nat.zero_add]
      refine (Finset.sum_eq_zero fun type _ => Finset.sum_eq_zero fun code _ => ?_).symm
      rw [HuffVal.plus, List.count_nil, Nat.zero_mul]
  | cons e es ih =>
      have hrest := ih fun type code hmem => hes type code (List.mem_cons_of_mem _ hmem)
      rw [List.flatMap_cons, List.length_append, hrest]
      cases e with
      | magnitude value =>
          have hsame : HuffVal.plus (fun _ _ => 0) (.magnitude value :: es) =
              HuffVal.plus (fun _ _ => 0) es := by
            funext type code
            rw [HuffVal.plus, HuffVal.plus, List.count_cons_of_ne Event.noConfusion]
          have hbits : (eventBits u (.magnitude value)).length = (tobin value).length :=
            length_stringToBits _
          rw [hsame, hbits, magnitudeBits, Nat.add_assoc]
      | symbol t c =>
          obtain ⟨ht, hc⟩ := hes t c (List.mem_cons_self ..)
          have hplus : HuffVal.plus (fun _ _ => 0) (.symbol t c :: es) =
              (HuffVal.plus (fun _ _ => 0) es).plus [.symbol t c] := by
            rw [← HuffVal.plus_append]
            funext type code
            rw [HuffVal.plus, HuffVal.plus, (List.perm_append_singleton (.symbol t c) es).count_eq]
          have hsum : ∑ type ∈ Finset.range 4,
              (if t = type then (newCode u t c).length else 0) = (newCode u t c).length := by
            rw [Finset.sum_ite_eq, if_pos (Finset.mem_range.mpr ht)]
          rw [hplus, Finset.sum_congr rfl fun type _ => codeLengths_plus u _ hc type,
            Finset.sum_add_distrib, hsum, magnitudeBits, newCode]
          omega

/-! ## Codes given to symbols -/

/-- `Find_New_code` finds a code of the quota for each of some symbols, and no two the same. -/
def HuffValUseful.Assigns (u : HuffValUseful) (type : Nat) (symbols : Set Nat) : Prop :=
  ∃ place : Nat → Nat, Set.InjOn place symbols ∧ ∀ code ∈ symbols,
    ∃ e, quotaCodes[place code]? = some e ∧ findNewCode u code type = .ok (codeString e)

/-- The sizes of the codes of the quota. -/
def quotaSizes : List Nat := quotaCodes.map Prod.snd

theorem quotaSizes_sorted : quotaSizes.Pairwise (· ≤ ·) := by
  rw [quotaSizes, quotaCodes, codes, map_snd_assign]
  exact lengthsOf_sorted _

theorem newCode_length {u : HuffValUseful} {type code i : Nat} {e : Nat × Nat}
    (he : quotaCodes[i]? = some e) (hfind : findNewCode u code type = .ok (codeString e)) :
    (newCode u type code).length = quotaSizes.getD i 0 := by
  have hsize : quotaSizes.getD i 0 = e.2 := by
    rw [quotaSizes, List.getD_eq_getElem?_getD, List.getElem?_map, he]
    rfl
  rw [newCode, eventBits, eventString, hfind, hsize]
  exact (length_stringToBits _).trans (length_codeString e)

section
variable {u u' : HuffValUseful} {v : HuffVal} {type : Nat} {cell : Nat → Int}

/-- The symbols of a table take the codes of the quota as they come. -/
theorem OneHufftype.Built.assigned (h : (u.table type).Built cell) {code : Nat}
    (hcode : code ∈ (u.table type).symbols) :
    ∃ e, quotaCodes[(u.table type).symbols.idxOf code]? = some e ∧
      findNewCode u code type = .ok (codeString e) := by
  obtain ⟨hbyte, hused⟩ := h.mem_symbols.mp hcode
  obtain ⟨c, hfind, hmem⟩ := findNewCode_built h hbyte hused
  rw [h.decodeTable_eq] at hmem
  obtain ⟨i, hi, hget⟩ := List.mem_iff_getElem.mp hmem
  rw [List.getElem_zip, Prod.mk.injEq, List.getElem_map, List.getElem_take] at hget
  obtain ⟨hsymbol, hbits⟩ := hget
  rw [List.length_zip, List.length_map, List.length_take] at hi
  have hindex : (u.table type).symbols.idxOf code = i := by
    rw [← hsymbol, h.nodup_symbols.idxOf_getElem]
  have hquota : i < quotaCodes.length := by omega
  refine ⟨quotaCodes[i], by rw [hindex, List.getElem?_eq_getElem hquota], ?_⟩
  rw [hfind, ← hbits, codeString]

theorem OneHufftype.Built.mem_symbols_iff (h : (u.table type).Built fun i => countCell (v type i))
    (hlt : ∀ code < 256, v type code < 2 ^ 31) (hbyte : ∀ code, v type code ≠ 0 → code < 256)
    {code : Nat} : code ∈ (u.table type).symbols ↔ v type code ≠ 0 := by
  rw [h.mem_symbols]
  constructor
  · rintro ⟨_, hcell⟩ hzero
    rw [hzero] at hcell
    exact hcell rfl
  · intro hcount
    have hcode := hbyte code hcount
    exact ⟨hcode, countCell_ne_zero (Nat.one_le_iff_ne_zero.mpr hcount) (hlt code hcode)⟩

theorem OneHufftype.Built.assigns (h : (u.table type).Built fun i => countCell (v type i))
    (hlt : ∀ code < 256, v type code < 2 ^ 31) (hbyte : ∀ code, v type code ≠ 0 → code < 256) :
    u.Assigns type {code | v type code ≠ 0} := by
  refine ⟨(u.table type).symbols.idxOf, fun a ha b _ heq => ?_, fun code hcode => ?_⟩
  · exact (List.idxOf_inj ((h.mem_symbols_iff hlt hbyte).mpr ha)).mp heq
  · exact h.assigned ((h.mem_symbols_iff hlt hbyte).mpr hcode)

/-- Codes that go to the symbols in the order of their counts are the cheapest. -/
theorem codeLengths_le (h : (u.table type).Built fun i => countCell (v type i))
    (hlt : ∀ code < 256, v type code < 2 ^ 31) (hbyte : ∀ code, v type code ≠ 0 → code < 256)
    (hsorted : (u.table type).symbols.Pairwise fun a b => v type b ≤ v type a)
    (hassigns : u'.Assigns type {code | v type code ≠ 0}) :
    codeLengths u v type ≤ codeLengths u' v type := by
  have hmem : ∀ {code}, code ∈ (u.table type).symbols ↔ v type code ≠ 0 :=
    h.mem_symbols_iff hlt hbyte
  -- symbols without a count cost nothing
  have hsum : ∀ w : HuffValUseful, codeLengths w v type =
      ((u.table type).symbols.map fun code => v type code * (newCode w type code).length).sum := by
    intro w
    rw [codeLengths, ← List.sum_toFinset _ h.nodup_symbols]
    refine (Finset.sum_subset (fun code hcode => ?_) fun code _ hcode => ?_).symm
    · exact Finset.mem_range.mpr (h.mem_symbols.mp (List.mem_toFinset.mp hcode)).1
    · rw [List.mem_toFinset, hmem, not_not] at hcode
      rw [hcode, Nat.zero_mul]
  obtain ⟨place, hplace, hcodes⟩ := hassigns
  have hbest := Assignment.sum_mul_le h.nodup_symbols hsorted quotaSizes_sorted
    (hplace.mono fun code hcode => hmem.mp hcode) fun code hcode => by
      obtain ⟨e, he, _⟩ := hcodes code (hmem.mp hcode)
      rw [quotaSizes, List.length_map]
      exact (List.getElem?_eq_some_iff.mp he).1
  rw [hsum u, hsum u']
  refine (Nat.le_of_eq ?_).trans (hbest.trans (Nat.le_of_eq ?_))
  · refine congrArg List.sum (List.map_congr_left fun code hcode => ?_)
    obtain ⟨e, he, hfind⟩ := h.assigned hcode
    rw [newCode_length he hfind]
  · refine congrArg List.sum (List.map_congr_left fun code hcode => ?_)
    obtain ⟨e, he, hfind⟩ := hcodes code (hmem.mp hcode)
    rw [newCode_length he hfind]

end

/-! ## Ranked tables -/

/-- With an exact sort the symbols of a tree descend. -/
theorem buildTree_ranked {cell : Nat → Int} {buf buf' : CharBuf} {t : OneHufftype}
    (hrun : buildTree (collectAll cell) buf = .ok (t, buf'))
    (hexact : Exact (placed ((usedSymbols cell (List.range 256)).map cell))) :
    t.symbols.Pairwise fun a b => cell b ≤ cell a := by
  have hle := length_usedSymbols_le cell
  rw [collectAll_eq] at hrun
  generalize usedSymbols cell (List.range 256) = used at hle hrun hexact
  have hnums : (used.map cell).length = used.length := List.length_map ..
  obtain ⟨num, buf₁, hrun₁⟩ := buildTree_eq (List.replicate (256 - used.length) 0)
    (List.replicate (256 - used.length) 0) (List.replicate 256 none) hnums hle rfl buf
  obtain ⟨rfl, _⟩ := Prod.mk.inj (Except.ok.inj (hrun₁.symm.trans hrun))
  have hranked := hexact.ranked hnums.symm
  have hindex := bubbleSort_perm (used.map cell)
  have hsame : (moveArray (used ++ List.replicate (256 - used.length) 0)
      (bubbleSort (used.map cell)).2).map cell = (ranked (used.map cell)).map Prod.fst := by
    rw [hranked.relates, moveArray, List.map_map, bubbleSort_eq]
    refine List.map_congr_left fun k hk => ?_
    rw [bubbleSort_eq] at hindex
    have hlt := List.mem_range.mp (hindex.mem_iff.mp hk)
    rw [List.length_map] at hlt
    rw [Function.comp_apply, List.getD_append _ _ _ _ hlt, List.getD_eq_getElem _ _ hlt,
      List.getD_eq_getElem _ _ (hnums.symm ▸ hlt), List.getElem_map]
  have hlength : (moveArray (used ++ List.replicate (256 - used.length) 0)
      (bubbleSort (used.map cell)).2).length = used.length := by
    rw [moveArray, List.length_map, hindex.length_eq, List.length_range, hnums]
  have hsorted := hranked.sorted
  rw [← hsame] at hsorted
  rw [OneHufftype.symbols, List.take_left' hlength]
  exact List.pairwise_map.mp hsorted

/-- Each table is the tree of the one it was built from. -/
theorem buildTrees_tables {u u' : HuffValUseful} {buf buf' : CharBuf}
    (hrun : buildTrees u buf = .ok (u', buf')) :
    ∀ type < 4, ∃ b b', buildTree (u.table type) b = .ok (u'.table type, b') := by
  rw [buildTrees] at hrun
  obtain ⟨⟨u₁, buf₁⟩, hdc0, hrun⟩ := Run.except_bind_eq_ok.mp hrun
  obtain ⟨⟨u₂, buf₂⟩, hdc1, hrun⟩ := Run.except_bind_eq_ok.mp hrun
  obtain ⟨⟨u₃, buf₃⟩, hac0, hac1⟩ := Run.except_bind_eq_ok.mp hrun
  obtain ⟨⟨dc0, b₁⟩, htree₁, hdc0⟩ := Run.except_bind_eq_ok.mp hdc0
  obtain ⟨⟨dc1, b₂⟩, htree₂, hdc1⟩ := Run.except_bind_eq_ok.mp hdc1
  obtain ⟨⟨ac0, b₃⟩, htree₃, hac0⟩ := Run.except_bind_eq_ok.mp hac0
  obtain ⟨⟨ac1, b₄⟩, htree₄, hac1⟩ := Run.except_bind_eq_ok.mp hac1
  cases hdc0
  cases hdc1
  cases hac0
  dsimp only at hac1
  split at hac1
  · cases hac1
  · cases hac1
    intro type htype
    obtain rfl | rfl | rfl | rfl : type = 0 ∨ type = 1 ∨ type = 2 ∨ type = 3 := by omega
    · exact ⟨_, _, htree₁⟩
    · exact ⟨_, _, htree₂⟩
    · exact ⟨_, _, htree₃⟩
    · exact ⟨_, _, htree₄⟩

/-! ## The shortest scans -/

/-- Counts that are sorted exactly: an `int` holds them, and a `float` those that have a larger
one behind them. -/
structure HuffVal.Sortable (v : HuffVal) : Prop where
  /-- The `int`. -/
  small : ∀ type < 4, ∀ code < 256, v type code < 2 ^ 31
  /-- The `float`. -/
  float : ∀ type < 4, ∀ code' < 256, ∀ code < code', v type code < v type code' →
    float32 (v type code) = v type code

theorem countCell_of_lt {n : Nat} (h : n < 2 ^ 31) : countCell n = n :=
  Int.bmod_eq_of_le_mul_two (by omega) (by omega)

theorem HuffVal.Sortable.exact {v : HuffVal} (h : v.Sortable) {type : Nat} (htype : type < 4) :
    Exact (placed ((usedSymbols (fun i => countCell (v type i)) (List.range 256)).map
      fun i => countCell (v type i))) := by
  rw [exact_placed, List.pairwise_map]
  refine List.Pairwise.filter _ (List.pairwise_lt_range.imp_of_mem fun ha hb hab => ?_)
  have hb' := List.mem_range.mp hb
  rw [countCell_of_lt (h.small type htype _ (List.mem_range.mp ha)),
    countCell_of_lt (h.small type htype _ hb')]
  exact fun hlt => h.float type htype _ hb' _ hab (Int.ofNat_lt.mp hlt)

/-- A `float` holds the numbers up to 2^24. -/
theorem HuffVal.sortable_of_le {v : HuffVal} (h : ∀ type code, v type code ≤ 2 ^ 24) :
    v.Sortable where
  small type _ code _ := (h type code).trans_lt (by decide)
  float type _ code' _ code _ _ := by
    have hdvd := @dvd_of_form (v type code) 0 (h type code)
    rw [pow_zero, Nat.mul_one] at hdvd
    rw [float32_eq, Int.natAbs_natCast, round24_of_dvd hdvd]
    exact Int.sign_mul_natAbs (v type code)

/-- Whichever codes of the quota the symbols had, the second pass would hand on no fewer bits
for the images. -/
theorem new_scans_shortest {images : List JdecPrivate}
    (himages : ∀ im ∈ images, ConformingImage im ∧ im.width % 8 ≠ 0)
    (hcounts : ∀ v, passOne images (fun _ _ => 0) = .ok v → v.Sortable) (buf : CharBuf) :
    ∃ v u buf' n, passOne images (fun _ _ => 0) = .ok v ∧
      buildTrees (buildHuffValUseful v) buf = .ok (u, buf') ∧ handedTotal u images = .ok n ∧
      (∀ type < 4, u.Assigns type {code | v type code ≠ 0}) ∧
      ∀ u', (∀ type < 4, u'.Assigns type {code | v type code ≠ 0}) →
        ∃ n', handedTotal u' images = .ok n' ∧ n ≤ n' := by
  obtain ⟨es, hes⟩ := exists_seen himages
  have hpass := hes.counts fun _ _ => 0
  have hsort := hcounts _ hpass
  generalize hv : HuffVal.plus (fun _ _ => 0) es = v at hpass hsort
  obtain ⟨u, buf', htrees, hbuilt⟩ := buildTrees_spec (fun type i => countCell (v type i)) buf
  have hused : ∀ {type code}, v type code ≠ 0 ↔ Event.symbol type code ∈ es := by
    intro type code
    rw [← hv, HuffVal.plus, Nat.zero_add, ← Nat.pos_iff_ne_zero]
    exact List.count_pos_iff
  have hbyte : ∀ type code, v type code ≠ 0 → code < 256 := fun type code hcount =>
    (hes.symbols type code (hused.mp hcount)).2
  have hcodes : HasCodes u es := hasCodes_of_counts hbuilt hes.symbols
    (fun type code hmem => Nat.one_le_iff_ne_zero.mpr (hused.mpr hmem)) hsort.small
  have hstrings := hes.strings u hcodes
  refine ⟨v, u, buf', _, hpass, htrees, hes.handed u hstrings, fun type htype => ?_,
    fun u' hassigns => ?_⟩
  · exact (hbuilt type htype).assigns (hsort.small type htype) (hbyte type)
  · have hstrings' : HasStrings u' es := by
      intro e he
      cases e with
      | magnitude value => exact hstrings _ he
      | symbol type code =>
          obtain ⟨place, _, hplace⟩ := hassigns type (hes.symbols type code he).1
          obtain ⟨e, hget, hfind⟩ := hplace code (hused.mpr he)
          refine ⟨_, hfind, ?_⟩
          rw [length_codeString]
          have hsize : e.2 ∈ quotaSizes := List.mem_map_of_mem (List.mem_of_getElem? hget)
          rw [quotaSizes, quotaCodes, codes, map_snd_assign] at hsize
          exact (mem_lengthsOf hsize).2
    refine ⟨_, hes.handed u' hstrings', ?_⟩
    rw [length_eventBits u hes.symbols, length_eventBits u' hes.symbols, hv]
    refine Nat.add_le_add_left (Finset.sum_le_sum fun type htype => ?_) _
    have htype' := Finset.mem_range.mp htype
    refine codeLengths_le (hbuilt type htype') (hsort.small type htype') (hbyte type) ?_
      (hassigns type htype')
    obtain ⟨b, b', htree⟩ := buildTrees_tables htrees type htype'
    rw [collectTables_table _ htype'] at htree
    have hranked := buildTree_ranked htree (hsort.exact htype')
    refine hranked.imp_of_mem fun ha hb hle => ?_
    rw [countCell_of_lt (hsort.small type htype' _ ((hbuilt type htype').mem_symbols.mp ha).1),
      countCell_of_lt (hsort.small type htype' _ ((hbuilt type htype').mem_symbols.mp hb).1)] at hle
    exact Int.ofNat_le.mp hle

/-- The small image with one column less. -/
def narrowImage : JdecPrivate := { smallImage with width := 7 }

theorem narrowImage_conforms : Conforms narrowImage smallCodes [0x90, 0x7f] []
    [⟨⟨2, [false, true]⟩, [⟨0, []⟩]⟩, ⟨⟨0, []⟩, [⟨0, []⟩]⟩, ⟨⟨0, []⟩, [⟨0, []⟩]⟩]
    [true, true, true, true, true, true, true] where
  tables :=
    { sampling := rfl
      dcFits := smallImage_tables.dcFits
      acFits := smallImage_tables.acFits
      dcSize := smallImage_tables.dcSize }
  restart := rfl
  stream := smallImage_conforms.stream
  scan := smallImage_conforms.scan
  padding := smallImage_conforms.padding

theorem new_scans_shortest_narrow :
    ∃ v u buf' n, passOne [narrowImage] (fun _ _ => 0) = .ok v ∧
      buildTrees (buildHuffValUseful v) (fun _ => '0') = .ok (u, buf') ∧
      handedTotal u [narrowImage] = .ok n ∧
      (∀ type < 4, u.Assigns type {code | v type code ≠ 0}) ∧
      ∀ u', (∀ type < 4, u'.Assigns type {code | v type code ≠ 0}) →
        ∃ n', handedTotal u' [narrowImage] = .ok n' ∧ n ≤ n' := by
  have hwidth : narrowImage.width % 8 ≠ 0 := by decide
  have hwalked := narrowImage_conforms.walked
  refine new_scans_shortest (fun im him => ?_) (fun v hv => ?_) fun _ => '0'
  · rw [List.mem_singleton.mp him]
    exact ⟨Or.inl ⟨smallCodes, _, _, _, _, narrowImage_conforms⟩, hwidth⟩
  · rw [(hwalked.seen_cons hwidth .nil).counts] at hv
    cases hv
    refine HuffVal.sortable_of_le fun type code => ?_
    rw [HuffVal.plus, Nat.zero_add]
    exact List.count_le_length.trans (by decide)

end Recode
