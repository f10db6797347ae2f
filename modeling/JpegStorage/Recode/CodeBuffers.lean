import JpegStorage.Recode.Lossless

/-!
# The strings of codes and their buffers

Codes and magnitudes pass through six buffers of sixteen characters: `itoas`,
`itoastr`, the result of `tobin`, `cal_new_huffman_str`, the `code` of a symbol and
`write_code`.  With the zero at its end a string in them has at most fifteen
characters.

`treesStored` lists the strings the four trees are built with and `eventStored` those
of a symbol or a magnitude on its way to the file.  Magnitudes fit
(`tobinStored_length_le`).  The codes of the quota are up to eight bits long for the
first 21 symbols of a table and sixteen bits from there on, so `stringsFit_iff` counts
symbols.  The empty strings with which a buffer is cleared are not listed.
-/

namespace Recode

open Canonical Baseline

/-! ## What is stored -/

/-- The size of every buffer. -/
def codeBufferSize : Nat := 16

/-- A string and the zero at its end lie in a buffer. -/
def FitsBuffer (str : List Char) : Prop := str.length + 1 ≤ codeBufferSize

instance (str : List Char) : Decidable (FitsBuffer str) :=
  inferInstanceAs (Decidable (str.length + 1 ≤ codeBufferSize))

/-- The strings of `itoa`: the digits in `itoas`, low digit first, and `itoastr`. -/
def itoaStored (n : Int) : List (List Char) := [(itoaDigits 19 n.natAbs).map digitChar, itoa n]

/-- The strings of `tobin`: those of its call of `itoa`, and its result. -/
def tobinStored (n : Int) : List (List Char) := itoaStored (tobinLoop 64 n 0 1) ++ [tobin n]

/-- The strings of the loop of `cal_new_huffman`.  A round that makes a string calls
`tobin`, copies its result to `cal_new_huffman_str`, pads it there and copies it to
`arr[i]`. -/
def calLoopStored (quota : List Nat) : Nat → Nat → Nat → Nat → Nat → CharBuf → List (List Char)
  | _, 0, _, _, _, _ => []
  | 0, _ + 1, _, _, _, _ => []
  | fuel + 1, todo + 1, size, sizeNum, huffcode, buf =>
      match quota[size]? with
      | none => []
      | some max =>
          if sizeNum < max then
            let huffcode := if sizeNum ≠ 0 then huffcode + 1 else huffcode
            let str := tobin huffcode
            let buf := strcpy str buf
            let tempLen := (bufString buf).length
            let buf := if tempLen < size then padZeros size tempLen buf else buf
            tobinStored huffcode ++ [str, bufString buf, bufString buf] ++
              calLoopStored quota fuel todo size (sizeNum + 1) huffcode buf
          else
            let huffcode := if max ≠ 0 then huffcode + 1 else huffcode
            calLoopStored quota fuel (todo + 1) (size + 1) 0 (huffcode * 2) buf

/-- The strings of `cal_new_huffman`. -/
def calStored (quota : List Nat) (length : Nat) (buf : CharBuf) : List (List Char) :=
  calLoopStored quota (length + quota.length) length 1 0 0 (strcpy [] buf)

/-- The strings of the functions that build trees, called on tables one after another.
They go on with the buffer as it is. -/
def treesStored : List OneHufftype → CharBuf → List (List Char)
  | [], _ => []
  | t :: ts, buf =>
      calStored oneSizeMax t.count buf ++
        match buildTree t buf with
        | .error _ => []
        | .ok (_, buf) => treesStored ts buf

/-- The tables in the order in which `main` builds their trees. -/
def HuffValUseful.tables (u : HuffValUseful) : List OneHufftype := [u.dc0, u.dc1, u.ac0, u.ac1]

/-- The strings of `WriteNewData_process_Huffman_data_unit` for a symbol or a magnitude:
those of `tobin`, and what is copied to `write_code`. -/
def eventStored (u : HuffValUseful) (e : Event) : List (List Char) :=
  (match e with
    | .symbol _ _ => []
    | .magnitude value => tobinStored value) ++
    match eventString u e with
    | .ok str => [str]
    | .error _ => []

/-- A symbol of one of the four tables or a magnitude of at most fifteen bits. -/
def Event.Short : Event → Prop
  | .symbol type _ => type < 4
  | .magnitude value => value.natAbs < 2 ^ 15

/-- All strings fit their buffers when the trees of a histogram are built and codes and
magnitudes are written with them. -/
def StringsFit (v : HuffVal) : Prop :=
  ∀ buf, (∀ str ∈ treesStored (buildHuffValUseful v).tables buf, FitsBuffer str) ∧
    ∀ u buf', buildTrees (buildHuffValUseful v) buf = .ok (u, buf') →
      ∀ e : Event, e.Short → ∀ str ∈ eventStored u e, FitsBuffer str

/-! ## Magnitudes -/

theorem length_itoaDigits_le : ∀ (fuel w n : Nat),
    (itoaDigits fuel (decimalCoded (w + 1) n)).length ≤ w + 1
  | 0, _, _ => Nat.zero_le _
  | fuel + 1, w, n => by
      have hhigh : decimalCoded (w + 1) n / 10 = decimalCoded w (n / 2) := by
        rw [decimalCoded]
        omega
      rw [itoaDigits, List.length_cons, hhigh]
      cases w with
      | zero => simp [decimalCoded]
      | succ w =>
          have ih := length_itoaDigits_le fuel w (n / 2)
          split
          · omega
          · simp

/-- A number of `w` bits is stored with at most `w` characters. -/
theorem tobinStored_length_le {w : Nat} {n : Int} (h64 : w + 1 ≤ 64) (hn : n.natAbs < 2 ^ (w + 1))
    {str : List Char} (hstr : str ∈ tobinStored n) : str.length ≤ w + 1 := by
  have hloop : (tobinLoop 64 n 0 1).natAbs = decimalCoded (w + 1) n.natAbs := by
    rcases Int.natAbs_eq n with hpos | hneg
    · have h := tobinLoop_eq 64 1 0 1 hn h64 (Or.inl rfl)
      rw [one_mul, ← hpos] at h
      rw [h]
      simp
    · have h := tobinLoop_eq 64 (-1) 0 1 hn h64 (Or.inr rfl)
      rw [neg_one_mul, ← hneg] at h
      rw [h]
      simp
  have hdigits := length_itoaDigits_le 19 w n.natAbs
  have hitoa : (itoa (tobinLoop 64 n 0 1)).length ≤ w + 1 := by
    rw [itoa, hloop]
    split <;> simpa using hdigits
  simp only [tobinStored, itoaStored, List.mem_append, List.mem_cons, List.not_mem_nil, or_false,
    hloop] at hstr
  rcases hstr with (rfl | rfl) | rfl
  · simpa using hdigits
  · exact hitoa
  · rw [tobin]
    exact hitoa

/-! ## Codes -/

/-- The strings of a round of `cal_new_huffman` that makes this code. -/
def codeStored (e : Nat × Nat) : List (List Char) :=
  tobinStored e.1 ++ [codeString e, codeString e, codeString e]

theorem codeString_mem_codeStored (e : Nat × Nat) : codeString e ∈ codeStored e := by
  simp [codeStored]

/-- A code is stored with at most as many characters as it has bits. -/
theorem codeStored_length_le {e : Nat × Nat} (he : Printable e) {str : List Char}
    (hstr : str ∈ codeStored e) : str.length ≤ e.2 := by
  obtain ⟨h19, hlt, hlo⟩ := he
  obtain ⟨w, hw⟩ : ∃ w, e.2 = w + 1 := ⟨e.2 - 1, by omega⟩
  rw [codeStored, List.mem_append] at hstr
  rcases hstr with hstr | hstr
  · rw [hw] at hlt ⊢
    exact tobinStored_length_le (by omega) (by simpa using hlt) hstr
  · obtain rfl : str = codeString e := by simpa using hstr
    rw [length_codeString]

/-- The rounds store the strings of the codes they make. -/
theorem Rounds.calLoopStored_eq {quota : List Nat} {fuel todo size sizeNum code : Nat}
    {es : List (Nat × Nat)} (h : Rounds quota fuel todo size sizeNum code es) : ∀ buf : CharBuf,
    calLoopStored quota fuel todo size sizeNum code buf = es.flatMap codeStored := by
  induction h with
  | done => simp [calLoopStored]
  | @make _ _ size _ _ next _ _ hq hlt hnext hprint _ ih =>
      intro buf
      have hfull : ¬ (codeString (next, size)).length < size := by
        rw [length_codeString]
        exact Nat.lt_irrefl _
      rw [calLoopStored, hq]
      simp only [hlt, if_true, hnext, tobin_printable hprint, bufString_codeString hprint, hfull,
        if_false, ih, List.flatMap_cons]
      rfl
  | grow hq hge _ ih =>
      intro buf
      rw [calLoopStored, hq]
      simp only [hge, if_false, ih]

/-- The strings stored for the codes of a table. -/
theorem calStored_eq {n : Nat} (hn : n ≤ 256) (buf : CharBuf) :
    calStored oneSizeMax n buf = (quotaCodes.take n).flatMap codeStored := by
  have hlen : n ≤ quotaCodes.length := Nat.le_trans hn (quotaCodes_length.symm ▸ by decide)
  exact (codes_rounds hlen fun e he =>
    quotaCodes_printable e (List.mem_of_mem_take he)).calLoopStored_eq _

/-- The first 21 codes have at most eight bits. -/
theorem quotaCodes_short {n : Nat} (hn : n ≤ 21) {e : Nat × Nat} (he : e ∈ quotaCodes.take n) :
    e.2 ≤ 8 := by
  have hfirst : ∀ e ∈ quotaCodes.take 21, e.2 ≤ 8 := by decide +kernel
  exact hfirst e ((List.take_prefix_take_left hn).subset he)

/-- The next has sixteen. -/
theorem quotaCodes_long {n : Nat} (hn : 22 ≤ n) : ∃ e ∈ quotaCodes.take n, e.2 = 16 := by
  have hnext : ∃ e ∈ quotaCodes.take 22, e.2 = 16 := by decide +kernel
  obtain ⟨e, he, h16⟩ := hnext
  exact ⟨e, (List.take_prefix_take_left hn).subset he, h16⟩

/-- The strings of a table fit when it has at most 21 symbols. -/
theorem calStored_fit_iff {n : Nat} (hn : n ≤ 256) (buf : CharBuf) :
    (∀ str ∈ calStored oneSizeMax n buf, FitsBuffer str) ↔ n ≤ 21 := by
  rw [calStored_eq hn]
  constructor
  · intro h
    by_contra hlong
    obtain ⟨e, he, h16⟩ := quotaCodes_long (Nat.lt_of_not_le hlong)
    have hfit := h _ (List.mem_flatMap.mpr ⟨e, he, codeString_mem_codeStored e⟩)
    rw [FitsBuffer, length_codeString, h16, codeBufferSize] at hfit
    omega
  · intro h str hstr
    obtain ⟨e, he, hmem⟩ := List.mem_flatMap.mp hstr
    have hlen := codeStored_length_le (quotaCodes_printable e (List.mem_of_mem_take he)) hmem
    have h8 := quotaCodes_short h he
    rw [FitsBuffer, codeBufferSize]
    omega

/-! ## Trees -/

/-- Every code of a table that was collected or whose tree was built is one of the quota,
among the first as many as the table has symbols. -/
def OneHufftype.QuotaCoded (t : OneHufftype) : Prop :=
  ∀ str, some str ∈ t.code → ∃ e ∈ quotaCodes.take t.count, str = codeString e

theorem collectAll_quotaCoded (cell : Nat → Int) : (collectAll cell).QuotaCoded := by
  intro str h
  rw [collectAll_eq] at h
  cases List.eq_of_mem_replicate h

theorem buildTree_quotaCoded {t t' : OneHufftype} {buf buf' : CharBuf} (ht : t.QuotaCoded)
    (hcount : t.count ≤ 256) (h : buildTree t buf = .ok (t', buf')) :
    t'.QuotaCoded ∧ t'.count = t.count := by
  obtain ⟨buf₁, hcal⟩ := calNewHuffman_quota hcount buf
  simp only [buildTree, hcal, Except.ok.injEq, Prod.mk.injEq] at h
  obtain ⟨rfl, rfl⟩ := h
  refine ⟨fun str hstr => ?_, rfl⟩
  rcases List.mem_append.mp hstr with hnew | hold
  · simp only [List.map_map, List.mem_map, Function.comp, Option.some.injEq] at hnew
    obtain ⟨e, he, rfl⟩ := hnew
    exact ⟨e, he, rfl⟩
  · exact ht str (List.mem_of_mem_drop hold)

/-- Each table of finished trees is the tree of the table before. -/
theorem buildTrees_table {u u' : HuffValUseful} {buf buf' : CharBuf}
    (h : buildTrees u buf = .ok (u', buf')) (type : Nat) :
    ∃ b b', buildTree (u.table type) b = .ok (u'.table type, b') := by
  simp only [buildTrees, buildDC0Tree, buildDC1Tree, buildAC0Tree, buildAC1Tree, bind, pure,
    Except.bind, Except.pure] at h
  cases hdc0 : buildTree u.dc0 buf with
  | error e => simp [hdc0] at h
  | ok p₀ =>
      simp only [hdc0] at h
      cases hdc1 : buildTree u.dc1 p₀.2 with
      | error e => simp [hdc1] at h
      | ok p₁ =>
          simp only [hdc1] at h
          cases hac0 : buildTree u.ac0 p₁.2 with
          | error e => simp [hac0] at h
          | ok p₂ =>
              simp only [hac0] at h
              cases hac1 : buildTree u.ac1 p₂.2 with
              | error e => simp [hac1] at h
              | ok p₃ =>
                  simp only [hac1] at h
                  split at h
                  · cases h
                  · obtain ⟨rfl, -⟩ := Prod.mk.inj (Except.ok.inj h)
                    rcases type with _ | _ | _ | _
                    · exact ⟨_, _, hdc0⟩
                    · exact ⟨_, _, hdc1⟩
                    · exact ⟨_, _, hac0⟩
                    · exact ⟨_, _, hac1⟩

/-- The strings of the trees fit when no table has more than 21 symbols. -/
theorem treesStored_fit_iff : ∀ {ts : List OneHufftype} (buf : CharBuf),
    (∀ t ∈ ts, t.count ≤ 256) →
    ((∀ str ∈ treesStored ts buf, FitsBuffer str) ↔ ∀ t ∈ ts, t.count ≤ 21)
  | [], _, _ => by simp [treesStored]
  | t :: ts, buf, h => by
      have hcount := h t (List.mem_cons_self ..)
      obtain ⟨buf', hcal⟩ := calNewHuffman_quota hcount buf
      obtain ⟨t', buf₁, hbuild⟩ : ∃ t' buf₁, buildTree t buf = .ok (t', buf₁) := by
        simp only [buildTree, hcal]
        exact ⟨_, _, rfl⟩
      have ih := treesStored_fit_iff buf₁ fun t ht => h t (List.mem_cons_of_mem _ ht)
      rw [treesStored, hbuild]
      simp only [List.forall_mem_append, List.forall_mem_cons, calStored_fit_iff hcount, ih]

/-! ## Which histograms are served -/

/-- `Find_New_code` finds codes of the table only. -/
theorem findNewCode_mem {u : HuffValUseful} {type val : Nat} {code : List Char}
    (h : findNewCode u val type = .ok code) : some code ∈ (u.table type).code := by
  rw [findNewCode] at h
  split at h
  next => cases h
  next => cases h
  next hfind =>
    cases h
    exact (List.of_mem_zip (List.mem_of_find?_eq_some hfind)).2

/-- The symbols of a table that are used. -/
def HuffVal.used (v : HuffVal) (type : Nat) : List Nat :=
  usedSymbols (fun i => countCell (v type i)) (List.range 256)

theorem collectTables_table (cell : Nat → Nat → Int) {type : Nat} (h : type < 4) :
    (collectTables cell).table type = collectAll (cell type) := by
  generalize hall : collectAll = all
  rw [collectTables, hall]
  obtain rfl | rfl | rfl | rfl : type = 0 ∨ type = 1 ∨ type = 2 ∨ type = 3 := by omega
  all_goals rfl

theorem table_collected (v : HuffVal) {type : Nat} (h : type < 4) :
    (buildHuffValUseful v).table type = collectAll fun i => countCell (v type i) := by
  rw [buildHuffValUseful, collectTables_table _ h]

theorem count_table (v : HuffVal) {type : Nat} (h : type < 4) :
    ((buildHuffValUseful v).table type).count = (v.used type).length := by
  rw [table_collected v h, collectAll_eq, HuffVal.used]

theorem forall_tables (u : HuffValUseful) (P : OneHufftype → Prop) :
    (∀ t ∈ u.tables, P t) ↔ ∀ type < 4, P (u.table type) := by
  simp only [HuffValUseful.tables, List.forall_mem_cons]
  constructor
  · rintro ⟨h0, h1, h2, h3, -⟩ type htype
    match type, htype with
    | 0, _ => exact h0
    | 1, _ => exact h1
    | 2, _ => exact h2
    | 3, _ => exact h3
  · intro h
    exact ⟨h 0 (by decide), h 1 (by decide), h 2 (by decide), h 3 (by decide), by simp⟩

/-- The strings of the trees of a histogram fit when it uses at most 21 symbols of each table. -/
theorem treesStored_histogram_iff (v : HuffVal) (buf : CharBuf) :
    (∀ str ∈ treesStored (buildHuffValUseful v).tables buf, FitsBuffer str) ↔
      ∀ type < 4, (v.used type).length ≤ 21 := by
  rw [treesStored_fit_iff, forall_tables]
  · exact forall₂_congr fun type htype => by rw [count_table v htype]
  · rw [forall_tables]
    intro type htype
    rw [count_table v htype]
    exact length_usedSymbols_le _

/-- With short codes in all tables the strings of an event fit. -/
theorem eventStored_fit {v : HuffVal} {u : HuffValUseful} {buf buf' : CharBuf}
    (hcount : ∀ type < 4, (v.used type).length ≤ 21)
    (h : buildTrees (buildHuffValUseful v) buf = .ok (u, buf')) {e : Event} (he : e.Short)
    {str : List Char} (hstr : str ∈ eventStored u e) : FitsBuffer str := by
  cases e with
  | symbol type code =>
      rw [eventStored, eventString, List.nil_append] at hstr
      cases hfind : findNewCode u code type with
      | error e => simp [hfind] at hstr
      | ok found =>
          obtain rfl : str = found := by simpa [hfind] using hstr
          have h21 := hcount type he
          rw [← count_table v he] at h21
          have hcoded : ((buildHuffValUseful v).table type).QuotaCoded := by
            rw [table_collected v he]
            exact collectAll_quotaCoded _
          obtain ⟨b, b', hbuild⟩ := buildTrees_table h type
          obtain ⟨hcoded', hsame⟩ := buildTree_quotaCoded hcoded (h21.trans (by decide)) hbuild
          obtain ⟨e, hmem, rfl⟩ := hcoded' str (findNewCode_mem hfind)
          rw [hsame] at hmem
          have h8 := quotaCodes_short h21 hmem
          rw [FitsBuffer, length_codeString, codeBufferSize]
          omega
  | magnitude value =>
      have hmem : str ∈ tobinStored value := by
        rw [eventStored, eventString, List.mem_append] at hstr
        rcases hstr with hstr | hstr
        · exact hstr
        · obtain rfl : str = tobin value := by simpa using hstr
          rw [tobinStored]
          exact List.mem_append_right _ (List.mem_singleton_self _)
      have hlen := tobinStored_length_le (w := 14) (by decide) he hmem
      rw [FitsBuffer, codeBufferSize]
      omega

/-- All strings fit exactly when no more than 21 symbols of any table are used. -/
theorem stringsFit_iff (v : HuffVal) : StringsFit v ↔ ∀ type < 4, (v.used type).length ≤ 21 := by
  constructor
  · intro h
    exact (treesStored_histogram_iff v _).mp (h fun _ => ' ').1
  · intro h buf
    refine ⟨(treesStored_histogram_iff v buf).mpr h, fun u buf' hbuild e he str hstr => ?_⟩
    exact eventStored_fit h hbuild he hstr

/-- With 22 symbols in a table the last code does not fit. -/
theorem stringsFit_fails : ¬ StringsFit fun _ i => if i < 22 then 1 else 0 := by
  intro h
  have hfit := (treesStored_histogram_iff _ _).mp (h fun _ => ' ').1
  exact absurd (hfit 0 (by decide)) (by decide +kernel)

end Recode
