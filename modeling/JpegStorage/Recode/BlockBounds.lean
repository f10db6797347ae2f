import JpegStorage.Recode.Reservoir

/-!
# The index of the AC loop

`j` is an `unsigned char`, and a run of a damaged symbol can carry it beyond the 64
coefficients.  `blockIndices` lists what the loop does with `j` in one block: every
addition and every write to `DCT[j]`.

`processHuffmanDataUnit_inBounds` holds for tables of any distinct symbols and any
bytes.  No addition wraps, since `j` is below 64 before it and a run is a half byte.
The block ends with the input at the latest: a round of the loop that goes on has taken
a bit, and a failed lookup, which takes none, is the end of the block.
-/

namespace Recode

open Run

/-! ## Steps -/

/-- What the AC loop does with `j`. -/
inductive IndexStep where
  /-- `j += amount`. -/
  | add (j amount : Nat)
  /-- `DCT[j]` is written. -/
  | write (j : Nat)
deriving DecidableEq, Repr

/-- The sum is an `unsigned char`, and the coefficient is one of the AC coefficients. -/
def IndexStep.InBounds : IndexStep → Prop
  | .add j amount => j + amount < 256
  | .write j => 1 ≤ j ∧ j ≤ 63

section
variable {σ : Type}

/-- The steps of the loop over the AC coefficients. -/
def acIndices (h : Hooks σ) (table : HuffmanTable) (type : Nat) :
    Nat → Nat → Scan σ → List IndexStep
  | 0, _ => fun _ => []
  | fuel + 1, j =>
      if 64 ≤ j then fun _ => []
      else andThen (fun _ => []) (nextSymbol h table type) fun huffCode =>
        let sizeVal := huffCode % 16
        let count0 := huffCode / 16
        if sizeVal = 0 then
          if count0 = 0 then fun _ => []
          else if count0 = 15 then fun s =>
            .add j 16 :: acIndices h table type fuel ((j + 16) % 256) s
          else acIndices h table type fuel j
        else
          let j' := (j + count0) % 256
          if 64 ≤ j' then fun _ => [.add j count0]
          else fun s => .add j count0 ::
            andThen (fun _ => []) (nextMagnitude h sizeVal)
              (fun _ s => .write j' :: .add j' 1 :: acIndices h table type fuel (j' + 1) s) s

/-- The steps of `process_Huffman_data_unit`. -/
def blockIndices (h : Hooks σ) (priv : JdecPrivate) (component : Nat) :
    Scan σ → List IndexStep :=
  andThen (fun _ => []) (deref (priv.dcTable component)) fun dcTable =>
    andThen (fun _ => []) (dcCoefficient h dcTable component) fun _ =>
      andThen (fun _ => []) (deref (priv.acTable component)) fun acTable s =>
        acIndices h acTable (acType component) s.reader.fuel 1 s

/-- The judgment for the programs of a block: all steps are in bounds, and the program
stops at the end of the input only. -/
def Bounded {α : Type} (P : Scan σ → Prop) (pts : Scan σ → List IndexStep)
    (x : EStateM Stop (Scan σ) α) (Q : α → Scan σ → Prop) : Prop :=
  Tracks (fun (_ : Unit) _ => ()) (fun _ p => p.InBounds) (fun _ _ => True) P pts x Q (· = .eio)

variable {h : Hooks σ} {I : σ → Prop} {k : Int}

/-- A program that leaves `j` alone. -/
theorem Bounded.of_triple {α : Type} {P : Scan σ → Prop} {x : EStateM Stop (Scan σ) α}
    {Q : α → Scan σ → Prop} (hx : Triple P x Q (Ended I)) : Bounded P (fun _ => []) x Q :=
  Tracks.of_triple hx fun _ _ he => he.1

/-- A step in front. -/
theorem Bounded.step {α : Type} {P : Scan σ → Prop} {x : EStateM Stop (Scan σ) α}
    {Q : α → Scan σ → Prop} {p : IndexStep} {pts : Scan σ → List IndexStep} (hp : p.InBounds)
    (hx : Bounded P pts x Q) : Bounded P (fun s => p :: pts s) x Q := by
  intro g s hI hs
  obtain ⟨hpts, hrun⟩ := hx g s hI hs
  exact ⟨⟨hp, hpts⟩, hrun⟩

/-! ## The loop -/

/-- Every round of the loop stays in bounds, and a round that goes on takes a bit. -/
theorem acLoop_bounded (hI : h.Keep I) {table : HuffmanTable} (ht : table.Safe)
    (hbyte : ∀ v, table.Value v → v < 256) (type : Nat) : ∀ {fuel n : Nat} (j : Nat)
      (dct : List Int), n < fuel → 1 ≤ j →
      Bounded (Going I k n) (acIndices h table type fuel j) (acLoop h table type fuel j dct)
        fun _ s => Going I k n s
  | 0, n, _, _, hfuel, _ => by omega
  | fuel + 1, n, j, dct, hfuel, hj => by
      rw [acLoop, acIndices]
      split
      · exact .pure fun _ hs => hs
      next hlt =>
        refine Tracks.bind (Bounded.of_triple (nextSymbol_safe hI ht type n)) fun v => ?_
        by_cases hv : v = 0
        · subst hv
          exact .pure fun s hs => hs.1
        · refine .assume (fun s hs => hs.2.1 hv) fun hn => ?_
          refine .assume (fun s hs => hbyte v hs.2.2) fun hv256 => ?_
          have hrest : ∀ j dct, 1 ≤ j → Bounded (Going I k (n - 1))
              (acIndices h table type fuel j) (acLoop h table type fuel j dct)
              fun _ s => Going I k n s := fun j dct hj =>
            (acLoop_bounded hI ht hbyte type j dct (by omega) hj).conseq (fun _ hs => hs)
              fun _ _ hs => hs.mono (by omega)
          have hstart : ∀ s, (Going I k (if v = 0 then n else n - 1) s ∧ (v ≠ 0 → 1 ≤ n) ∧
              table.Value v) → Going I k (n - 1) s := fun s hs => by simpa [hv] using hs.1
          refine Tracks.conseq (P := Going I k (n - 1)) ?_ hstart (fun _ _ hs => hs)
          dsimp only
          have hadd16 : (IndexStep.add j 16).InBounds := by
            change j + 16 < 256
            omega
          have hadd : (IndexStep.add j (v / 16)).InBounds := by
            change j + v / 16 < 256
            omega
          split
          · split
            · exact .pure fun s hs => hs.mono (by omega)
            · split
              · exact Bounded.step hadd16 (hrest _ _ (by omega))
              · exact hrest _ _ hj
          · split
            · exact Bounded.step hadd (.pure fun s hs => hs.mono (by omega))
            · refine Bounded.step hadd ?_
              refine Tracks.bind
                (Bounded.of_triple (nextMagnitude_safe hI (by omega) (n - 1))) fun _ => ?_
              have hwrite : (IndexStep.write ((j + v / 16) % 256)).InBounds := by
                change 1 ≤ (j + v / 16) % 256 ∧ (j + v / 16) % 256 ≤ 63
                omega
              have hnext : (IndexStep.add ((j + v / 16) % 256) 1).InBounds := by
                change (j + v / 16) % 256 + 1 < 256
                omega
              exact Bounded.step hwrite (Bounded.step hnext (hrest _ _ (by omega)))

/-- A block of any input. -/
theorem processHuffmanDataUnit_bounded (hI : h.Keep I) {priv : JdecPrivate} {component : Nat}
    (hc : priv.Distinct component) (n : Nat) :
    Bounded (Going I k n) (blockIndices h priv component) (processHuffmanDataUnit h priv component)
      fun _ s => Going I k n s := by
  obtain ⟨dcTable, hdcTable, hdc, hsize⟩ := hc.safe.dcSafe
  obtain ⟨bits, vals, old, acTable, hac, hbuilt, hacTable⟩ := hc.acTable
  obtain ⟨hsafe, hvalue⟩ := hac.safe hbuilt
  have hbyte : ∀ v, acTable.Value v → v < 256 := fun v hv => by
    rcases hvalue v hv with rfl | hmem
    · decide
    · exact hac.byte v hmem
  have hderef : ∀ table : HuffmanTable, Bounded (Going I k n) (fun _ => []) (deref (some table))
      fun t s => t = table ∧ Going I k n s :=
    fun _ _ s hI hs => ⟨trivial, Or.inl ⟨_, s, rfl, hI, rfl, hs⟩⟩
  rw [processHuffmanDataUnit, blockIndices, hdcTable, hacTable]
  refine Tracks.bind (hderef dcTable) fun table => .assume (fun _ hs => hs.1) fun htable => ?_
  subst htable
  refine Tracks.conseq (P := Going I k n) ?_ (fun _ hs => hs.2) (fun _ _ hs => hs)
  refine Tracks.bind (Bounded.of_triple (dcCoefficient_safe hI hdc hsize component n)) fun dc => ?_
  refine Tracks.bind (hderef acTable) fun table => .assume (fun _ hs => hs.1) fun htable => ?_
  subst htable
  intro g s hg hs
  have hloop := acLoop_bounded hI hsafe hbyte (acType component) 1
    ((List.replicate 64 0).set 0 dc) s.reader.length_bits_lt_fuel (Nat.le_refl 1) g s hg
    ⟨hs.2.ok, Nat.le_refl _, hs.2.toGo, hs.2.out⟩
  refine ⟨hloop.1, ?_⟩
  rcases hloop.2 with ⟨a, s', hrun, hg', hs'⟩ | hstop
  · exact Or.inl ⟨a, s', hrun, hg', hs'.mono hs.2.le⟩
  · exact Or.inr hstop

end

/-! ## Blocks of the first pass -/

/-- From any state of the reservoir that is in order, a block of the first pass is decoded
or the input ends, and the reservoir is in order again.  On the way no addition to `j`
wraps and every coefficient written has an index from 1 to 63. -/
theorem processHuffmanDataUnit_inBounds {priv : JdecPrivate} {component : Nat}
    (hc : priv.Distinct component) {s : Scan HuffVal} (hs : s.reader.Ok) :
    (∀ p ∈ blockIndices countHooks priv component s, p.InBounds) ∧
      ((∃ block s', (processHuffmanDataUnit countHooks priv component).run s = .ok block s' ∧
          s'.reader.Ok ∧ s'.reader.bits.length ≤ s.reader.bits.length) ∨
        ∃ s', (processHuffmanDataUnit countHooks priv component).run s = .error .eio s') := by
  obtain ⟨hpts, hrun⟩ := processHuffmanDataUnit_bounded (countHooks_keep s.out) hc
    s.reader.bits.length () s trivial ⟨hs, Nat.le_refl _, rfl, fun _ _ => Nat.le_refl _⟩
  refine ⟨along_iff_forall.mp hpts, ?_⟩
  rcases hrun with ⟨block, s', hrun, -, hgoing⟩ | ⟨e, s', hrun, rfl⟩
  · exact Or.inl ⟨block, s', hrun, hgoing.ok, hgoing.le⟩
  · exact Or.inr ⟨s', hrun⟩

/-- Where the first pass over the small image starts. -/
def smallStart : Scan HuffVal := resync smallImage (Scan.start smallImage fun _ _ => 0)

theorem processHuffmanDataUnit_inBounds_small :
    (∀ p ∈ blockIndices countHooks smallImage 0 smallStart, p.InBounds) ∧
      ((∃ block s', (processHuffmanDataUnit countHooks smallImage 0).run smallStart =
          .ok block s' ∧ s'.reader.Ok ∧
            s'.reader.bits.length ≤ smallStart.reader.bits.length) ∨
        ∃ s', (processHuffmanDataUnit countHooks smallImage 0).run smallStart = .error .eio s') :=
  processHuffmanDataUnit_inBounds (smallImage_conforming 0).distinct
    ⟨Nat.one_pos, Nat.zero_le _⟩

end Recode
