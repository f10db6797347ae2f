import JpegStorage.Recode.RecodedFile
import JpegStorage.Recode.ScanLength

/-!
# Recoding twice

A recoded image has the blocks of the old one.  When its width is no multiple of eight, the
first pass counts the symbols of these blocks and nothing else.  So a second run makes the
tables of the first one, copies the same header and codes the same blocks: it writes what
the first run wrote (`recoding_idempotent`).
-/

namespace Recode

open Canonical Stuffing Baseline Run Segments

/-! ## The tables do not depend on the buffer -/

theorem buildTree_fresh {cell : Nat → Int} {buf₁ buf₂ buf₁' buf₂' : CharBuf} {t₁ t₂ : OneHufftype}
    (h₁ : buildTree (collectAll cell) buf₁ = .ok (t₁, buf₁'))
    (h₂ : buildTree (collectAll cell) buf₂ = .ok (t₂, buf₂')) : t₁ = t₂ := by
  have hle : (collectAll cell).count ≤ 256 := by
    rw [collectAll_eq]
    exact length_usedSymbols_le cell
  obtain ⟨_, hcal₁⟩ := calNewHuffman_quota hle buf₁
  obtain ⟨_, hcal₂⟩ := calNewHuffman_quota hle buf₂
  simp only [buildTree, hcal₁] at h₁
  simp only [buildTree, hcal₂] at h₂
  exact (Prod.mk.inj (Except.ok.inj h₁)).1.symm.trans (Prod.mk.inj (Except.ok.inj h₂)).1

theorem buildTrees_fresh {cell : Nat → Nat → Int} {buf₁ buf₂ buf₁' buf₂' : CharBuf}
    {u₁ u₂ : HuffValUseful} (h₁ : buildTrees (collectTables cell) buf₁ = .ok (u₁, buf₁'))
    (h₂ : buildTrees (collectTables cell) buf₂ = .ok (u₂, buf₂')) : u₁ = u₂ := by
  have htable : ∀ type < 4, u₁.table type = u₂.table type := by
    intro type htype
    obtain ⟨_, _, htree₁⟩ := buildTrees_tables h₁ type htype
    obtain ⟨_, _, htree₂⟩ := buildTrees_tables h₂ type htype
    rw [collectTables_table cell htype] at htree₁ htree₂
    exact buildTree_fresh htree₁ htree₂
  obtain ⟨dc0, dc1, ac0, ac1⟩ := u₁
  obtain ⟨dc0', dc1', ac0', ac1'⟩ := u₂
  obtain rfl : dc0 = dc0' := htable 0 (by omega)
  obtain rfl : dc1 = dc1' := htable 1 (by omega)
  obtain rfl : ac0 = ac0' := htable 2 (by omega)
  obtain rfl : ac1 = ac1' := htable 3 (by omega)
  rfl

/-! ## The same bytes -/

/-- Bytes that hold some bits and a padding of ones are determined by the bits. -/
theorem padded_unique {given pad₁ pad₂ : List Bool} {data₁ data₂ : List UInt8}
    (h₁ : Bits.ofBytes data₁ = given ++ pad₁) (hpad₁ : pad₁.length < 8 ∧ ∀ b ∈ pad₁, b = true)
    (h₂ : Bits.ofBytes data₂ = given ++ pad₂) (hpad₂ : pad₂.length < 8 ∧ ∀ b ∈ pad₂, b = true) :
    data₁ = data₂ := by
  have hlen₁ := congrArg List.length h₁
  have hlen₂ := congrArg List.length h₂
  rw [Bits.length_ofBytes, List.length_append] at hlen₁ hlen₂
  have hpads : pad₁ = pad₂ := by
    rw [List.eq_replicate_iff.mpr ⟨rfl, hpad₁.2⟩, List.eq_replicate_iff.mpr ⟨rfl, hpad₂.2⟩,
      show pad₁.length = pad₂.length by omega]
  rw [← hpads, ← h₁] at h₂
  exact (Bits.ofBytes_injective h₂).symm

/-- An image that is recoded twice with the same tables stays as it is. -/
theorem RecodedAs.again {u : HuffValUseful} {buf bytes bytes' : List UInt8}
    {priv priv' : JdecPrivate} {units : List BlockCode} (h : RecodedAs u buf priv units bytes)
    (hframe : SameFrame priv priv') (h' : RecodedAs u bytes priv' units bytes') :
    bytes' = bytes := by
  obtain ⟨head, data, pad, _, hhead, hbytes, hdata, hpad⟩ := h.coded
  obtain ⟨head', data', pad', hhead', _, hbytes', hdata', hpad'⟩ := h'.coded
  obtain rfl := Except.ok.inj (hhead.symm.trans hhead')
  rw [← hframe.imageComponents] at hdata'
  rw [hbytes', hbytes, padded_unique hdata' hpad' hdata hpad]

/-! ## The same counts -/

section
variable {disk : Disk} {names : List Path}

/-- What an image adds to the counts when its width is no multiple of eight. -/
theorem imageCounts_narrow {path : Path} {buf : List UInt8} {priv : JdecPrivate}
    {units : List BlockCode} (hbuf : disk path = some buf) (himage : ImageFile buf priv units)
    (hwidth : priv.width % 8 ≠ 0) : imageCounts disk path =
      .ok (HuffVal.plus (fun _ _ => 0) (unitEvents (imageComponents priv) units)) := by
  obtain ⟨codes, data, tail, pad, hconforms⟩ := himage.conforms
  rw [imageCounts_eq hbuf himage, hconforms.walked.passOneImage hwidth, intervalEvents,
    List.flatMap_singleton]
  rfl

/-- No image has a width that is a multiple of eight. -/
def NarrowImages (disk : Disk) (names : List Path) : Prop :=
  ∀ path ∈ names, ∀ buf priv, disk path = some buf → tinyjpegParseHeader buf = .ok priv →
    priv.width % 8 ≠ 0

/-- Images of the same frame with the same blocks give the same counts. -/
theorem totalCounts_same {disk' : Disk} (himages : AllImages disk names)
    (hnarrow : NarrowImages disk names)
    (hsame : ∀ path ∈ names, ∀ buf priv units, disk path = some buf → ImageFile buf priv units →
      ∃ bytes priv', disk' path = some bytes ∧ SameFrame priv priv' ∧ ImageFile bytes priv' units) :
    totalCounts disk' names = totalCounts disk names := by
  funext type code
  refine congrArg List.sum (List.map_congr_left fun path hpath => ?_)
  obtain ⟨buf, priv, units, hbuf, himage⟩ := himages path hpath
  obtain ⟨bytes, priv', hbytes, hframe, himage'⟩ := hsame path hpath buf priv units hbuf himage
  have hwidth := hnarrow path hpath buf priv hbuf himage.parsed
  rw [imageCounts_narrow hbuf himage hwidth,
    imageCounts_narrow hbytes himage' (hframe.width ▸ hwidth), hframe.imageComponents]

/-- Recoding is idempotent on images whose width is no multiple of eight: a second run over
the completed output files makes the same tables and writes the same files. -/
theorem recoding_idempotent (himages : AllImages disk names) (hnarrow : NarrowImages disk names)
    (hfree : ∀ p ∈ names, ∀ q ∈ names, q ≠ outputPath p)
    (hcounts : CountsFit (totalCounts disk names)) (cbuf cbuf' : CharBuf) :
    ∃ u s s', main disk names cbuf = .ok (u, s) ∧ main s.completed names cbuf' = .ok (u, s') ∧
      (RecordFits s.completed names → ¬ s'.record.Outside) ∧
      ∀ path ∈ names, ∃ bytes, s.completed path = some bytes ∧ s'.completed path = some bytes := by
  obtain ⟨u, _, s, htrees, hrun, _, _, hfiles⟩ := main_images himages hfree hcounts cbuf
  have hsame : ∀ path ∈ names, ∀ buf priv units, disk path = some buf → ImageFile buf priv units →
      ∃ bytes priv', s.completed path = some bytes ∧ SameFrame priv priv' ∧
        ImageFile bytes priv' units := by
    intro path hpath buf priv units hbuf himage
    obtain ⟨bytes, hbytes, hrecoded⟩ := hfiles path hpath buf priv units hbuf himage
    obtain ⟨priv', hframe, hnew⟩ := hrecoded.image
    exact ⟨bytes, priv', hbytes, hframe, hnew⟩
  have hagain : AllImages s.completed names := by
    intro path hpath
    obtain ⟨buf, priv, units, hbuf, himage⟩ := himages path hpath
    obtain ⟨bytes, priv', hbytes, _, hnew⟩ := hsame path hpath buf priv units hbuf himage
    exact ⟨bytes, priv', units, hbytes, hnew⟩
  have htotal := totalCounts_same himages hnarrow hsame
  obtain ⟨u', _, s', htrees', hrun', hinside, _, hfiles'⟩ :=
    main_images hagain hfree (htotal ▸ hcounts) cbuf'
  rw [htotal] at htrees'
  obtain rfl := buildTrees_fresh htrees htrees'
  refine ⟨u, s, s', hrun, hrun', hinside, fun path hpath => ?_⟩
  obtain ⟨buf, priv, units, hbuf, himage⟩ := himages path hpath
  obtain ⟨bytes, hbytes, hrecoded⟩ := hfiles path hpath buf priv units hbuf himage
  obtain ⟨priv', hframe, hnew⟩ := hrecoded.image
  obtain ⟨bytes', hbytes', hrecoded'⟩ := hfiles' path hpath bytes priv' units hbytes hnew
  exact ⟨bytes, hbytes, hrecoded.again hframe hrecoded' ▸ hbytes'⟩

end

theorem recoding_idempotent_slim : ∃ u s s',
    main slimFiles [someName, otherName] (fun _ => '0') = .ok (u, s) ∧
      main s.completed [someName, otherName] (fun _ => '1') = .ok (u, s') ∧
      (RecordFits s.completed [someName, otherName] → ¬ s'.record.Outside) ∧
      ∀ path ∈ [someName, otherName],
        ∃ bytes, s.completed path = some bytes ∧ s'.completed path = some bytes := by
  refine recoding_idempotent slimFiles_images ?_ (by decide) slimFiles_counts _ _
  intro path hpath buf priv hbuf hparse
  have hslim : buf = slimFile := by
    rcases List.mem_pair.mp hpath with rfl | rfl
    · exact (Option.some.inj hbuf).symm
    · exact (Option.some.inj hbuf).symm
  have hpriv : tinyjpegParseHeader slimFile = .ok slimImage := rfl
  obtain rfl := Except.ok.inj (hpriv.symm.trans (hslim ▸ hparse))
  decide

end Recode
