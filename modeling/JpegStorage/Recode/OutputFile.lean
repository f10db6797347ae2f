import JpegStorage.Recode.HeaderCopy
import JpegStorage.Recode.Restart

/-!
# The output file

`WriteNewData_convert_one_image` opens the image, reads it and closes it, and then
opens the output file.  The header, the tables and the scan go there.  The last
byte of the scan and the end of image do not: they are written with the handle of
the image, which is closed by then.

A handle has the bytes of its file and remembers whether it was used while it was
not open.
-/

namespace Recode

open Canonical Stuffing Baseline Run Segments

/-! ## Handles -/

/-- A `FILE *`. -/
structure Handle where
  /-- It is open. -/
  isOpen : Bool
  /-- The bytes of its file. -/
  bytes : List UInt8
  /-- An operation was performed while it was not open. -/
  misused : Bool
deriving DecidableEq, Repr

namespace Handle

/-- A handle that was not opened yet. -/
def unopened : Handle := ⟨false, [], false⟩

/-- `fopen` of a file with these bytes. -/
def fopen (bytes : List UInt8) : Handle := ⟨true, bytes, false⟩

/-- An operation on the bytes. -/
def operate (f : List UInt8 → List UInt8) (h : Handle) : Handle :=
  if h.isOpen then { h with bytes := f h.bytes } else { h with misused := true }

/-- `fread`, and what `filesize` does. -/
def fread (h : Handle) : Handle := h.operate id

/-- `fprintf` with `"%c"`. -/
def fprintf (h : Handle) (byte : Nat) : Handle := h.operate (· ++ [UInt8.ofNat byte])

/-- `fclose`. -/
def fclose (h : Handle) : Handle :=
  if h.isOpen then { h with isOpen := false } else { h with misused := true }

end Handle

/-- The handles and the globals of the writer. -/
structure Files where
  /-- `fp` of `WriteNewData_convert_one_image`. -/
  fp : Handle
  /-- `fp` of `write_head_data`. -/
  headFp : Handle
  /-- `fpdat`. -/
  fpdat : Handle
  /-- `WriteNewData_Stream`. -/
  stream : Nat
  /-- `WriteNewData_Stream_Bits`. -/
  bits : Nat
deriving DecidableEq, Repr

/-- A part of the program that writes to `fpdat`. -/
def Files.onFpdat (f : Writer → Except Stop Writer) (files : Files) : Except Stop Files :=
  match f ⟨files.stream, files.bits, files.fpdat.bytes, []⟩ with
  | .error e => .error e
  | .ok w =>
      .ok { files with fpdat := files.fpdat.operate fun _ => w.out,
                       stream := w.stream, bits := w.bits }

/-! ## The program -/

/-- `write_head_data`.  A file that cannot be opened ends the program. -/
def Files.writeHeadData (infile : Option (List UInt8)) (files : Files) : Except Stop Files :=
  match infile with
  | none => .error .exit
  | some buf =>
      let files := { files with headFp := (Handle.fopen buf).fread.fclose }
      files.onFpdat fun w =>
        match Recode.writeHeadData buf with
        | .error e => .error e
        | .ok head => .ok { w with out := w.out ++ head }

/-- `Write_New_Body` with either result. -/
def runNewBody (u : HuffValUseful) (type : Nat) (priv : JdecPrivate) (w : Writer) :
    Except Stop Writer :=
  match (writeNewBody u type priv).run (Scan.start priv w) with
  | .ok _ s => .ok s.out
  | .error .eio s => .ok s.out
  | .error e _ => .error e

/-- The last byte, padded, with a zero behind `FF`. -/
def Writer.finalBytes (w : Writer) : List Nat :=
  match w.padByte with
  | none => []
  | some byte => if byte % 256 = 0xff then [byte, 0x00] else [byte]

/-- What follows `Write_New_Body`: the last byte and the end of image.  The source
passes `fp`. -/
def Files.finish (files : Files) : Files :=
  let w : Writer := ⟨files.stream, files.bits, [], []⟩
  { files with fp := (w.finalBytes ++ [0xff, 0xd9]).foldl Handle.fprintf files.fp,
               stream := shiftLeft8 files.stream 8, bits := 0 }

/-- `WriteNewData_convert_one_image`. -/
def writeNewDataConvertOneImage (infile : Option (List UInt8)) (type : Nat) (u : HuffValUseful)
    (files : Files) : Except Stop Files :=
  match infile with
  | none => .error .exit
  | some buf => do
      let files := { files with fp := (Handle.fopen buf).fread.fclose }
      let jdec ← tinyjpegParseHeader buf
      let files := { files with fpdat := Handle.fopen [] }
      let files ← files.writeHeadData infile
      let files ← files.onFpdat fun w => .ok (writeHuffmanTable type u w)
      let files ← files.onFpdat (runNewBody u type jdec)
      let files := files.finish
      .ok { files with fpdat := files.fpdat.fclose }

/-! ## What the file should hold -/

/-- The header, the tables and the scan of an image, with the bits that wait. -/
def recodedScan (buf : List UInt8) (type : Nat) (u : HuffValUseful) (stream bits : Nat) :
    Except Stop Writer := do
  let jdec ← tinyjpegParseHeader buf
  let head ← writeHeadData buf
  runNewBody u type jdec { writeHuffmanTable type u ⟨stream, bits, head, []⟩ with handed := [] }

/-- The last byte of a scan: the bits that wait, padded with ones. -/
def finalByte (held : List Bool) : List UInt8 :=
  if held = [] then [] else stuff [Bits.toByte (held ++ List.replicate (8 - held.length) true)]

/-- No operation was performed on a closed handle. -/
def Files.Sound (files : Files) : Prop :=
  files.fp.misused = false ∧ files.headFp.misused = false ∧ files.fpdat.misused = false

/-- The output file is closed and holds the whole image. -/
def Files.Complete (w : Writer) (files : Files) : Prop :=
  files.fpdat.isOpen = false ∧
    files.fpdat.bytes = w.out ++ finalByte (Bits.ofNat w.bits w.stream) ++ [0xff, 0xd9]

/-! ## What it holds -/

/-- The bytes the source writes last are the right ones. -/
theorem Writer.Holds.finalBytes {w : Writer} {base : List UInt8} {given : List Bool}
    (h : w.Holds base given) :
    w.finalBytes.map UInt8.ofNat = finalByte (Bits.ofNat w.bits w.stream) := by
  rw [Writer.finalBytes, finalByte]
  by_cases hpos : w.bits = 0
  · have hnone : w.padByte = none := by
      rw [Writer.padByte, hpos]
      rfl
    rw [hnone, hpos, Bits.ofNat_zero, if_pos rfl]
    rfl
  · obtain ⟨byte, hlt, hpad, hbits⟩ := h.padByte hpos
    have hheld : Bits.ofNat w.bits w.stream ≠ [] := by
      intro hnil
      have hlen := congrArg List.length hnil
      rw [Bits.length_ofNat, List.length_nil] at hlen
      exact hpos hlen
    have hbyte : Bits.toByte (Bits.ofNat w.bits w.stream ++ List.replicate (8 - w.bits) true) =
        UInt8.ofNat byte := by
      rw [← hbits, Bits.toByte, Bits.toNat_ofByte, UInt8.ofNat_toNat]
    have hmod : byte % 256 = byte := Nat.mod_eq_of_lt hlt
    have hff : byte = 0xff ↔ UInt8.ofNat byte = 0xff := by
      rw [← UInt8.toNat_inj, UInt8.toNat_ofNat', hmod]
      rfl
    rw [hpad, if_neg hheld, Bits.length_ofNat, hbyte, stuff, stuff]
    dsimp only
    rw [hmod]
    by_cases hfull : byte = 0xff
    · rw [if_pos hfull, if_pos (hff.mp hfull), hfull]
      rfl
    · rw [if_neg hfull, if_neg (mt hff.mpr hfull)]
      rfl

/-- Writing to a handle that is not open only misuses it. -/
theorem Handle.fprintf_closed {h : Handle} (hclosed : h.isOpen = false) {bytes : List Nat}
    (hne : bytes ≠ []) : bytes.foldl Handle.fprintf h = { h with misused := true } := by
  have hstep : ∀ (g : Handle), g.isOpen = false → ∀ byte,
      g.fprintf byte = { g with misused := true } := by
    intro g hg byte
    rw [Handle.fprintf, Handle.operate, hg]
    rfl
  induction bytes generalizing h with
  | nil => exact absurd rfl hne
  | cons byte bytes ih =>
      rw [List.foldl_cons, hstep h hclosed]
      cases bytes with
      | nil => rfl
      | cons byte' bytes => exact ih hclosed (List.cons_ne_nil _ _)

theorem missing_end {out final : List UInt8} : out ≠ out ++ final ++ [0xff, 0xd9] := by
  intro h
  have hlen := congrArg List.length h
  rw [List.length_append, List.length_append] at hlen
  simp only [List.length_cons, List.length_nil] at hlen
  omega

/-- A part of the program that writes to an open output file. -/
theorem Files.onFpdat_fopen (f : Writer → Except Stop Writer) (fp headFp : Handle)
    (out : List UInt8) (stream bits : Nat) :
    Files.onFpdat f ⟨fp, headFp, .fopen out, stream, bits⟩ = (f ⟨stream, bits, out, []⟩).map
      fun w => ⟨fp, headFp, .fopen w.out, w.stream, w.bits⟩ := by
  rw [Files.onFpdat]
  dsimp only [Handle.fopen]
  cases f ⟨stream, bits, out, []⟩ with
  | error e => rfl
  | ok w => rfl

/-- The end of the call: nothing of it gets to the output file. -/
theorem Files.finish_closed (headFp : Handle) (buf out : List UInt8) (stream bits : Nat) :
    Files.finish ⟨⟨false, buf, false⟩, headFp, .fopen out, stream, bits⟩ =
      ⟨⟨false, buf, true⟩, headFp, .fopen out, shiftLeft8 stream 8, 0⟩ := by
  have hbytes : Writer.finalBytes ⟨stream, bits, [], []⟩ ++ [0xff, 0xd9] ≠ [] := by simp
  rw [Files.finish]
  dsimp only
  rw [Handle.fprintf_closed (h := ⟨false, buf, false⟩) rfl hbytes]

/-- A call returns when it gets behind `Write_New_Body`.  Of what it should write the
output file lacks the last byte and the end of image. -/
theorem writeNewDataConvertOneImage_eq (buf : List UInt8) (type : Nat) (u : HuffValUseful)
    (files : Files) : writeNewDataConvertOneImage (some buf) type u files =
      (recodedScan buf type u files.stream files.bits).map fun w =>
        { fp := ⟨false, buf, true⟩, headFp := ⟨false, buf, false⟩, fpdat := ⟨false, w.out, false⟩,
          stream := shiftLeft8 w.stream 8, bits := 0 } := by
  have hopened : (Handle.fopen buf).fread.fclose = ⟨false, buf, false⟩ := rfl
  rw [writeNewDataConvertOneImage, recodedScan, hopened]
  cases tinyjpegParseHeader buf with
  | error e => rfl
  | ok jdec =>
      rw [ok_bind, ok_bind]
      dsimp only
      rw [Files.writeHeadData, hopened]
      dsimp only
      rw [Files.onFpdat_fopen]
      cases writeHeadData buf with
      | error e => rfl
      | ok head =>
          simp only [Except.map, ok_bind, List.nil_append]
          rw [Files.onFpdat_fopen]
          simp only [Except.map, ok_bind]
          rw [Files.onFpdat_fopen]
          cases runNewBody u type jdec
              { writeHuffmanTable type u ⟨files.stream, files.bits, head, []⟩ with handed := [] } with
          | error e => rfl
          | ok w =>
              simp only [Except.map, ok_bind, Files.finish_closed]
              rfl

theorem writeNewDataConvertOneImage_run {buf : List UInt8} {type : Nat} {u : HuffValUseful}
    {files : Files} {w : Writer} (h : recodedScan buf type u files.stream files.bits = .ok w) :
    writeNewDataConvertOneImage (some buf) type u files = .ok
      { fp := ⟨false, buf, true⟩, headFp := ⟨false, buf, false⟩, fpdat := ⟨false, w.out, false⟩,
        stream := shiftLeft8 w.stream 8, bits := 0 } := by
  rw [writeNewDataConvertOneImage_eq, h]
  rfl

/-- A call that gets behind `Write_New_Body` uses a closed handle, and the output
file it closes is not complete. -/
theorem final_bytes_lost {buf : List UInt8} {type : Nat} {u : HuffValUseful} {files : Files}
    {w : Writer} (h : recodedScan buf type u files.stream files.bits = .ok w) :
    ∃ files', writeNewDataConvertOneImage (some buf) type u files = .ok files' ∧
      ¬ files'.Sound ∧ ¬ files'.Complete w := by
  refine ⟨_, writeNewDataConvertOneImage_run h, fun hsound => ?_, fun hcomplete => ?_⟩
  · cases hsound.1
  · exact missing_end hcomplete.2

/-! ## A whole file -/

/-- The handles and the globals at the start of the program. -/
def Files.start : Files := ⟨.unopened, .unopened, .unopened, 0, 0⟩

/-- A table of one code for each class. -/
def scanTables : Segment where
  marker := StdMarkers.dht
  payload := 0x00 :: 1 :: List.replicate 15 0 ++ [0] ++ 0x10 :: 1 :: List.replicate 15 0 ++ [0]
  marker_ne := smallTable.marker_ne
  fits := by decide

/-- An image of one MCU, all of whose coefficients are zero. -/
def wholeFile : List UInt8 := headerFile [smallFrame 0 1 2, scanTables] ++ [0x03, 0xff, 0xd9]

/-- Is a file recoded with new tables? -/
def isRecoded (trees : Except Stop (HuffValUseful × CharBuf)) (buf : List UInt8) : Bool :=
  match trees with
  | .ok (u, _) => (recodedScan buf 0 u 0 0).isOk
  | .error _ => false

theorem isRecoded_ok {u : HuffValUseful} {cbuf : CharBuf} {buf : List UInt8}
    (h : isRecoded (.ok (u, cbuf)) buf = true) : ∃ w, recodedScan buf 0 u 0 0 = .ok w := by
  cases hrun : recodedScan buf 0 u 0 0 with
  | error e =>
      rw [isRecoded, hrun] at h
      cases h
  | ok w => exact ⟨w, rfl⟩

theorem wholeFile_recoded : ∃ u cbuf' w,
    buildTrees (buildHuffValUseful (fewCounts 1)) (fun _ => '0') = .ok (u, cbuf') ∧
      recodedScan wholeFile 0 u Files.start.stream Files.start.bits = .ok w := by
  obtain ⟨u, cbuf', htrees, _⟩ :=
    buildTrees_built (fun type i => countCell (fewCounts 1 type i)) fun _ => '0'
  have hrecoded :
      isRecoded (buildTrees (buildHuffValUseful (fewCounts 1)) fun _ => '0') wholeFile = true := by
    decide +kernel
  obtain ⟨w, hw⟩ := isRecoded_ok (htrees ▸ hrecoded)
  exact ⟨u, cbuf', w, htrees, hw⟩

theorem final_bytes_lost_whole : ∃ u cbuf' w files',
    buildTrees (buildHuffValUseful (fewCounts 1)) (fun _ => '0') = .ok (u, cbuf') ∧
      writeNewDataConvertOneImage (some wholeFile) 0 u .start = .ok files' ∧
      ¬ files'.Sound ∧ ¬ files'.Complete w := by
  obtain ⟨u, cbuf', w, htrees, hw⟩ := wholeFile_recoded
  obtain ⟨files', hrun, hlost⟩ := final_bytes_lost hw
  exact ⟨u, cbuf', w, files', htrees, hrun, hlost⟩

/-- The last byte and the end of image of the file are not in its output. -/
theorem output_file_incomplete : ∃ u cbuf' w files',
    buildTrees (buildHuffValUseful (fewCounts 1)) (fun _ => '0') = .ok (u, cbuf') ∧
      recodedScan wholeFile 0 u Files.start.stream Files.start.bits = .ok w ∧
      writeNewDataConvertOneImage (some wholeFile) 0 u .start = .ok files' ∧
      ¬ (files'.Sound ∧ files'.Complete w) := by
  obtain ⟨u, cbuf', w, htrees, hw⟩ := wholeFile_recoded
  refine ⟨u, cbuf', w, _, htrees, hw, writeNewDataConvertOneImage_run hw, fun hboth => ?_⟩
  exact missing_end hboth.2.2

end Recode
