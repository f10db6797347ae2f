import JpegStorage.Recode.Frame
import JpegStorage.Recode.TableWriter

/-!
# The header of the recoded file

`write_head_data` copies the file up to its first DHT marker, `Write_Huffman_Table`
puts the new tables behind it, and `Write_New_Body` starts with a scan header of
its own.  Segments between the first DHT and the start of scan are dropped, which
loses whatever stands there besides tables (`header_preserved_iff`).  The scan
header names the components 0, 1 and 2, whatever the frame header calls them
(`selectors_match_iff`).
-/

namespace Recode

open Canonical Segments

/-! ## The copy -/

/-- `Witeheaddata_parse_JFIF`, with the bytes written before and after it. -/
def witeheaddataParseJFIF : Nat → List UInt8 → List UInt8 → Except Stop (List UInt8)
  | 0, _, _ => .error .stuck
  | _ + 1, _, [] => .error .undefined
  | fuel + 1, out, c :: stream =>
      if c ≠ 0xff then .error .exit
      else
        let out := out ++ c :: stream.takeWhile (· = 0xff)
        match skipFill stream with
        | [] => .error .undefined
        | marker :: stream =>
            let out := out ++ [marker]
            match be16ToCpu stream with
            | none => .error .undefined
            | some chuckLen =>
                if marker = StdMarkers.dht then .ok out
                else if stream.length < chuckLen then .error .undefined
                else
                  witeheaddataParseJFIF fuel (out ++ stream.take chuckLen) (stream.drop chuckLen)

/-- `write_head_data` with `Witeheaddata_tinyjpeg_parse_header`. -/
def writeHeadData (buf : List UInt8) : Except Stop (List UInt8) :=
  if buf.length < 2 then .error .undefined
  else witeheaddataParseJFIF buf.length (buf.take 2) (buf.drop 2)

/-- The header of the recoded file behind the bytes of `write_head_data`. -/
def recodedHeader (type : Nat) (u : HuffValUseful) (head : List UInt8) : List UInt8 :=
  (writeHuffmanTable type u (.start head)).out ++ sosHeader type

/-! ## What is copied -/

theorem takeWhile_fill {m : UInt8} (hm : m ≠ 0xff) (n : Nat) (rest : List UInt8) :
    (fill n ++ m :: rest).takeWhile (· = 0xff) = fill n := by
  induction n with
  | zero =>
      change (m :: rest).takeWhile _ = []
      rw [List.takeWhile_cons_of_neg (by simpa using hm)]
  | succ n ih =>
      change (0xff :: (fill n ++ m :: rest)).takeWhile _ = 0xff :: fill n
      rw [List.takeWhile_cons_of_pos (by rfl), ih]

/-- A round of the copy. -/
theorem witeheaddataParseJFIF_marker {m : UInt8} (hm : m ≠ 0xff) (n fuel : Nat) (out : List UInt8)
    {stream : List UInt8} {len : Nat} (hlen : be16ToCpu stream = some len) :
    witeheaddataParseJFIF (fuel + 1) out (fill (n + 1) ++ m :: stream) =
      if m = StdMarkers.dht then .ok (out ++ (fill (n + 1) ++ [m]))
      else if stream.length < len then .error .undefined
      else
        witeheaddataParseJFIF fuel (out ++ (fill (n + 1) ++ m :: stream.take len))
          (stream.drop len) := by
  have hout : out ++ 0xff :: (fill n ++ m :: stream).takeWhile (· = 0xff) ++ [m] =
      out ++ (fill (n + 1) ++ [m]) := by
    rw [takeWhile_fill hm, List.append_assoc]
    rfl
  have hrest : out ++ (fill (n + 1) ++ [m]) ++ stream.take len =
      out ++ (fill (n + 1) ++ m :: stream.take len) := by
    rw [List.append_assoc, List.append_assoc]
    rfl
  change witeheaddataParseJFIF (fuel + 1) out (0xff :: (fill n ++ m :: stream)) = _
  rw [witeheaddataParseJFIF, if_neg (by decide), skipFill_fill hm]
  simp only [hlen, hout, hrest]

/-- The copy ends behind the first DHT marker. -/
theorem witeheaddataParseJFIF_spell {pre : List (Nat × Segment)}
    (hdht : ∀ p ∈ pre, p.2.marker ≠ StdMarkers.dht) (fuel n : Nat) (out rest : List UInt8)
    {len : Nat} (hlen : be16ToCpu rest = some len) :
    witeheaddataParseJFIF (fuel + 1 + pre.length) out
        (spell pre (fill (n + 1) ++ StdMarkers.dht :: rest)) =
      .ok (out ++ spell pre (fill (n + 1) ++ [StdMarkers.dht])) := by
  induction pre generalizing out with
  | nil =>
      have hround := witeheaddataParseJFIF_marker (m := StdMarkers.dht) (by decide) n fuel out hlen
      rw [if_pos rfl] at hround
      exact hround
  | cons p pre ih =>
      obtain ⟨k, s⟩ := p
      have hne : s.marker ≠ StdMarkers.dht := hdht (k, s) (List.mem_cons_self ..)
      have hroom : ¬ (s.body ++ spell pre (fill (n + 1) ++ StdMarkers.dht :: rest)).length <
          s.body.length := by
        rw [List.length_append]
        omega
      rw [spell, List.length_cons, ← Nat.add_assoc,
        witeheaddataParseJFIF_marker s.marker_ne k _ out (be16ToCpu_body s _), if_neg hne,
        if_neg hroom, List.drop_left, List.take_left,
        ih (fun q hq => hdht q (List.mem_cons_of_mem _ hq)), spell]
      simp only [List.append_assoc, List.cons_append]

/-! ## The first table of an accepted header -/

/-- A header cut at its first DHT marker: the segments in front of it, its own
segment and the segments up to the start of scan. -/
structure Cut (body : List UInt8) (segs : List Segment) (pre : List (Nat × Segment)) (n : Nat)
    (d : Segment) (post : List (Nat × Segment)) (m : Nat) (rest : List UInt8) : Prop where
  /-- The bytes. -/
  bytes : body = spell (pre ++ (n, d) :: post) (fill (m + 1) ++ StdMarkers.sos :: rest)
  /-- The segments. -/
  segs : segs = pre.map Prod.snd ++ d :: post.map Prod.snd
  /-- No table in front. -/
  pre_dht : ∀ p ∈ pre, p.2.marker ≠ StdMarkers.dht
  /-- The first table. -/
  marker : d.marker = StdMarkers.dht
  /-- No start of scan in front. -/
  pre_sos : ∀ p ∈ pre, p.2.marker ≠ StdMarkers.sos
  /-- No other start of scan. -/
  post_sos : ∀ p ∈ post, p.2.marker ≠ StdMarkers.sos

theorem exists_first_dht {l : List (Nat × Segment)}
    (h : ∃ p ∈ l, p.2.marker = StdMarkers.dht) : ∃ pre n d post, l = pre ++ (n, d) :: post ∧
      (∀ p ∈ pre, p.2.marker ≠ StdMarkers.dht) ∧ d.marker = StdMarkers.dht := by
  induction l with
  | nil =>
      obtain ⟨p, hp, _⟩ := h
      cases hp
  | cons p l ih =>
      by_cases hp : p.2.marker = StdMarkers.dht
      · exact ⟨[], p.1, p.2, l, rfl, fun q hq => absurd hq List.not_mem_nil, hp⟩
      · obtain ⟨q, hq, hmarker⟩ := h
        have hmem : q ∈ l := by
          cases List.mem_cons.mp hq with
          | inl heq => exact absurd (heq ▸ hmarker) hp
          | inr hmem => exact hmem
        obtain ⟨pre, n, d, post, rfl, hpre, hd⟩ := ih ⟨q, hmem, hmarker⟩
        refine ⟨p :: pre, n, d, post, rfl, ?_, hd⟩
        intro x hx
        cases List.mem_cons.mp hx with
        | inl heq => exact heq ▸ hp
        | inr hmem => exact hpre x hmem

/-- A header with a table can be cut. -/
theorem Cut.exists {body rest : List UInt8} {segs : List Segment}
    (h : Walk StdMarkers.sos body segs rest) (hdht : ∃ s ∈ segs, s.marker = StdMarkers.dht) :
    ∃ pre n d post m, Cut body segs pre n d post m rest := by
  obtain ⟨hsos, l, m, rfl, rfl⟩ := h.spelt
  have hfirst : ∃ p ∈ l, p.2.marker = StdMarkers.dht := by
    obtain ⟨s, hs, hmarker⟩ := hdht
    obtain ⟨p, hp, rfl⟩ := List.mem_map.mp hs
    exact ⟨p, hp, hmarker⟩
  obtain ⟨pre, n, d, post, rfl, hpre, hd⟩ := exists_first_dht hfirst
  have hsos' : ∀ p ∈ pre ++ (n, d) :: post, p.2.marker ≠ StdMarkers.sos :=
    fun p hp => hsos p.2 (List.mem_map_of_mem hp)
  refine ⟨pre, n, d, post, m, rfl, ?_, hpre, hd, ?_, ?_⟩
  · rw [List.map_append, List.map_cons]
  · exact fun q hq => hsos' q (List.mem_append_left _ hq)
  · exact fun q hq => hsos' q (List.mem_append_right _ (List.mem_cons_of_mem _ hq))

namespace Cut

variable {body rest : List UInt8} {segs : List Segment} {pre post : List (Nat × Segment)}
  {n m : Nat} {d : Segment}

/-- The bytes in front of the first DHT marker and behind it. -/
theorem spelt (h : Cut body segs pre n d post m rest) : body = spell pre
    (fill (n + 1) ++ StdMarkers.dht :: (d.body ++
      spell post (fill (m + 1) ++ StdMarkers.sos :: rest))) := by
  rw [h.bytes, spell_append, spell, h.marker]

theorem sos (h : Cut body segs pre n d post m rest) :
    ∀ p ∈ pre ++ (n, d) :: post, p.2.marker ≠ StdMarkers.sos := by
  intro p hp
  cases List.mem_append.mp hp with
  | inl hpre => exact h.pre_sos p hpre
  | inr hrest =>
      cases List.mem_cons.mp hrest with
      | inl heq =>
          rw [heq, h.marker]
          decide
      | inr hpost => exact h.post_sos p hpost

theorem takeWhile (h : Cut body segs pre n d post m rest) :
    segs.takeWhile (fun s => s.marker ≠ StdMarkers.dht) = pre.map Prod.snd := by
  rw [h.segs, List.takeWhile_append_of_pos, List.takeWhile_cons_of_neg, List.append_nil]
  · simpa using h.marker
  · intro s hs
    obtain ⟨p, hp, rfl⟩ := List.mem_map.mp hs
    simpa using h.pre_dht p hp

theorem dropWhile (h : Cut body segs pre n d post m rest) :
    segs.dropWhile (fun s => s.marker ≠ StdMarkers.dht) = d :: post.map Prod.snd := by
  have happ := List.takeWhile_append_dropWhile
    (p := fun s : Segment => decide (s.marker ≠ StdMarkers.dht)) (l := segs)
  rw [h.takeWhile] at happ
  exact List.append_cancel_left (happ.trans h.segs)

end Cut

/-! ## What is preserved -/

/-- The bytes the new tables take behind the first DHT marker. -/
def newTables (u : HuffValUseful) : List UInt8 := (writeHuffmanTable 0 u (.start [])).out

/-- Behind the first table there are only tables up to the start of scan. -/
def OnlyTablesAfter (segs : List Segment) : Prop :=
  ∀ s ∈ segs.dropWhile (fun s => s.marker ≠ StdMarkers.dht), s.marker = StdMarkers.dht

instance (segs : List Segment) : Decidable (OnlyTablesAfter segs) :=
  inferInstanceAs (Decidable (∀ s ∈ _, _))

/-- The segments in front of the first DHT marker give the same frame whether the
old bytes follow it or the new tables and the new scan header. -/
def FrameKept (buf : List UInt8) (u : HuffValUseful) : Prop :=
  ∀ pre n rest, (∀ p ∈ pre, p.2.marker ≠ StdMarkers.dht) →
    buf.drop 2 = spell pre (fill (n + 1) ++ StdMarkers.dht :: rest) →
    ∀ scan, ∃ f f', parseSegments pre (fill (n + 1) ++ StdMarkers.dht :: rest) tinyjpegInit = .ok f ∧
      parseSegments pre (fill (n + 1) ++ StdMarkers.dht :: (newTables u ++ (sosHeader 0 ++ scan)))
        tinyjpegInit = .ok f' ∧ SameFrame f f'

/-- The header of the recoded file, whatever scan follows, is parsed to the frame
of the input and holds the segments of the input other than tables in their order. -/
def HeaderPreserved (buf : List UInt8) (priv : JdecPrivate) (segs : List Segment)
    (u : HuffValUseful) : Prop :=
  ∃ head, writeHeadData buf = .ok head ∧ ∀ scan,
    (∃ priv', tinyjpegParseHeader (recodedHeader 0 u head ++ scan) = .ok priv' ∧
      SameFrame priv priv') ∧
    ∃ segs' rest', Walk StdMarkers.sos ((recodedHeader 0 u head ++ scan).drop 2) segs' rest' ∧
      (segs.filter fun s => s.marker ≠ StdMarkers.dht).Sublist segs'

theorem recodedHeader_eq {u : HuffValUseful} {cell : Nat → Nat → Int} (h : u.Built cell)
    (head : List UInt8) : recodedHeader 0 u head = head ++ (newTables u ++ sosHeader 0) := by
  have hhead := h.writeHuffmanTable_single (.start head) []
  have hstart : writeHuffmanTable 0 u (.start head) =
      writeHuffmanTable 0 u ((Writer.start head).emit []) := by
    rw [Writer.emit, List.append_nil]
    rfl
  rw [recodedHeader, hstart, hhead, newTables, h.single_out, ← List.append_assoc]
  rfl

/-- The new tables are the body of a segment if their length fits a byte. -/
theorem exists_newTables {u : HuffValUseful} {cell : Nat → Nat → Int} (h : u.Built cell)
    (hfit : u.total ≤ 185) :
    ∃ s : Segment, s.marker = StdMarkers.dht ∧ s.body = newTables u := by
  have hlen := h.length_singleSegment
  refine ⟨⟨StdMarkers.dht, singleSegment u, by decide, by omega⟩, rfl, ?_⟩
  have hhigh : UInt8.ofNat ((70 + u.total) / 256) = 0x00 := by
    rw [Nat.div_eq_of_lt (by omega)]
    rfl
  simp only [Segment.body, be16Bytes, hlen, show 68 + u.total + 2 = 70 + u.total by omega, hhigh,
    newTables, h.single_out]
  rfl

/-- The new scan header is accepted. -/
theorem parseSOS_sosHeader (f : JdecPrivate) (scan : List UInt8) :
    ∃ q, parseSOS f ((sosHeader 0).drop 2 ++ scan) = some q := ⟨_, rfl⟩

/-- Storing tables leaves the frame. -/
theorem storeTables_frame {tables : List (UInt8 × OneHufftype)} {priv priv' : JdecPrivate}
    (h : storeTables tables priv = some priv') : SameFrame priv priv' := by
  induction tables generalizing priv with
  | nil =>
      cases h
      exact .refl _
  | cons t tables ih =>
      rw [storeTables] at h
      split at h
      · cases h
      next priv₁ hstore => exact (storeTable_frame hstore).trans (ih h)

section
variable {buf rest : List UInt8} {priv : JdecPrivate} {segs : List Segment}
  {pre post : List (Nat × Segment)} {n m : Nat} {d : Segment} {u : HuffValUseful}
  {cell : Nat → Nat → Int}

/-- What `write_head_data` writes. -/
theorem writeHeadData_cut (hcut : Cut (buf.drop 2) segs pre n d post m rest)
    (hlen : 2 ≤ buf.length) : writeHeadData buf =
      .ok (buf.take 2 ++ spell pre (fill (n + 1) ++ [StdMarkers.dht])) := by
  have hspelt := hcut.spelt
  have hbound := length_spell pre (fill (n + 1) ++ StdMarkers.dht :: (d.body ++
    spell post (fill (m + 1) ++ StdMarkers.sos :: rest)))
  rw [← hspelt, List.length_drop] at hbound
  rw [writeHeadData, if_neg (Nat.not_lt.mpr hlen), hspelt]
  obtain ⟨k, hk⟩ := Nat.exists_eq_add_of_lt (show pre.length < buf.length by omega)
  rw [hk, show pre.length + k + 1 = k + 1 + pre.length by omega]
  exact witeheaddataParseJFIF_spell hcut.pre_dht k n _ _ (be16ToCpu_body d _)

/-- The bytes of the recoded file behind `SOI`. -/
theorem recoded_drop (pre : List (Nat × Segment)) (n : Nat) (h : u.Built cell)
    (hlen : 2 ≤ buf.length) {t : Segment} (ht : t.marker = StdMarkers.dht)
    (htables : t.body = newTables u) (scan : List UInt8) :
    (recodedHeader 0 u (buf.take 2 ++ spell pre (fill (n + 1) ++ [StdMarkers.dht])) ++ scan).drop 2 =
      spell (pre ++ [(n, t)])
        (fill (0 + 1) ++ StdMarkers.sos :: ((sosHeader 0).drop 2 ++ scan)) := by
  have htwo : (buf.take 2).length = 2 := by
    rw [List.length_take]
    omega
  have htail : ∀ r, spell pre (fill (n + 1) ++ [StdMarkers.dht]) ++ r =
      spell pre (fill (n + 1) ++ StdMarkers.dht :: r) := by
    intro r
    generalize pre = l
    induction l with
    | nil =>
        rw [spell, spell, List.append_assoc]
        rfl
    | cons p l ih => rw [spell, spell, List.append_assoc, List.cons_append, List.append_assoc, ih]
  rw [recodedHeader_eq h, List.append_assoc, List.append_assoc, List.drop_left' htwo, htail,
    spell_append, spell, ht, htables, List.append_assoc]
  rfl

/-- The rounds over an accepted header. -/
theorem parsed_cut (hparse : tinyjpegParseHeader buf = .ok priv)
    (hcut : Cut (buf.drop 2) segs pre n d post m rest) :
    ∃ f g, parseSegments pre (fill (n + 1) ++ StdMarkers.dht :: (d.body ++
        spell post (fill (m + 1) ++ StdMarkers.sos :: rest))) tinyjpegInit = .ok f ∧
      parseSegments ((n, d) :: post) (fill (m + 1) ++ StdMarkers.sos :: rest) f = .ok g ∧
      SameFrame g priv := by
  obtain ⟨hlen, p, hrun, rfl⟩ := tinyjpegParseHeader_ok hparse
  have hbound := length_spell (pre ++ (n, d) :: post) (fill (m + 1) ++ StdMarkers.sos :: rest)
  rw [← hcut.bytes, List.length_drop] at hbound
  rw [hcut.bytes] at hrun
  obtain ⟨g, hg, _, hsos⟩ := (parseJFIF_sos hcut.sos (by omega) m rest _ _).mp hrun
  rw [parseSegments_append, spell, hcut.marker] at hg
  obtain ⟨f, hf, hg⟩ := hg
  have hframe := parseSOS_frame hsos
  exact ⟨f, g, hf, hg, hframe.width, hframe.height, hframe.hfactor, hframe.vfactor,
    hframe.restartInterval⟩

/-- A round over the segment of the new tables stores them. -/
theorem parseSegments_newTables (h : u.Built cell) (hfit : u.total ≤ 185) {t : Segment}
    (ht : t.marker = StdMarkers.dht) (htables : t.body = newTables u) (n : Nat) (scan : List UInt8)
    (f g : JdecPrivate) :
    parseSegments [(n, t)] (fill (0 + 1) ++ StdMarkers.sos :: ((sosHeader 0).drop 2 ++ scan)) f =
        .ok g ↔ storeTables u.segmentTables f = some g := by
  have hdht := h.parseDHT_single hfit f (sosHeader 0 ++ scan)
  rw [← h.single_out, ← newTables] at hdht
  have htail : fill (0 + 1) ++ StdMarkers.sos :: ((sosHeader 0).drop 2 ++ scan) =
      sosHeader 0 ++ scan := rfl
  rw [parseSegments, ht, htables, parseMarker_dht, spell, htail]
  cases hstore : storeTables u.segmentTables f with
  | none =>
      rw [hstore] at hdht
      rw [hdht]
      constructor <;> intro hg <;> cases hg
  | some g' =>
      rw [hstore] at hdht
      rw [hdht]
      constructor <;> intro hg <;> cases hg <;> rfl

/-- The recoded header is parsed to a frame exactly when the copied segments are
and the new tables have room. -/
theorem recoded_parsed (priv : JdecPrivate) (n : Nat) (h : u.Built cell) (hfit : u.total ≤ 185)
    (hlen : 2 ≤ buf.length) (hsos : ∀ p ∈ pre, p.2.marker ≠ StdMarkers.sos) (scan : List UInt8) :
    (∃ priv', tinyjpegParseHeader
        (recodedHeader 0 u (buf.take 2 ++ spell pre (fill (n + 1) ++ [StdMarkers.dht])) ++ scan) =
          .ok priv' ∧ SameFrame priv priv') ↔
      (∃ f, parseSegments pre (fill (n + 1) ++ StdMarkers.dht ::
          (newTables u ++ (sosHeader 0 ++ scan))) tinyjpegInit = .ok f ∧ SameFrame priv f) ∧
        u.RowsFit := by
  obtain ⟨t, ht, htables⟩ := exists_newTables h hfit
  have hdrop := recoded_drop pre n h hlen ht htables scan
  generalize hout : recodedHeader 0 u (buf.take 2 ++ spell pre (fill (n + 1) ++ [StdMarkers.dht])) ++
    scan = out at hdrop
  have hsos' : ∀ p ∈ pre ++ [(n, t)], p.2.marker ≠ StdMarkers.sos := by
    intro p hp
    cases List.mem_append.mp hp with
    | inl hpre => exact hsos p hpre
    | inr hnew =>
        rw [List.mem_singleton.mp hnew, ht]
        decide
  have hbound := length_spell (pre ++ [(n, t)])
    (fill (0 + 1) ++ StdMarkers.sos :: ((sosHeader 0).drop 2 ++ scan))
  rw [← hdrop, List.length_drop] at hbound
  have hshort : ¬ out.length < 2 := by
    rw [← hout, List.length_append, recodedHeader_eq h, List.length_append, List.length_append,
      List.length_take]
    omega
  have hlen16 : ∃ len, be16ToCpu ((sosHeader 0).drop 2 ++ scan) = some len := ⟨_, rfl⟩
  have hfuel : (pre ++ [(n, t)]).length < out.length := by omega
  have hrun := fun q => parseJFIF_sos hsos' hfuel 0
    ((sosHeader 0).drop 2 ++ scan) tinyjpegInit q
  rw [← hdrop] at hrun
  constructor
  · rintro ⟨priv', hparse, hframe⟩
    obtain ⟨_, p, hp, rfl⟩ := tinyjpegParseHeader_ok hparse
    obtain ⟨g, hg, _, hscan⟩ := (hrun p).mp hp
    rw [parseSegments_append, spell, ht, htables] at hg
    obtain ⟨f, hf, hnew⟩ := hg
    have hstore := (parseSegments_newTables h hfit ht htables n scan f g).mp hnew
    have hsame := (storeTables_frame hstore).trans (parseSOS_frame hscan)
    refine ⟨⟨f, hf, hframe.trans ?_⟩, (h.storeTables_iff f).mp ⟨_, hstore⟩⟩
    exact ⟨hsame.width.symm, hsame.height.symm, fun c => (hsame.hfactor c).symm,
      fun c => (hsame.vfactor c).symm, hsame.restartInterval.symm⟩
  · rintro ⟨⟨f, hf, hframe⟩, hrows⟩
    obtain ⟨g, hstore⟩ := (h.storeTables_iff f).mpr hrows
    obtain ⟨q, hq⟩ := parseSOS_sosHeader g scan
    have hnew := (parseSegments_newTables h hfit ht htables n scan f g).mpr hstore
    have hboth := parseSegments_append.mpr ⟨f, by rwa [spell, ht, htables], hnew⟩
    have hdone := (hrun q).mpr ⟨g, hboth, hlen16, hq⟩
    have hsame := (hframe.trans (storeTables_frame hstore)).trans (parseSOS_frame hq)
    refine ⟨{ q with buffer := out.drop 2 }, ?_, hsame.width, hsame.height, hsame.hfactor,
      hsame.vfactor, hsame.restartInterval⟩
    rw [tinyjpegParseHeader, if_neg hshort, hdone]

/-- The recoded header keeps all segments other than tables exactly when none of
them stands behind a table. -/
theorem recoded_walk (h : u.Built cell) (hfit : u.total ≤ 185) (hlen : 2 ≤ buf.length)
    (hcut : Cut (buf.drop 2) segs pre n d post m rest) (scan : List UInt8) :
    (∃ segs' rest', Walk StdMarkers.sos
        ((recodedHeader 0 u (buf.take 2 ++ spell pre (fill (n + 1) ++ [StdMarkers.dht])) ++ scan).drop 2)
        segs' rest' ∧ (segs.filter fun s => s.marker ≠ StdMarkers.dht).Sublist segs') ↔
      OnlyTablesAfter segs := by
  obtain ⟨t, ht, htables⟩ := exists_newTables h hfit
  rw [recoded_drop _ _ h hlen ht htables scan]
  have hne : ∀ s ∈ (pre ++ [(n, t)]).map Prod.snd, s.marker ≠ StdMarkers.sos := by
    intro s hs
    obtain ⟨p, hp, rfl⟩ := List.mem_map.mp hs
    cases List.mem_append.mp hp with
    | inl hpre => exact hcut.pre_sos p hpre
    | inr hnew =>
        rw [List.mem_singleton.mp hnew, ht]
        decide
  have hwalk := Walk.spell _ hne (.stop 0 ((sosHeader 0).drop 2 ++ scan))
  have hkept : segs.filter (fun s => s.marker ≠ StdMarkers.dht) =
      pre.map Prod.snd ++ (post.map Prod.snd).filter fun s => s.marker ≠ StdMarkers.dht := by
    rw [hcut.segs, List.filter_append, List.filter_cons_of_neg (by simpa using hcut.marker)]
    congr 1
    rw [List.filter_eq_self]
    intro s hs
    obtain ⟨p, hp, rfl⟩ := List.mem_map.mp hs
    simpa using hcut.pre_dht p hp
  rw [List.append_nil, List.map_append, List.map_cons, List.map_nil] at hwalk
  have hsub : (pre.map Prod.snd ++ (post.map Prod.snd).filter fun s =>
      s.marker ≠ StdMarkers.dht).Sublist (pre.map Prod.snd ++ [t]) ↔ OnlyTablesAfter segs := by
    rw [List.append_sublist_append_left, OnlyTablesAfter, hcut.dropWhile]
    constructor
    · intro hsub s hs
      cases List.mem_cons.mp hs with
      | inl heq => rw [heq, hcut.marker]
      | inr hpost =>
          by_contra hnot
          have hmem := hsub.mem (List.mem_filter.mpr ⟨hpost, by simpa using hnot⟩)
          rw [List.mem_singleton.mp hmem] at hnot
          exact hnot ht
    · intro honly
      have hnil : ((post.map Prod.snd).filter fun s => s.marker ≠ StdMarkers.dht) = [] := by
        rw [List.filter_eq_nil_iff]
        intro s hs
        simpa using honly s (List.mem_cons_of_mem _ hs)
      rw [hnil]
      exact List.nil_sublist _
  rw [hkept, ← hsub]
  constructor
  · rintro ⟨segs', rest', hwalk', hsub'⟩
    obtain ⟨rfl, _⟩ := hwalk'.det (by decide) hwalk
    exact hsub'
  · exact fun hsub' => ⟨_, _, hwalk, hsub'⟩

/-- Complete frame headers read nothing behind the first DHT marker. -/
theorem frameKept_of_complete (hparse : tinyjpegParseHeader buf = .ok priv)
    (hcut : Cut (buf.drop 2) segs pre n d post m rest)
    (hcomplete : ∀ s ∈ segs.takeWhile (fun s => s.marker ≠ StdMarkers.dht), Complete s) :
    FrameKept buf u := by
  intro pre' n' rest' hpre' hspelt scan
  obtain ⟨f, _, hf, _⟩ := parsed_cut hparse hcut
  obtain ⟨rfl, rfl, rfl⟩ := spell_inj (by decide) hcut.pre_dht hpre' (hcut.spelt.symm.trans hspelt)
  rw [hcut.takeWhile] at hcomplete
  have hstart : SameStart (fill (n + 1) ++ StdMarkers.dht :: (d.body ++
        spell post (fill (m + 1) ++ StdMarkers.sos :: rest)))
      (fill (n + 1) ++ StdMarkers.dht :: (newTables u ++ (sosHeader 0 ++ scan))) := by
    cases n with
    | zero => exact ⟨0xff, StdMarkers.dht, _, _, rfl, rfl⟩
    | succ n => exact ⟨0xff, 0xff, _, _, rfl, rfl⟩
  have hall : ∀ p ∈ pre, p.2.marker ≠ StdMarkers.dht ∧ p.2.marker ≠ StdMarkers.sos ∧ Complete p.2 :=
    fun p hp => ⟨hcut.pre_dht p hp, hcut.pre_sos p hp, hcomplete p.2 (List.mem_map_of_mem hp)⟩
  obtain ⟨f', hf', hsame⟩ := parseSegments_same hall hstart (.refl _) hf
  exact ⟨f, f', hf, hf', hsame⟩

end

theorem headerPreserved_cut {buf rest : List UInt8} {priv : JdecPrivate} {segs : List Segment}
    {u : HuffValUseful} {cell : Nat → Nat → Int} (h : u.Built cell) (htotal : u.total ≤ 185)
    (hparse : tinyjpegParseHeader buf = .ok priv)
    (hwalk : Walk StdMarkers.sos (buf.drop 2) segs rest)
    (hdht : ∃ s ∈ segs, s.marker = StdMarkers.dht) :
    (HeaderPreserved buf priv segs u ↔ OnlyTablesAfter segs ∧ u.RowsFit ∧ FrameKept buf u) ∧
      ((∀ s ∈ segs.takeWhile (fun s => s.marker ≠ StdMarkers.dht), Complete s) →
        FrameKept buf u) := by
  obtain ⟨pre, n, d, post, m, hcut⟩ := Cut.exists hwalk hdht
  obtain ⟨hlen, _⟩ := tinyjpegParseHeader_ok hparse
  obtain ⟨f, g, hf, hg, hframe⟩ := parsed_cut hparse hcut
  have hhead := writeHeadData_cut hcut hlen
  have hparsed := fun scan => recoded_parsed priv n h htotal hlen hcut.pre_sos scan
  have hsegs := fun scan => recoded_walk h htotal hlen hcut scan
  -- with only tables behind it, the segments in front of the first table give the frame
  have hsame : OnlyTablesAfter segs → SameFrame f priv := by
    intro honly
    rw [OnlyTablesAfter, hcut.dropWhile] at honly
    refine (parseSegments_frame (fun p hp => ?_) hg).trans hframe
    exact honly p.2 (List.mem_map_of_mem (f := Prod.snd) hp)
  refine ⟨?_, frameKept_of_complete hparse hcut⟩
  constructor
  · rintro ⟨head, hhead', hall⟩
    rw [hhead] at hhead'
    cases hhead'
    have honly := (hsegs []).mp (hall []).2
    refine ⟨honly, ((hparsed []).mp (hall []).1).2, ?_⟩
    intro pre' n' rest' hpre' hspelt scan
    obtain ⟨rfl, rfl, rfl⟩ := spell_inj (by decide) hcut.pre_dht hpre' (hcut.spelt.symm.trans hspelt)
    obtain ⟨⟨f', hf', hframe'⟩, _⟩ := (hparsed scan).mp (hall scan).1
    exact ⟨f, f', hf, hf', (hsame honly).trans hframe'⟩
  · rintro ⟨honly, hrows, hkept⟩
    refine ⟨_, hhead, fun scan => ⟨(hparsed scan).mpr ⟨?_, hrows⟩, (hsegs scan).mpr honly⟩⟩
    obtain ⟨f₁, f', hf₁, hf', hframe'⟩ := hkept pre n _ hcut.pre_dht hcut.spelt scan
    rw [hf] at hf₁
    cases hf₁
    exact ⟨f', hf', (hsame honly).symm.trans hframe'⟩

/-- The header survives exactly when only tables stand between the first table and
the start of scan, the new tables have room in the decoder, and the frame does not
come from behind the first DHT marker.  The last holds whenever each frame header
in front of it is as long as its list of components. -/
theorem header_preserved_iff {buf : List UInt8} {priv : JdecPrivate} {segs : List Segment}
    {rest : List UInt8} (hparse : tinyjpegParseHeader buf = .ok priv)
    (hwalk : Walk StdMarkers.sos (buf.drop 2) segs rest)
    (hdht : ∃ s ∈ segs, s.marker = StdMarkers.dht) (v : HuffVal) (cbuf : CharBuf)
    (hfit : v.distinct 0 + v.distinct 1 + v.distinct 2 + v.distinct 3 ≤ 185) :
    ∃ u cbuf', buildTrees (buildHuffValUseful v) cbuf = .ok (u, cbuf') ∧
      (HeaderPreserved buf priv segs u ↔
        OnlyTablesAfter segs ∧ (∀ type < 4, v.distinct type ≤ 148) ∧ FrameKept buf u) ∧
      ((∀ s ∈ segs.takeWhile (fun s => s.marker ≠ StdMarkers.dht), Complete s) →
        FrameKept buf u) := by
  obtain ⟨u, cbuf', hrun, h⟩ := buildTrees_built (fun type i => countCell (v type i)) cbuf
  have hrowsFit : u.RowsFit ↔ ∀ type < 4, v.distinct type ≤ 148 := h.rowsFit_iff
  refine ⟨u, cbuf', hrun, ?_⟩
  rw [← hrowsFit]
  exact headerPreserved_cut h (h.total_eq.trans_le hfit) hparse hwalk hdht

/-! ## Two small headers -/

/-- A frame of eight by eight pixels with these component identifiers. -/
def smallFrame (a b c : UInt8) : Segment where
  marker := StdMarkers.sof
  payload := [8, 0, 8, 0, 8, 3, a, 0x11, 0, b, 0x11, 0, c, 0x11, 0]
  marker_ne := by decide
  fits := by simp

/-- A table with one code. -/
def smallTable : Segment where
  marker := StdMarkers.dht
  payload := 0x00 :: 1 :: List.replicate 15 0 ++ [0]
  marker_ne := by decide
  fits := by decide

/-- A restart interval of one MCU. -/
def smallInterval : Segment where
  marker := StdMarkers.dri
  payload := [0, 1]
  marker_ne := by decide
  fits := by decide

/-- A file with these segments in front of its scan. -/
def headerFile (segs : List Segment) : List UInt8 :=
  0xff :: StdMarkers.soi :: spell (segs.map fun s => (0, s))
    (fill 1 ++ StdMarkers.sos :: [0, 0x0c, 3, 0, 0, 1, 0, 2, 0, 0, 0x3f, 0])

theorem headerFile_walk {segs : List Segment} (h : ∀ s ∈ segs, s.marker ≠ StdMarkers.sos) :
    Walk StdMarkers.sos ((headerFile segs).drop 2) segs [0, 0x0c, 3, 0, 0, 1, 0, 2, 0, 0, 0x3f, 0] := by
  have hmap : (segs.map fun s => (0, s)).map Prod.snd = segs := by
    rw [List.map_map]
    exact List.map_id segs
  have hwalk := Walk.spell (segs.map fun s => (0, s)) (hmap.symm ▸ h)
    (.stop 0 [0, 0x0c, 3, 0, 0, 1, 0, 2, 0, 0, 0x3f, 0])
  rw [hmap, List.append_nil] at hwalk
  exact hwalk

/-- With the restart interval in front of the table the header survives. -/
theorem header_preserved_small : ∃ priv u cbuf',
    tinyjpegParseHeader (headerFile [smallFrame 0 1 2, smallInterval, smallTable]) = .ok priv ∧
      buildTrees (buildHuffValUseful (fewCounts 3)) (fun _ => '0') = .ok (u, cbuf') ∧
      HeaderPreserved (headerFile [smallFrame 0 1 2, smallInterval, smallTable]) priv
        [smallFrame 0 1 2, smallInterval, smallTable] u := by
  obtain ⟨priv, hpriv⟩ : ∃ priv,
      tinyjpegParseHeader (headerFile [smallFrame 0 1 2, smallInterval, smallTable]) = .ok priv :=
    ⟨_, rfl⟩
  obtain ⟨u, cbuf', hrun, hiff, hkept⟩ := header_preserved_iff hpriv
    (headerFile_walk (by decide)) (by decide) (fewCounts 3) (fun _ => '0') (by decide +kernel)
  refine ⟨priv, u, cbuf', hpriv, hrun, hiff.mpr ⟨by decide, by decide +kernel, hkept ?_⟩⟩
  intro s hs
  have hmem : s ∈ [smallFrame 0 1 2, smallInterval] := hs
  rcases List.mem_pair.mp hmem with rfl | rfl
  · exact fun _ => ⟨3, rfl, by decide⟩
  · exact fun h => absurd h (by decide)

/-- With the restart interval behind the table it is lost. -/
theorem header_loses_interval : ∃ priv u cbuf',
    tinyjpegParseHeader (headerFile [smallFrame 0 1 2, smallTable, smallInterval]) = .ok priv ∧
      buildTrees (buildHuffValUseful (fewCounts 3)) (fun _ => '0') = .ok (u, cbuf') ∧
      ¬ HeaderPreserved (headerFile [smallFrame 0 1 2, smallTable, smallInterval]) priv
        [smallFrame 0 1 2, smallTable, smallInterval] u := by
  obtain ⟨priv, hpriv⟩ : ∃ priv,
      tinyjpegParseHeader (headerFile [smallFrame 0 1 2, smallTable, smallInterval]) = .ok priv :=
    ⟨_, rfl⟩
  obtain ⟨u, cbuf', hrun, h⟩ :=
    buildTrees_built (fun type i => countCell (fewCounts 3 type i)) fun _ => '0'
  have hfew : (fewCounts 3).distinct 0 + (fewCounts 3).distinct 1 + (fewCounts 3).distinct 2 +
      (fewCounts 3).distinct 3 ≤ 185 := by decide +kernel
  obtain ⟨hiff, _⟩ := headerPreserved_cut h (h.total_eq.trans_le hfew) hpriv
    (headerFile_walk (by decide)) (by decide)
  refine ⟨priv, u, cbuf', hpriv, hrun, fun hpreserved => ?_⟩
  have honly := (hiff.mp hpreserved).1 smallInterval (by decide)
  exact absurd honly (by decide)

/-! ## The scan header -/

/-- What the copy can do when it ends well. -/
theorem witeheaddataParseJFIF_ok {fuel : Nat} {out bytes out' : List UInt8}
    (h : witeheaddataParseJFIF fuel out bytes = .ok out') :
    ∃ pre n rest, (∀ p ∈ pre, p.2.marker ≠ StdMarkers.dht) ∧
      bytes = spell pre (fill (n + 1) ++ StdMarkers.dht :: rest) ∧
      out' = out ++ spell pre (fill (n + 1) ++ [StdMarkers.dht]) := by
  induction fuel generalizing out bytes with
  | zero => cases h
  | succ fuel ih =>
      match bytes, h with
      | c :: stream, h =>
          have hround := h
          rw [witeheaddataParseJFIF] at h
          split at h
          · cases h
          next hc =>
            rw [Decidable.not_not.mp hc] at hround ⊢
            split at h
            · cases h
            next m stream' hskip =>
              split at h
              · cases h
              next len hlen =>
                obtain ⟨hm, n, rfl⟩ := skipFill_cons hskip
                change witeheaddataParseJFIF (fuel + 1) out (fill (n + 1) ++ m :: stream') = _
                  at hround
                change ∃ pre k rest, _ ∧ fill (n + 1) ++ m :: stream' = _ ∧ _
                rw [witeheaddataParseJFIF_marker hm n fuel out hlen] at hround
                split at hround
                next hdht =>
                  subst hdht
                  cases hround
                  exact ⟨[], n, stream', fun p hp => absurd hp List.not_mem_nil, rfl, rfl⟩
                next hdht =>
                  split at hround
                  · cases hround
                  · obtain ⟨pre, k, rest, hpre, hbytes, rfl⟩ := ih hround
                    obtain ⟨r, hr⟩ : ∃ r, stream'.drop len = 0xff :: r := by
                      rw [hbytes]
                      cases pre with
                      | nil => exact ⟨_, rfl⟩
                      | cons p pre => exact ⟨_, rfl⟩
                    obtain ⟨s, rfl, hs⟩ := segment_of_round hm hlen hr
                    rw [← hr, hbytes] at hs
                    have hbody : stream'.take len = s.body := by
                      have hcut := List.take_append_drop len stream'
                      rw [hbytes] at hcut
                      exact List.append_cancel_right (hcut.trans hs)
                    refine ⟨(n, s) :: pre, k, rest, ?_, by rw [hs]; rfl, ?_⟩
                    · intro p hp
                      cases List.mem_cons.mp hp with
                      | inl heq => exact heq ▸ hdht
                      | inr hmem => exact hpre p hmem
                    · rw [hbody, spell, List.append_assoc, List.append_assoc, List.cons_append]

/-- The identifiers in a list of components. -/
def componentIds : List UInt8 → List UInt8
  | cid :: _ :: _ :: rest => cid :: componentIds rest
  | _ => []

/-- The component identifiers of a frame header. -/
def frameIds (s : Segment) : List UInt8 :=
  (componentIds (s.payload.drop 6)).take ((s.payload.getD 5 0).toNat)

/-- The last frame header, which is the one a decoder keeps. -/
def lastFrame (segs : List Segment) : Option Segment :=
  segs.reverse.find? fun s => s.marker = StdMarkers.sof

/-- The selectors of a scan header: identifiers and table numbers. -/
def scanSelectors (header : List UInt8) : List (UInt8 × UInt8) :=
  [(header.getD 5 0, header.getD 6 0), (header.getD 7 0, header.getD 8 0),
    (header.getD 9 0, header.getD 10 0)].take ((header.getD 4 0).toNat)

/-- `dir_huff[workon].type` after the first pass. -/
def JdecPrivate.fileType (priv : JdecPrivate) : Nat := if priv.sampling = .s2x2 then 1 else 0

/-- The selectors of the scan header that is written are the identifiers of the
frame header that was copied, and their table numbers are those of the tables
that each component is encoded with. -/
structure SelectorsMatch (head : List UInt8) (type : Nat) (u : HuffValUseful) : Prop where
  /-- The identifiers. -/
  ids : ∃ segs s, Walk StdMarkers.dht (head.drop 2) segs [] ∧ lastFrame segs = some s ∧
    (scanSelectors (sosHeader type)).map Prod.fst = frameIds s
  /-- The DC tables. -/
  dc : ∀ c < 3, ∀ p, (scanSelectors (sosHeader type))[c]? = some p →
    (p.2 >>> 4, u.table (dcType c)) ∈ u.segmentTables
  /-- The AC tables. -/
  ac : ∀ c < 3, ∀ p, (scanSelectors (sosHeader type))[c]? = some p →
    (0x10 ||| p.2 &&& 0xf, u.table (acType c)) ∈ u.segmentTables

/-- The identifiers `Write_New_Body` writes. -/
theorem map_fst_scanSelectors (type : Nat) : (scanSelectors (sosHeader type)).map Prod.fst =
    if type = 0 then [0, 1, 2] else [1, 2, 3] := by
  rw [sosHeader]
  split <;> rfl

/-- The table numbers are right for every component. -/
theorem scanSelectors_tables (type : Nat) (u : HuffValUseful) {c : Nat} (hc : c < 3)
    {p : UInt8 × UInt8} (hp : (scanSelectors (sosHeader type))[c]? = some p) :
    (p.2 >>> 4, u.table (dcType c)) ∈ u.segmentTables ∧
      (0x10 ||| p.2 &&& 0xf, u.table (acType c)) ∈ u.segmentTables := by
  have hnumber : p.2 = if c = 0 then 0x00 else 0x11 := by
    rw [sosHeader] at hp
    split at hp
    all_goals
      match c, hc with
      | 0, _ => cases hp; rfl
      | 1, _ => cases hp; rfl
      | 2, _ => cases hp; rfl
  rw [hnumber, HuffValUseful.segmentTables, dcType, acType]
  split
  · exact ⟨List.mem_cons_self .., List.mem_cons_of_mem _ (List.mem_cons_self ..)⟩
  · exact ⟨List.mem_cons_of_mem _ (List.mem_cons_of_mem _ (List.mem_cons_self ..)),
      List.mem_cons_of_mem _ (List.mem_cons_of_mem _ (List.mem_cons_of_mem _
        (List.mem_cons_self ..)))⟩

theorem selectorsMatch_copied {buf head : List UInt8} (hhead : writeHeadData buf = .ok head)
    (type : Nat) (u : HuffValUseful) :
    ∃ segs rest, Walk StdMarkers.dht (buf.drop 2) segs rest ∧
      (SelectorsMatch head type u ↔
        (lastFrame segs).map frameIds = some (if type = 0 then [0, 1, 2] else [1, 2, 3])) := by
  rw [writeHeadData] at hhead
  split at hhead
  · cases hhead
  next hlen =>
    obtain ⟨pre, n, rest, hpre, hbuf, rfl⟩ := witeheaddataParseJFIF_ok hhead
    have hne : ∀ s ∈ pre.map Prod.snd, s.marker ≠ StdMarkers.dht := by
      intro s hs
      obtain ⟨p, hp, rfl⟩ := List.mem_map.mp hs
      exact hpre p hp
    have hin := Walk.spell pre hne (.stop n rest)
    have hout := Walk.spell pre hne (.stop n [])
    rw [List.append_nil] at hin hout
    have htwo : (buf.take 2).length = 2 := by
      rw [List.length_take]
      omega
    refine ⟨pre.map Prod.snd, rest, hbuf ▸ hin, ?_⟩
    constructor
    · rintro ⟨⟨segs, s, hwalk, hlast, hids⟩, _, _⟩
      rw [List.drop_left' htwo] at hwalk
      obtain ⟨rfl, _⟩ := hwalk.det (by decide) hout
      rw [hlast, Option.map_some, ← hids, map_fst_scanSelectors]
    · intro hids
      obtain ⟨s, hlast, hs⟩ := Option.map_eq_some_iff.mp hids
      refine ⟨⟨_, s, (List.drop_left' htwo).symm ▸ hout, hlast, ?_⟩, ?_, ?_⟩
      · rw [hs, map_fst_scanSelectors]
      · exact fun c hc p hp => (scanSelectors_tables type u hc hp).1
      · exact fun c hc p hp => (scanSelectors_tables type u hc hp).2

/-- The scan header fits the copied frame header exactly when that one calls the
components 0, 1 and 2, or 1, 2 and 3 in the files that `recodejpg` marks. -/
theorem selectors_match_iff {buf head : List UInt8} {priv : JdecPrivate}
    (_hparse : tinyjpegParseHeader buf = .ok priv) (hhead : writeHeadData buf = .ok head)
    (u : HuffValUseful) :
    ∃ segs rest, Walk StdMarkers.dht (buf.drop 2) segs rest ∧
      (SelectorsMatch head priv.fileType u ↔ (lastFrame segs).map frameIds =
        some (if priv.sampling = .s2x2 then [1, 2, 3] else [0, 1, 2])) := by
  obtain ⟨segs, rest, hwalk, hiff⟩ := selectorsMatch_copied hhead priv.fileType u
  refine ⟨segs, rest, hwalk, hiff.trans ?_⟩
  rw [JdecPrivate.fileType]
  split <;> rfl

/-- Of a file with a frame header and a table the frame header is copied. -/
theorem headerFile_copied (a b c : UInt8) : ∃ rest,
    Walk StdMarkers.dht ((headerFile [smallFrame a b c, smallTable]).drop 2) [smallFrame a b c]
      rest := by
  have hne : ∀ s ∈ [smallFrame a b c], s.marker ≠ StdMarkers.dht := by
    intro s hs
    rw [List.mem_singleton.mp hs]
    exact (by decide : StdMarkers.sof ≠ StdMarkers.dht)
  exact ⟨_, Walk.spell [(0, smallFrame a b c)] hne (.stop 0 _)⟩

/-- Components called 0, 1 and 2 are named rightly. -/
theorem selectors_match_small : ∃ priv head,
    tinyjpegParseHeader (headerFile [smallFrame 0 1 2, smallTable]) = .ok priv ∧
      writeHeadData (headerFile [smallFrame 0 1 2, smallTable]) = .ok head ∧
      ∀ u, SelectorsMatch head priv.fileType u := by
  obtain ⟨priv, hpriv, hsampling⟩ : ∃ priv,
      tinyjpegParseHeader (headerFile [smallFrame 0 1 2, smallTable]) = .ok priv ∧
        priv.sampling = .s1x1 := ⟨_, rfl, rfl⟩
  obtain ⟨head, hhead⟩ : ∃ head,
      writeHeadData (headerFile [smallFrame 0 1 2, smallTable]) = .ok head := ⟨_, rfl⟩
  refine ⟨priv, head, hpriv, hhead, fun u => ?_⟩
  obtain ⟨segs, rest, hwalk, hiff⟩ := selectors_match_iff hpriv hhead u
  obtain ⟨_, hcopied⟩ := headerFile_copied 0 1 2
  obtain ⟨rfl, _⟩ := hwalk.det (by decide) hcopied
  rw [hsampling] at hiff
  exact hiff.mpr (by decide)

/-- The usual identifiers 1, 2 and 3 are not those of the scan header. -/
theorem selectors_differ : ∃ priv head,
    tinyjpegParseHeader (headerFile [smallFrame 1 2 3, smallTable]) = .ok priv ∧
      writeHeadData (headerFile [smallFrame 1 2 3, smallTable]) = .ok head ∧
      ∀ u, ¬ SelectorsMatch head priv.fileType u := by
  obtain ⟨priv, hpriv, htype⟩ : ∃ priv,
      tinyjpegParseHeader (headerFile [smallFrame 1 2 3, smallTable]) = .ok priv ∧
        priv.fileType = 0 := ⟨_, rfl, rfl⟩
  obtain ⟨head, hhead⟩ : ∃ head,
      writeHeadData (headerFile [smallFrame 1 2 3, smallTable]) = .ok head := ⟨_, rfl⟩
  refine ⟨priv, head, hpriv, hhead, fun u hmatch => ?_⟩
  obtain ⟨segs, rest, hwalk, hiff⟩ := selectorsMatch_copied hhead priv.fileType u
  obtain ⟨_, hcopied⟩ := headerFile_copied 1 2 3
  obtain ⟨rfl, _⟩ := hwalk.det (by decide) hcopied
  rw [htype] at hiff hmatch
  exact absurd (hiff.mp hmatch) (by decide)

end Recode
