import JpegStorage.Recode.Header

/-!
# Headers with the same frame

What the decoder keeps of a header besides the tables is the frame: the size, the
sampling factors and the restart interval.  `parseSegments` is the walk over some
segments in front of a tail, and `parseSegments_same` compares two such walks.
The parsers do not look at the end of their segment, so a frame header that is
too short for its list of components reads from the tail (`Complete`).
-/

namespace Recode

open Segments

/-! ## Several rounds -/

/-- The rounds over some segments in front of a tail. -/
def parseSegments : List (Nat × Segment) → List UInt8 → JdecPrivate → Except Stop JdecPrivate
  | [], _, priv => .ok priv
  | (_, s) :: pre, tail, priv =>
      match parseMarker s.marker priv (s.body ++ spell pre tail) with
      | .error e => .error e
      | .ok priv => parseSegments pre tail priv

theorem orUndef_ok {α : Type} {x : Option α} {a : α} (h : orUndef x = .ok a) : x = some a := by
  cases x with
  | none => cases h
  | some b => exact congrArg some (Except.ok.inj h)

theorem parseMarker_dht (priv : JdecPrivate) (stream : List UInt8) :
    parseMarker StdMarkers.dht priv stream = (parseDHT priv stream).map Prod.fst := rfl

theorem parseMarker_sos (priv : JdecPrivate) (stream : List UInt8) :
    parseMarker StdMarkers.sos priv stream = orUndef (parseSOS priv stream) := rfl

theorem be16ToCpu_body (s : Segment) (rest : List UInt8) :
    be16ToCpu (s.body ++ rest) = some s.body.length := by
  obtain ⟨hi, lo, hbody, hlen⟩ := s.body_cons
  rw [s.length_body, hbody, List.cons_append, List.cons_append, be16ToCpu_cons, hlen]

/-- The walk over segments without a start of scan goes on behind them. -/
theorem parseJFIF_spell {pre : List (Nat × Segment)}
    (hsos : ∀ p ∈ pre, p.2.marker ≠ StdMarkers.sos) (fuel : Nat) (tail : List UInt8)
    (priv : JdecPrivate) : parseJFIF (fuel + pre.length) priv (spell pre tail) =
      match parseSegments pre tail priv with
      | .error e => .error e
      | .ok priv => parseJFIF fuel priv tail := by
  induction pre generalizing priv with
  | nil => rfl
  | cons p pre ih =>
      obtain ⟨n, s⟩ := p
      have hne : s.marker ≠ StdMarkers.sos := hsos (n, s) (List.mem_cons_self ..)
      rw [spell, List.length_cons, ← Nat.add_assoc,
        parseJFIF_marker s.marker_ne n _ priv (be16ToCpu_body s _), parseSegments]
      cases hm : parseMarker s.marker priv (s.body ++ spell pre tail) with
      | error e => rfl
      | ok priv₁ =>
          dsimp only
          rw [if_neg hne, List.drop_left]
          exact ih (fun q hq => hsos q (List.mem_cons_of_mem _ hq)) priv₁

theorem length_spell (pre : List (Nat × Segment)) (tail : List UInt8) :
    pre.length + tail.length ≤ (spell pre tail).length := by
  induction pre with
  | nil => exact Nat.le_of_eq (Nat.zero_add _)
  | cons p pre ih =>
      rw [spell, List.length_append, List.length_cons, List.length_cons, List.length_append]
      omega

theorem spell_append (pre pre' : List (Nat × Segment)) (tail : List UInt8) :
    spell (pre ++ pre') tail = spell pre (spell pre' tail) := by
  induction pre with
  | nil => rfl
  | cons p pre ih => rw [List.cons_append, spell, spell, ih]

/-- Segments are parsed one part after the other. -/
theorem parseSegments_append {pre post : List (Nat × Segment)} {tail : List UInt8}
    {priv g : JdecPrivate} : parseSegments (pre ++ post) tail priv = .ok g ↔
      ∃ f, parseSegments pre (spell post tail) priv = .ok f ∧
        parseSegments post tail f = .ok g := by
  induction pre generalizing priv with
  | nil =>
      constructor
      · exact fun h => ⟨priv, rfl, h⟩
      · rintro ⟨f, hf, h⟩
        cases hf
        exact h
  | cons p pre ih =>
      rw [List.cons_append, parseSegments, parseSegments, spell_append]
      cases parseMarker p.2.marker priv (p.2.body ++ spell pre (spell post tail)) with
      | error e =>
          constructor
          · intro h
            cases h
          · rintro ⟨f, hf, _⟩
            cases hf
      | ok priv₁ => exact ih

/-- The walk over segments up to the start of scan, with a round for each. -/
theorem parseJFIF_sos {pre : List (Nat × Segment)}
    (hsos : ∀ p ∈ pre, p.2.marker ≠ StdMarkers.sos) {fuel : Nat} (hfuel : pre.length < fuel)
    (m : Nat) (rest : List UInt8) (priv priv' : JdecPrivate) :
    parseJFIF fuel priv (spell pre (fill (m + 1) ++ StdMarkers.sos :: rest)) = .ok priv' ↔
      ∃ f, parseSegments pre (fill (m + 1) ++ StdMarkers.sos :: rest) priv = .ok f ∧
        (∃ len, be16ToCpu rest = some len) ∧ parseSOS f rest = some priv' := by
  obtain ⟨k, hk⟩ := Nat.exists_eq_add_of_lt hfuel
  rw [hk, show pre.length + k + 1 = k + 1 + pre.length by omega, parseJFIF_spell hsos]
  cases parseSegments pre (fill (m + 1) ++ StdMarkers.sos :: rest) priv with
  | error e =>
      constructor
      · exact fun h => by cases h
      · rintro ⟨f, hf, _⟩
        cases hf
  | ok f =>
      dsimp only
      constructor
      · intro h
        obtain ⟨_, n, m', stream, len, p, _, hbytes, hm', hlen, hmarker, hround⟩ := parseJFIF_cases h
        obtain ⟨_, rfl, rfl⟩ := fill_append_inj (by decide) hm' hbytes
        refine ⟨f, rfl, ⟨len, hlen⟩, ?_⟩
        cases hround with
        | inl hdone =>
            rw [hdone.2] at hmarker
            exact orUndef_ok hmarker
        | inr hmore => exact absurd rfl hmore.1
      · rintro ⟨_, hf, ⟨len, hlen⟩, hparse⟩
        cases hf
        rw [parseJFIF_marker (by decide) m k f hlen, parseMarker_sos, hparse]
        rfl

/-! ## The frame -/

/-- Two headers say the same of the frame and of the restart interval. -/
structure SameFrame (p q : JdecPrivate) : Prop where
  /-- `width`. -/
  width : p.width = q.width
  /-- `height`. -/
  height : p.height = q.height
  /-- `Hfactor`. -/
  hfactor : ∀ c, (p.componentInfos c).hfactor = (q.componentInfos c).hfactor
  /-- `Vfactor`. -/
  vfactor : ∀ c, (p.componentInfos c).vfactor = (q.componentInfos c).vfactor
  /-- `restart_interval`. -/
  restartInterval : p.restartInterval = q.restartInterval

namespace SameFrame

theorem refl (p : JdecPrivate) : SameFrame p p := ⟨rfl, rfl, fun _ => rfl, fun _ => rfl, rfl⟩

theorem symm {p q : JdecPrivate} (h : SameFrame p q) : SameFrame q p :=
  ⟨h.width.symm, h.height.symm, fun c => (h.hfactor c).symm, fun c => (h.vfactor c).symm,
    h.restartInterval.symm⟩

theorem trans {p q r : JdecPrivate} (h : SameFrame p q) (h' : SameFrame q r) : SameFrame p r :=
  ⟨h.width.trans h'.width, h.height.trans h'.height, fun c => (h.hfactor c).trans (h'.hfactor c),
    fun c => (h.vfactor c).trans (h'.vfactor c), h.restartInterval.trans h'.restartInterval⟩

end SameFrame

/-- A table that is stored was filled, and nothing else changes. -/
theorem storeTable_filled {priv priv' : JdecPrivate} {index : UInt8} {bits vals : List Nat}
    (h : priv.storeTable index bits vals = some priv') :
    ∃ old table, buildHuffmanTable bits vals old = some table ∧ priv' =
      if index &&& 0xf0 ≠ 0 then
        { priv with htac := Function.update priv.htac (index &&& 0xf).toNat table }
      else { priv with htdc := Function.update priv.htdc (index &&& 0xf).toNat table } := by
  simp only [JdecPrivate.storeTable] at h
  split at h
  · cases h
  · split at h
    next hclass =>
      split at h
      · cases h
      next table hbuild =>
        refine ⟨_, table, hbuild, ?_⟩
        rw [if_pos hclass]
        exact (Option.some.inj h).symm
    next hclass =>
      split at h
      · cases h
      next table hbuild =>
        refine ⟨_, table, hbuild, ?_⟩
        rw [if_neg hclass]
        exact (Option.some.inj h).symm

theorem storeTable_frame {priv priv' : JdecPrivate} {index : UInt8} {bits vals : List Nat}
    (h : priv.storeTable index bits vals = some priv') : SameFrame priv priv' := by
  simp only [JdecPrivate.storeTable] at h
  split at h
  · cases h
  · split at h
    · split at h
      · cases h
      · cases h
        exact ⟨rfl, rfl, fun _ => rfl, fun _ => rfl, rfl⟩
    · split at h
      · cases h
      · cases h
        exact ⟨rfl, rfl, fun _ => rfl, fun _ => rfl, rfl⟩

theorem parseTables_frame {fuel : Nat} {length : Int} {priv priv' : JdecPrivate}
    {stream rest : List UInt8} (h : parseTables fuel length priv stream = .ok (priv', rest)) :
    SameFrame priv priv' := by
  induction fuel generalizing length priv stream with
  | zero =>
      rw [parseTables] at h
      split at h
      · cases h
        exact .refl _
      · cases h
  | succ fuel ih =>
      rw [parseTables] at h
      split at h
      · cases h
        exact .refl _
      · split at h
        · cases h
        next priv₁ count stream₁ htable =>
          cases stream with
          | nil => cases htable
          | cons index stream =>
              simp only [parseTable] at htable
              split at htable
              · cases htable
              · split at htable
                · cases htable
                next priv₂ hstore =>
                  cases htable
                  exact (storeTable_frame hstore).trans (ih h)

theorem parseDHT_frame {priv priv' : JdecPrivate} {stream rest : List UInt8}
    (h : parseDHT priv stream = .ok (priv', rest)) : SameFrame priv priv' := by
  rw [parseDHT] at h
  split at h
  · cases h
  · exact parseTables_frame h

theorem sosComponents_frame {n i : Nat} {infos infos' : Nat → Component} {stream rest : List UInt8}
    (h : sosComponents n i infos stream = some (infos', rest)) (c : Nat) :
    (infos c).hfactor = (infos' c).hfactor ∧ (infos c).vfactor = (infos' c).vfactor := by
  induction n generalizing i infos stream with
  | zero =>
      cases h
      exact ⟨rfl, rfl⟩
  | succ n ih =>
      match stream, h with
      | _ :: table :: stream, h =>
          rw [sosComponents] at h
          split at h
          · cases h
          · obtain ⟨hh, hv⟩ := ih h
            rw [← hh, ← hv]
            by_cases hc : c = i
            · subst hc
              rw [Function.update_self]
              exact ⟨rfl, rfl⟩
            · rw [Function.update_of_ne hc]
              exact ⟨rfl, rfl⟩

theorem parseSOS_frame {priv priv' : JdecPrivate} {stream : List UInt8}
    (h : parseSOS priv stream = some priv') : SameFrame priv priv' := by
  rw [parseSOS] at h
  split at h
  · split at h
    · cases h
    next infos rest hinfos =>
      cases h
      exact ⟨rfl, rfl, fun c => (sosComponents_frame hinfos c).1,
        fun c => (sosComponents_frame hinfos c).2, rfl⟩
  · cases h

/-- Tables and the scan header leave the frame alone. -/
theorem parseMarker_frame {m : UInt8} (hm : m = StdMarkers.dht ∨ m = StdMarkers.sos)
    {priv priv' : JdecPrivate} {stream : List UInt8} (h : parseMarker m priv stream = .ok priv') :
    SameFrame priv priv' := by
  cases hm with
  | inl hdht =>
      subst hdht
      rw [parseMarker_dht] at h
      cases hrun : parseDHT priv stream with
      | error e =>
          rw [hrun] at h
          cases h
      | ok p =>
          rw [hrun] at h
          cases h
          exact parseDHT_frame hrun
  | inr hsos =>
      subst hsos
      rw [parseMarker_sos] at h
      exact parseSOS_frame (orUndef_ok h)

/-- Tables in a row leave the frame alone. -/
theorem parseSegments_frame {pre : List (Nat × Segment)}
    (hdht : ∀ p ∈ pre, p.2.marker = StdMarkers.dht) {tail : List UInt8} {priv priv' : JdecPrivate}
    (h : parseSegments pre tail priv = .ok priv') : SameFrame priv priv' := by
  induction pre generalizing priv with
  | nil =>
      cases h
      exact .refl _
  | cons p pre ih =>
      rw [parseSegments] at h
      split at h
      · cases h
      next priv₁ hm =>
        have hfirst := parseMarker_frame (Or.inl (hdht p (List.mem_cons_self ..))) hm
        exact hfirst.trans (ih (fun q hq => hdht q (List.mem_cons_of_mem _ hq)) h)

/-! ## Complete segments -/

/-- A frame header is long enough for its list of components. -/
def Complete (s : Segment) : Prop :=
  s.marker = StdMarkers.sof → ∃ nr, s.payload[5]? = some nr ∧ 6 + 3 * nr.toNat ≤ s.payload.length

theorem sofComponents_same {n i : Nat} {infos infos' out : Nat → Component} {comps : List UInt8}
    (hlen : 3 * n ≤ comps.length) {t : List UInt8} (t' : List UInt8)
    (hinfos : ∀ c, (infos c).hfactor = (infos' c).hfactor ∧ (infos c).vfactor = (infos' c).vfactor)
    (h : sofComponents n i infos (comps ++ t) = some out) :
    ∃ out', sofComponents n i infos' (comps ++ t') = some out' ∧
      ∀ c, (out c).hfactor = (out' c).hfactor ∧ (out c).vfactor = (out' c).vfactor := by
  induction n generalizing i infos infos' comps with
  | zero =>
      cases h
      exact ⟨infos', rfl, hinfos⟩
  | succ n ih =>
      match comps, hlen with
      | a :: b :: c :: comps, hlen =>
          rw [List.cons_append, List.cons_append, List.cons_append, sofComponents] at h ⊢
          split at h
          · cases h
          next hi =>
            rw [if_neg hi]
            refine ih (by simp only [List.length_cons] at hlen; omega) (fun d => ?_) h
            by_cases hd : d = i
            · subst hd
              rw [Function.update_self, Function.update_self]
              exact ⟨rfl, rfl⟩
            · rw [Function.update_of_ne hd, Function.update_of_ne hd]
              exact hinfos d
      | [], hlen => simp at hlen
      | [_], hlen => simp only [List.length_cons, List.length_nil] at hlen; omega
      | [_, _], hlen => simp only [List.length_cons, List.length_nil] at hlen; omega

/-- Two byte strings that begin with the same two bytes. -/
def SameStart (t t' : List UInt8) : Prop := ∃ a b r r', t = a :: b :: r ∧ t' = a :: b :: r'

/-- A complete segment in front of a marker reads the same whatever the marker
introduces. -/
theorem parseMarker_same {s : Segment} (hdht : s.marker ≠ StdMarkers.dht)
    (hsos : s.marker ≠ StdMarkers.sos) (hs : Complete s) {t t' : List UInt8} (ht : SameStart t t')
    {p p' q : JdecPrivate} (hp : SameFrame p p')
    (h : parseMarker s.marker p (s.body ++ t) = .ok q) :
    ∃ q', parseMarker s.marker p' (s.body ++ t') = .ok q' ∧ SameFrame q q' := by
  obtain ⟨hi, lo, hbody, _⟩ := s.body_cons
  rw [parseMarker] at h ⊢
  rw [hbody, List.cons_append, List.cons_append] at h ⊢
  by_cases hdri : s.marker = StdMarkers.dri
  · rw [if_pos hdri] at h ⊢
    have hsame : be16ToCpu (s.payload ++ t') = be16ToCpu (s.payload ++ t) := by
      obtain ⟨a, b, r, r', rfl, rfl⟩ := ht
      rcases s.payload with _ | ⟨hi, _ | ⟨lo, payload⟩⟩ <;> rfl
    have hdri := orUndef_ok h
    rw [parseDRI, List.drop_succ_cons, List.drop_succ_cons, List.drop_zero] at hdri ⊢
    rw [hsame]
    split at hdri
    · cases hdri
    next n hn =>
      cases hdri
      exact ⟨_, rfl, hp.width, hp.height, hp.hfactor, hp.vfactor, rfl⟩
  · rw [if_neg hdri] at h ⊢
    by_cases hsof : s.marker = StdMarkers.sof
    · rw [if_pos hsof] at h ⊢
      obtain ⟨nr, hnr, hlen⟩ := hs hsof
      have hrun := orUndef_ok h
      generalize s.payload = payload at hrun hnr hlen ⊢
      rcases payload with _ | ⟨b0, _ | ⟨h1, _ | ⟨h2, _ | ⟨w1, _ | ⟨w2, _ | ⟨nr', comps⟩⟩⟩⟩⟩⟩
      iterate 6 cases hnr
      obtain rfl : nr' = nr := Option.some.inj hnr
      simp only [parseSOF, List.cons_append, List.drop_succ_cons, List.drop_zero,
        be16ToCpu_cons] at hrun ⊢
      split at hrun
      · cases hrun
      next infos hinfos =>
        cases hrun
        have hroom : 3 * nr'.toNat ≤ comps.length := by
          simp only [List.length_cons] at hlen
          omega
        obtain ⟨infos', hinfos', hsame⟩ :=
          sofComponents_same hroom t' (fun c => ⟨hp.hfactor c, hp.vfactor c⟩) hinfos
        rw [hinfos']
        exact ⟨_, rfl, rfl, rfl, fun c => (hsame c).1, fun c => (hsame c).2, hp.restartInterval⟩
    · rw [if_neg hsof, if_neg hdht, if_neg hsos] at h ⊢
      cases h
      exact ⟨p', rfl, hp⟩

/-- Complete segments in front of a marker read the same whatever it introduces. -/
theorem parseSegments_same {pre : List (Nat × Segment)}
    (hpre : ∀ p ∈ pre, p.2.marker ≠ StdMarkers.dht ∧ p.2.marker ≠ StdMarkers.sos ∧ Complete p.2)
    {t t' : List UInt8} (ht : SameStart t t') {p p' q : JdecPrivate} (hp : SameFrame p p')
    (h : parseSegments pre t p = .ok q) :
    ∃ q', parseSegments pre t' p' = .ok q' ∧ SameFrame q q' := by
  induction pre generalizing p p' with
  | nil =>
      cases h
      exact ⟨p', rfl, hp⟩
  | cons x pre ih =>
      obtain ⟨n, s⟩ := x
      obtain ⟨hdht, hsos, hs⟩ := hpre (n, s) (List.mem_cons_self ..)
      have hstart : SameStart (spell pre t) (spell pre t') := by
        cases pre with
        | nil => exact ht
        | cons y pre =>
            obtain ⟨m, s'⟩ := y
            cases m with
            | zero => exact ⟨0xff, s'.marker, _, _, rfl, rfl⟩
            | succ m => exact ⟨0xff, 0xff, _, _, rfl, rfl⟩
      rw [parseSegments] at h ⊢
      split at h
      · cases h
      next q₁ hq₁ =>
        obtain ⟨q₁', hq₁', hsame⟩ := parseMarker_same hdht hsos hs hstart hp hq₁
        rw [hq₁']
        exact ih (fun y hy => hpre y (List.mem_cons_of_mem _ hy)) hsame h

end Recode
