import JpegStorage.Recode.Passes

/-!
# What a pass keeps

Decoding looks at the input only.  The state of the pass goes through its hooks, so two
passes whose hooks keep a relation of their states decode alike and keep the relation
(`mcuLoop_related`).  A single pass keeps what its hooks keep, whichever way it ends
(`mcuLoop_keeps`).
-/

namespace Recode

open Baseline Run

section
variable {σ τ : Type}

/-- States of the decoder that differ in the states of the passes only. -/
structure ScanRel (R : σ → τ → Prop) (s : Scan σ) (t : Scan τ) : Prop where
  /-- The reader. -/
  reader : s.reader = t.reader
  /-- The predictions. -/
  previousDC : s.previousDC = t.previousDC
  /-- The MCUs to go. -/
  restartsToGo : s.restartsToGo = t.restartsToGo
  /-- The marker. -/
  lastRst : s.lastRst = t.lastRst
  /-- The states of the passes. -/
  out : R s.out t.out

/-- Passes whose hooks keep a relation of their states. -/
structure HooksRel (R : σ → τ → Prop) (h : Hooks σ) (h' : Hooks τ) : Prop where
  /-- On symbols. -/
  symbol : ∀ type code, Related R (h.symbol type code) (h'.symbol type code)
  /-- On magnitudes. -/
  magnitude : ∀ value, Related R (h.magnitude value) (h'.magnitude value)
  /-- On restart markers. -/
  rst : ∀ last, Related R (h.rst last) (h'.rst last)

variable {R : σ → τ → Prop} {h : Hooks σ} {h' : Hooks τ}

theorem ScanRel.start (priv : JdecPrivate) {o : σ} {o' : τ} (ho : R o o') :
    ScanRel R (Scan.start priv o) (Scan.start priv o') := ⟨rfl, rfl, rfl, rfl, ho⟩

theorem ScanRel.resync (priv : JdecPrivate) {s : Scan σ} {t : Scan τ} (hs : ScanRel R s t) :
    ScanRel R (resync priv s) (resync priv t) :=
  ⟨by simp only [Recode.resync, hs.reader], rfl, rfl, hs.lastRst, hs.out⟩

theorem ScanRel.rewind (priv : JdecPrivate) {s : Scan σ} {t : Scan τ} (hs : ScanRel R s t) :
    ScanRel R (rewind priv s) (rewind priv t) :=
  ⟨by simp only [Recode.rewind, hs.reader], hs.previousDC, hs.restartsToGo, hs.lastRst, hs.out⟩

/-! ## Blocks -/

theorem readBits_related {α : Type} (f : BitReader → Option (α × BitReader)) :
    Related (ScanRel R) (readBits f) (readBits f) := by
  intro s t hs
  cases hr : f s.reader with
  | none =>
      rw [readBits_error hr, readBits_error (hs.reader ▸ hr)]
      exact .error hs
  | some p =>
      rw [readBits_ok hr, readBits_ok (hs.reader ▸ hr)]
      exact .ok ⟨rfl, hs.previousDC, hs.restartsToGo, hs.lastRst, hs.out⟩

theorem onOut_related {x : EStateM Stop σ Unit} {y : EStateM Stop τ Unit} (hxy : Related R x y) :
    Related (ScanRel R) (onOut x) (onOut y) := by
  intro s t hs
  have hrel := hxy _ _ hs.out
  cases hr : x.run s.out with
  | ok a o =>
      rw [hr] at hrel
      generalize hr' : y.run t.out = r' at hrel
      cases hrel with
      | ok ho =>
          rw [onOut_ok hr, onOut_ok hr']
          exact .ok ⟨hs.reader, hs.previousDC, hs.restartsToGo, hs.lastRst, ho⟩
  | error e o =>
      rw [hr] at hrel
      generalize hr' : y.run t.out = r' at hrel
      cases hrel with
      | error ho =>
          rw [onOut_error hr, onOut_error hr']
          exact .error ⟨hs.reader, hs.previousDC, hs.restartsToGo, hs.lastRst, ho⟩

theorem deref_related {α : Type} (x : Option α) :
    Related (ScanRel R) (deref (σ := σ) x) (deref (σ := τ) x) := by
  intro s t hs
  cases x with
  | none => exact .error hs
  | some a => exact .ok hs

theorem nextSymbol_related (hh : HooksRel R h h') (table : HuffmanTable) (type : Nat) :
    Related (ScanRel R) (nextSymbol h table type) (nextSymbol h' table type) :=
  (readBits_related _).bind fun code =>
    (onOut_related (hh.symbol type code)).bind fun _ => .pure code

theorem nextMagnitude_related (hh : HooksRel R h h') (n : Nat) :
    Related (ScanRel R) (nextMagnitude h n) (nextMagnitude h' n) := by
  refine (readBits_related _).bind fun value => ?_
  split
  · exact .throw _
  · exact (onOut_related (hh.magnitude _)).bind fun _ => .pure _

theorem acLoop_related (hh : HooksRel R h h') (table : HuffmanTable) (type : Nat) (fuel : Nat) :
    ∀ (j : Nat) (dct : List Int),
      Related (ScanRel R) (acLoop h table type fuel j dct) (acLoop h' table type fuel j dct) := by
  induction fuel with
  | zero => exact fun _ _ => .throw _
  | succ fuel ih =>
      intro j dct
      rw [acLoop, acLoop]
      split
      · exact .pure _
      · refine (nextSymbol_related hh table type).bind fun v => ?_
        dsimp only
        split
        · split
          · exact .pure _
          · split
            · exact ih _ _
            · exact ih _ _
        · split
          · exact .pure _
          · exact (nextMagnitude_related hh _).bind fun value => ih _ _

theorem acCoefficients_related (hh : HooksRel R h h') (table : HuffmanTable) (type : Nat)
    (dct : List Int) :
    Related (ScanRel R) (acCoefficients h table type dct) (acCoefficients h' table type dct) := by
  intro s t hs
  have hloop := acLoop_related hh table type s.reader.fuel 1 dct s t hs
  rw [EStateM.run, EStateM.run, acCoefficients, acCoefficients, ← hs.reader]
  exact hloop

theorem keepPreviousDC_related (component : Nat) :
    Related (ScanRel R) (keepPreviousDC component) (keepPreviousDC component) := by
  intro s t hs
  change ResultRel _ (.ok (s.previousDC component) s) (.ok (t.previousDC component) t)
  rw [hs.previousDC]
  exact .ok hs

theorem addPreviousDC_related (component : Nat) (diff : Int) :
    Related (ScanRel R) (addPreviousDC component diff) (addPreviousDC component diff) := by
  intro s t hs
  change ResultRel _ (.ok (int16 (diff + s.previousDC component)) _)
    (.ok (int16 (diff + t.previousDC component)) _)
  rw [hs.previousDC]
  exact .ok ⟨hs.reader, rfl, hs.restartsToGo, hs.lastRst, hs.out⟩

theorem dcCoefficient_related (hh : HooksRel R h h') (table : HuffmanTable) (component : Nat) :
    Related (ScanRel R) (dcCoefficient h table component) (dcCoefficient h' table component) := by
  refine (nextSymbol_related hh table _).bind fun v => ?_
  split
  · exact keepPreviousDC_related component
  · exact (nextMagnitude_related hh v).bind fun diff => addPreviousDC_related component diff

theorem processHuffmanDataUnit_related (hh : HooksRel R h h') (priv : JdecPrivate)
    (component : Nat) : Related (ScanRel R) (processHuffmanDataUnit h priv component)
      (processHuffmanDataUnit h' priv component) := by
  refine (deref_related _).bind fun dcTable => ?_
  refine (dcCoefficient_related hh dcTable component).bind fun dc => ?_
  refine (deref_related _).bind fun acTable => ?_
  exact acCoefficients_related hh acTable _ _

/-! ## The walk -/

theorem restart_related (hh : HooksRel R h h') (priv : JdecPrivate) :
    Related (ScanRel R) (restart h priv) (restart h' priv) := by
  intro s t hs
  have hsync := (hs.rewind priv).resync priv
  rw [EStateM.run, EStateM.run, restart, restart]
  generalize resync priv (rewind priv s) = s₁ at hsync ⊢
  generalize resync priv (rewind priv t) = t₁ at hsync ⊢
  simp only [hsync.reader, hsync.lastRst]
  split
  · exact .error hsync
  · exact .ok hsync
  · have hrel := hh.rst t₁.lastRst _ _ hsync.out
    generalize hr : (h.rst t₁.lastRst).run s₁.out = r at hrel
    generalize hr' : (h'.rst t₁.lastRst).run t₁.out = r' at hrel
    rw [EStateM.run] at hr hr'
    rw [hr, hr']
    cases hrel with
    | ok ho => exact .ok ⟨rfl, hsync.previousDC, hsync.restartsToGo, rfl, ho⟩
    | error ho =>
        exact .error ⟨rfl, hsync.previousDC, hsync.restartsToGo, rfl, ho⟩

theorem afterMcu_related (hh : HooksRel R h h') (priv : JdecPrivate) :
    Related (ScanRel R) (afterMcu h priv) (afterMcu h' priv) := by
  intro s t hs
  rw [EStateM.run, EStateM.run, afterMcu, afterMcu, hs.restartsToGo]
  split
  · have hcount : ScanRel R { s with restartsToGo := t.restartsToGo - 1 }
        { t with restartsToGo := t.restartsToGo - 1 } :=
      ⟨hs.reader, hs.previousDC, rfl, hs.lastRst, hs.out⟩
    dsimp only
    split
    · exact restart_related hh priv _ _ hcount
    · exact .ok hcount
  · exact .ok hs

theorem decodeMcu_related (hh : HooksRel R h h') (priv : JdecPrivate) (cs : List Nat) :
    Related (ScanRel R) (decodeMcu h priv cs) (decodeMcu h' priv cs) := by
  induction cs with
  | nil => exact .pure _
  | cons c cs ih =>
      exact (processHuffmanDataUnit_related hh priv c).bind fun block =>
        ih.bind fun blocks => .pure _

/-- Passes whose hooks keep a relation decode alike and keep it. -/
theorem mcuLoop_related (hh : HooksRel R h h') (priv : JdecPrivate) (components : List Nat)
    (n : Nat) :
    Related (ScanRel R) (mcuLoop h priv components n) (mcuLoop h' priv components n) := by
  induction n with
  | zero => exact .pure _
  | succ n ih =>
      exact (decodeMcu_related hh priv components).bind fun blocks =>
        (afterMcu_related hh priv).bind fun _ => ih.bind fun rest => .pure _

/-! ## One pass -/

/-- A pass that keeps `I` however its steps end. -/
def Hooks.Keeps (h : Hooks σ) (I : σ → Prop) : Prop := HooksRel (fun o o' => o = o' ∧ I o) h h

theorem related_keeps {I : σ → Prop} {x : EStateM Stop σ Unit}
    (hx : ∀ o, I o → I (finalState (x.run o))) :
    Related (fun o o' => o = o' ∧ I o) x x := by
  rintro o _ ⟨rfl, hI⟩
  have hfinal := hx o hI
  generalize x.run o = r at hfinal ⊢
  cases r with
  | ok a o' => exact .ok ⟨rfl, hfinal⟩
  | error e o' => exact .error ⟨rfl, hfinal⟩

/-- A step of the decoder that keeps `I` however it ends. -/
def Keeps {α : Type} (I : σ → Prop) (x : EStateM Stop (Scan σ) α) : Prop :=
  ∀ s, I s.out → I (finalState (x.run s)).out

theorem keeps_of_related {α : Type} {I : σ → Prop} {x : EStateM Stop (Scan σ) α}
    (hx : Related (ScanRel fun o o' => o = o' ∧ I o) x x) : Keeps I x :=
  fun s hs => (hx s s ⟨rfl, rfl, rfl, rfl, rfl, hs⟩).finalState.out.2

/-- What holds after a step holds at the end of what follows it. -/
theorem Keeps.bind {α β : Type} {I : σ → Prop} {x : EStateM Stop (Scan σ) α}
    {f : α → EStateM Stop (Scan σ) β} {s : Scan σ} (hx : I (finalState (x.run s)).out)
    (hf : ∀ a, Keeps I (f a)) : I (finalState ((x >>= f).run s)).out := by
  cases hr : x.run s with
  | ok a s' =>
      rw [hr] at hx
      rw [bind_ok hr]
      exact hf a s' hx
  | error e s' =>
      rw [hr] at hx
      rw [bind_error hr]
      exact hx

/-- What holds after the first symbol of a walk holds at its end. -/
theorem mcuLoop_first_symbol {I : σ → Prop} (hI : h.Keeps I) {priv : JdecPrivate}
    {table : HuffmanTable} (htable : priv.dcTable 0 = some table) (cs : List Nat) (n : Nat)
    {s : Scan σ} {v : Nat} {r : BitReader} (hnext : getNextHuffmanCode table s.reader = some (v, r))
    (hsym : I (finalState ((h.symbol (dcType 0) v).run s.out))) :
    I (finalState ((mcuLoop h priv (0 :: cs) (n + 1)).run s)).out := by
  have hfirst : I (finalState ((nextSymbol h table (dcType 0)).run s)).out := by
    rw [nextSymbol, bind_ok (readBits_ok hnext)]
    refine Keeps.bind ?_ fun _ => keeps_of_related (Related.pure _)
    cases ho : (h.symbol (dcType 0) v).run s.out with
    | ok u o =>
        rw [onOut_ok (s := { s with reader := r }) ho]
        rwa [ho] at hsym
    | error e o =>
        rw [onOut_error (s := { s with reader := r }) ho]
        rwa [ho] at hsym
  have hdc : I (finalState ((dcCoefficient h table 0).run s)).out := by
    refine Keeps.bind hfirst fun v => keeps_of_related ?_
    split
    · exact keepPreviousDC_related 0
    · exact (nextMagnitude_related hI v).bind fun diff => addPreviousDC_related 0 diff
  have hunit : I (finalState ((processHuffmanDataUnit h priv 0).run s)).out := by
    rw [processHuffmanDataUnit, htable, bind_ok (deref_some _ _)]
    exact Keeps.bind hdc fun dc => keeps_of_related ((deref_related _).bind fun acTable =>
      acCoefficients_related hI acTable _ _)
  have hmcu : I (finalState ((decodeMcu h priv (0 :: cs)).run s)).out :=
    Keeps.bind hunit fun _ =>
      keeps_of_related ((decodeMcu_related hI priv cs).bind fun _ => .pure _)
  exact Keeps.bind hmcu fun _ => keeps_of_related ((afterMcu_related hI priv).bind fun _ =>
    (mcuLoop_related hI priv _ n).bind fun _ => .pure _)

/-! ## The symbols a pass sees -/

/-- A pass that keeps `I` on the symbols the tables of the components can give. -/
structure Hooks.KeepsValues (h : Hooks σ) (priv : JdecPrivate) (components : List Nat)
    (I : σ → Prop) : Prop where
  /-- On DC symbols. -/
  dc : ∀ c ∈ components, ∀ table v, priv.dcTable c = some table → table.Value v →
    ∀ o, I o → I (finalState ((h.symbol (dcType c) v).run o))
  /-- On AC symbols. -/
  ac : ∀ c ∈ components, ∀ table v, priv.acTable c = some table → table.Value v →
    ∀ o, I o → I (finalState ((h.symbol (acType c) v).run o))
  /-- On magnitudes. -/
  magnitude : ∀ value o, I o → I (finalState ((h.magnitude value).run o))
  /-- On restart markers. -/
  rst : ∀ last o, I o → I (finalState ((h.rst last).run o))

/-- The pass without its symbols. -/
def Hooks.silent (h : Hooks σ) : Hooks σ := { h with symbol := fun _ _ => pure () }

section
variable {I : σ → Prop} {priv : JdecPrivate} {components : List Nat}

theorem Hooks.KeepsValues.silent (hI : h.KeepsValues priv components I) : h.silent.Keeps I where
  symbol _ _ := .pure _
  magnitude value := related_keeps (hI.magnitude value)
  rst last := related_keeps (hI.rst last)

theorem nextSymbol_keeps {table : HuffmanTable} {type : Nat}
    (hsym : ∀ v, table.Value v → ∀ o, I o → I (finalState ((h.symbol type v).run o))) :
    Keeps I (nextSymbol h table type) := by
  intro s hs
  cases hr : getNextHuffmanCode table s.reader with
  | none =>
      rw [nextSymbol, bind_error (readBits_error hr)]
      exact hs
  | some p =>
      obtain ⟨v, r⟩ := p
      have hout := hsym v (getNextHuffmanCode_value hr) s.out hs
      rw [nextSymbol, bind_ok (readBits_ok hr)]
      refine Keeps.bind ?_ fun _ => keeps_of_related (Related.pure _)
      cases ho : (h.symbol type v).run s.out with
      | ok u o =>
          rw [onOut_ok (s := { s with reader := r }) ho]
          rwa [ho] at hout
      | error e o =>
          rw [onOut_error (s := { s with reader := r }) ho]
          rwa [ho] at hout

theorem acLoop_keeps {table : HuffmanTable} {type : Nat}
    (hsym : ∀ v, table.Value v → ∀ o, I o → I (finalState ((h.symbol type v).run o)))
    (hsilent : h.silent.Keeps I) (fuel j : Nat) (dct : List Int) :
    Keeps I (acLoop h table type fuel j dct) := by
  induction fuel generalizing j dct with
  | zero => exact keeps_of_related (.throw _)
  | succ fuel ih =>
      rw [acLoop]
      split
      · exact keeps_of_related (.pure _)
      · intro s hs
        refine Keeps.bind (nextSymbol_keeps hsym s hs) fun v => ?_
        dsimp only
        split
        · split
          · exact keeps_of_related (.pure _)
          · split
            · exact ih _ _
            · exact ih _ _
        · split
          · exact keeps_of_related (.pure _)
          · have hmagnitude : Keeps I (nextMagnitude h (v % 16)) :=
              keeps_of_related (nextMagnitude_related hsilent _)
            exact fun s hs => Keeps.bind (hmagnitude s hs) fun value => ih _ _

theorem processHuffmanDataUnit_keeps (hI : h.KeepsValues priv components I) {component : Nat}
    (hc : component ∈ components) : Keeps I (processHuffmanDataUnit h priv component) := by
  intro s hs
  rw [processHuffmanDataUnit]
  cases hdc : priv.dcTable component with
  | none => exact hs
  | some dcTable =>
      rw [bind_ok (deref_some _ _)]
      have hcoefficient : I (finalState ((dcCoefficient h dcTable component).run s)).out := by
        refine Keeps.bind (nextSymbol_keeps (hI.dc _ hc _ · hdc) s hs) fun v => ?_
        split
        · exact keeps_of_related (keepPreviousDC_related component)
        · have hmagnitude : Keeps I (nextMagnitude h v) :=
            keeps_of_related (nextMagnitude_related hI.silent _)
          exact fun s hs => Keeps.bind (hmagnitude s hs) fun diff =>
            keeps_of_related (addPreviousDC_related component diff)
      refine Keeps.bind hcoefficient fun dc s hs => ?_
      cases hac : priv.acTable component with
      | none => exact hs
      | some acTable =>
          rw [bind_ok (deref_some _ _)]
          exact acLoop_keeps (hI.ac _ hc _ · hac) hI.silent _ _ _ s hs

/-- Whatever the input is, a pass sees nothing but symbols of the tables. -/
theorem mcuLoop_keeps (hI : h.KeepsValues priv components I) (n : Nat) :
    Keeps I (mcuLoop h priv components n) := by
  have hmcu : ∀ cs, cs ⊆ components → Keeps I (decodeMcu h priv cs) := by
    intro cs hcs
    induction cs with
    | nil => exact keeps_of_related (.pure _)
    | cons c cs ih =>
        obtain ⟨hc, hcs⟩ := List.cons_subset.mp hcs
        exact fun s hs => Keeps.bind (processHuffmanDataUnit_keeps hI hc s hs) fun block s hs =>
          Keeps.bind (ih hcs s hs) fun blocks => keeps_of_related (.pure _)
  have hafter : Keeps I (afterMcu h priv) := keeps_of_related (afterMcu_related hI.silent priv)
  induction n with
  | zero => exact keeps_of_related (.pure _)
  | succ n ih =>
      exact fun s hs => Keeps.bind (hmcu components (List.Subset.refl _) s hs) fun blocks s hs =>
        Keeps.bind (hafter s hs) fun _ s hs =>
          Keeps.bind (ih s hs) fun rest => keeps_of_related (.pure _)

end

end

end Recode
