import JpegStorage.Lib.Stuffing
import JpegStorage.Recode.CodeString
import JpegStorage.Recode.DataUnit

/-!
# Writing bits

`Write_Stream_To_File` packs strings of binary digits into bytes through
`WriteNewData_Stream`, a `bitset<8>` of which `WriteNewData_Stream_Bits` bits are
taken.  A byte goes out only when the next string does not fit, so the set can
be full between two calls.

`Holds` relates a writer to the bits it was given: the bytes written are the
stuffed form of data bytes, and the data bits with the bits still held are the
bits given.  `writeStreamToFile_holds` is the step, `writeAll_holds` the run, and
`bit_packer` says the same in terms of the digits of the strings.
-/

namespace Recode

open Stuffing

/-! ## The bit set -/

/-- `operator<<=` of a `bitset<8>`. -/
def shiftLeft8 (set n : Nat) : Nat := set <<< n % 256

/-- Nothing is left of a set. -/
@[simp] theorem shiftLeft8_eight (set : Nat) : shiftLeft8 set 8 = 0 := by
  rw [shiftLeft8, Nat.shiftLeft_eq]
  exact Nat.mul_mod_left set 256

/-- The bits `0` to `n - 1` set from characters of a string that are counted from its
end, `skip` of them left out. -/
def stringBits (str : List Char) (skip n : Nat) : Nat :=
  (List.range n).foldl
    (fun set i => if str.getD (str.length - 1 - i - skip) '0' ≠ '0' then set ||| 1 <<< i else set) 0

/-- `stringBits` where both the string and the set are long enough; elsewhere it
is undefined. -/
def checkedBits (str : List Char) (skip n : Nat) : Option Nat :=
  if 8 < n ∨ str.length < skip + n then none else some (stringBits str skip n)

/-- `head_string`: the characters before the last `bits`. -/
def headString (code : List Char) (bits : Nat) : Option Nat :=
  checkedBits code bits (code.length - bits)

/-- `use8_string`: the eight characters before the last `bits`. -/
def use8String (code : List Char) (bits : Nat) : Option Nat := checkedBits code bits 8

/-- `tail_string`: the last `bits` characters. -/
def tailString (code : List Char) (bits : Nat) : Option Nat := checkedBits code 0 bits

/-- `full_string_8`.  Characters beyond eight set bits outside of the set, which no
byte shows. -/
def fullString8 (str : List Char) : Nat := stringBits str 0 str.length % 256

/-! ## The writer -/

/-- The globals of the writer and the file it writes to. -/
structure Writer where
  /-- `WriteNewData_Stream`. -/
  stream : Nat
  /-- `WriteNewData_Stream_Bits`. -/
  bits : Nat
  /-- The bytes of the file. -/
  out : List UInt8
  /-- The strings `Write_Stream_To_File` was called with.  The code does not keep them. -/
  handed : List (List Char)
deriving DecidableEq, Repr

/-- The writer of a file at the start. -/
def Writer.start (out : List UInt8) : Writer := ⟨0, 0, out, []⟩

/-- `fprintf(fp, "%c", byte)`. -/
def Writer.put (w : Writer) (byte : Nat) : Writer := { w with out := w.out ++ [UInt8.ofNat byte] }

/-- A data byte goes out with a zero after `FF`. -/
def Writer.putData (w : Writer) (byte : Nat) : Writer :=
  if byte % 256 = 0xff then (w.put byte).put 0 else w.put byte

/-- Shift the set and put bits in. -/
def Writer.push (w : Writer) (n temp : Nat) : Writer :=
  { w with stream := shiftLeft8 w.stream n ||| temp }

/-- Write the set out and empty it. -/
def Writer.flush (w : Writer) : Writer :=
  { w.putData w.stream with stream := shiftLeft8 w.stream 8, bits := 0 }

/-- Keep the last `rest` characters in the set. -/
def Writer.keepTail (w : Writer) (code : List Char) (rest : Nat) : Option Writer :=
  match tailString code rest with
  | none => none
  | some temp => some { w.push 0 temp with bits := rest }

/-- `Write_Stream_To_File`. -/
def writeStreamToFile (code : List Char) (w : Writer) : Option Writer :=
  let w := { w with handed := w.handed ++ [code] }
  let room := 8 - w.bits
  if room < code.length then
    let rest := code.length - room
    match headString code rest with
    | none => none
    | some temp =>
        let w := (w.push room temp).flush
        if 8 ≤ rest then
          match use8String code (rest - 8) with
          | none => none
          | some temp => ((w.push 0 temp).flush).keepTail code (rest - 8)
        else w.keepTail code rest
  else
    match tailString code code.length with
    | none => none
    | some temp => some { w.push code.length temp with bits := w.bits + code.length }

/-- Several calls. -/
def writeAll : List (List Char) → Writer → Option Writer
  | [], w => some w
  | code :: codes, w =>
      match writeStreamToFile code w with
      | none => none
      | some w => writeAll codes w

/-! ## Strings and bits -/

/-- The bits of a string: a character less `'0'`, as a `bool`. -/
def stringToBits (str : List Char) : List Bool := str.map fun c => c ≠ '0'

@[simp] theorem length_stringToBits (str : List Char) : (stringToBits str).length = str.length :=
  List.length_map ..

@[simp] theorem stringToBits_bitChar (bits : List Bool) : stringToBits (bits.map bitChar) = bits := by
  rw [stringToBits, List.map_map]
  have hid : ((fun c : Char => decide (c ≠ '0')) ∘ bitChar) = id := by
    funext b
    cases b <;> rfl
  rw [hid, List.map_id]

theorem stringBits_succ (str : List Char) (skip n : Nat) :
    stringBits str skip (n + 1) =
      if str.getD (str.length - 1 - n - skip) '0' ≠ '0' then stringBits str skip n ||| 1 <<< n
      else stringBits str skip n := by
  rw [stringBits, List.range_succ, List.foldl_append]
  rfl

theorem stringBits_eq (str : List Char) (skip : Nat) : ∀ {n : Nat}, skip + n ≤ str.length →
    stringBits str skip n =
      Bits.toNat (((stringToBits str).drop (str.length - skip - n)).take n)
  | 0, _ => by simp [stringBits]
  | n + 1, h => by
      have ih := stringBits_eq str skip (n := n) (by omega)
      have hidx : str.length - 1 - n - skip = str.length - skip - (n + 1) := by omega
      have hin : str.length - skip - (n + 1) < str.length := by omega
      have hsplit : ((stringToBits str).drop (str.length - skip - (n + 1))).take (n + 1) =
          decide (str[str.length - skip - (n + 1)] ≠ '0') ::
            ((stringToBits str).drop (str.length - skip - n)).take n := by
        rw [List.drop_eq_getElem_cons (by simpa using hin), List.take_succ_cons,
          show str.length - skip - (n + 1) + 1 = str.length - skip - n by omega]
        simp [stringToBits]
      have hlen : (((stringToBits str).drop (str.length - skip - n)).take n).length = n := by
        simp
        omega
      have hlt := Bits.toNat_lt (((stringToBits str).drop (str.length - skip - n)).take n)
      rw [hlen] at hlt
      rw [stringBits_succ, hidx, List.getD_eq_getElem _ _ hin, hsplit, Bits.toNat, hlen, ih]
      by_cases hc : str[str.length - skip - (n + 1)] ≠ '0'
      · rw [if_pos hc, decide_eq_true hc, Nat.or_comm, Bits.shiftLeft_or hlt]
        simp
      · rw [if_neg hc, decide_eq_false hc]
        simp

theorem checkedBits_eq {str : List Char} {skip n : Nat} (h8 : n ≤ 8)
    (h : skip + n ≤ str.length) : checkedBits str skip n =
      some (Bits.toNat (((stringToBits str).drop (str.length - skip - n)).take n)) := by
  rw [checkedBits, if_neg (by omega), stringBits_eq str skip h]

/-! ## What a writer holds -/

/-- Since the file was `base` the writer was given these bits: the full bytes are
in the file, stuffed, and the others in the set. -/
structure Writer.Holds (w : Writer) (base : List UInt8) (given : List Bool) : Prop where
  /-- At most eight bits are taken. -/
  le : w.bits ≤ 8
  /-- Nothing above them is set. -/
  lt : w.stream < 2 ^ w.bits
  /-- The bytes and the bits. -/
  data : ∃ d, w.out = base ++ stuff d ∧ Bits.ofBytes d ++ Bits.ofNat w.bits w.stream = given

theorem Writer.start_holds (base : List UInt8) : (Writer.start base).Holds base [] :=
  ⟨Nat.zero_le _, Nat.one_pos, [], by simp [Writer.start, stuff], rfl⟩

theorem Writer.putData_out (w : Writer) {byte : Nat} (h : byte < 256) :
    (w.putData byte).out = w.out ++ stuff [UInt8.ofNat byte] := by
  have hmod : byte % 256 = byte := Nat.mod_eq_of_lt h
  rw [Writer.putData, hmod]
  by_cases hff : byte = 0xff
  · subst hff
    simp [Writer.put, stuff]
  · have hne : UInt8.ofNat byte ≠ 0xff := by
      intro heq
      have := congrArg UInt8.toNat heq
      simp only [UInt8.toNat_ofNat'] at this
      exact hff (by simpa [hmod] using this)
    simp [Writer.put, stuff, hff, hne]

@[simp] theorem Writer.putData_handed (w : Writer) (byte : Nat) :
    (w.putData byte).handed = w.handed := by
  rw [Writer.putData]
  split <;> rfl

@[simp] theorem Writer.flush_handed (w : Writer) : w.flush.handed = w.handed := by
  rw [Writer.flush]
  exact Writer.putData_handed ..

/-- Writing the set out does not look at the number of bits taken. -/
theorem Writer.flush_bits (w : Writer) (n : Nat) : Writer.flush { w with bits := n } = w.flush := by
  rw [Writer.flush, Writer.flush, Writer.putData, Writer.putData]
  split <;> rfl

/-- Bits that fit go into the set. -/
theorem Writer.Holds.push {w : Writer} {base : List UInt8} {given bits : List Bool} {n : Nat}
    (h : w.Holds base given) (hn : bits.length = n) (hfit : w.bits + n ≤ 8) :
    Writer.Holds { w.push n (Bits.toNat bits) with bits := w.bits + n } base (given ++ bits) := by
  subst hn
  obtain ⟨hle, hlt, d, hout, hbits⟩ := h
  have hb := Bits.toNat_lt bits
  have hpow : 2 ^ (w.bits + bits.length) ≤ 2 ^ 8 := Nat.pow_le_pow_right (by omega) hfit
  rw [pow_add] at hpow
  have hmul : w.stream * 2 ^ bits.length + 2 ^ bits.length ≤ 2 ^ w.bits * 2 ^ bits.length := by
    rw [← Nat.succ_mul]
    exact Nat.mul_le_mul_right _ hlt
  have hset : shiftLeft8 w.stream bits.length ||| Bits.toNat bits =
      w.stream * 2 ^ bits.length + Bits.toNat bits := by
    rw [shiftLeft8, Nat.mod_eq_of_lt (by rw [Nat.shiftLeft_eq]; omega), Bits.shiftLeft_or hb]
  refine ⟨hfit, ?_, d, hout, ?_⟩
  · change shiftLeft8 w.stream bits.length ||| Bits.toNat bits < 2 ^ (w.bits + bits.length)
    rw [hset, pow_add]
    omega
  · change Bits.ofBytes d ++ Bits.ofNat (w.bits + bits.length)
      (shiftLeft8 w.stream bits.length ||| Bits.toNat bits) = given ++ bits
    have happ := Bits.ofNat_append (Bits.ofNat w.bits w.stream) bits (v := w.bits)
      (w := bits.length) (n := w.stream * 2 ^ bits.length + Bits.toNat bits) (by simp) rfl
      (by rw [Bits.toNat_ofNat_of_lt hlt])
    rw [hset, happ, ← List.append_assoc, hbits]

/-- A full set goes out as a byte. -/
theorem Writer.Holds.flush {w : Writer} {base : List UInt8} {given : List Bool}
    (h : w.Holds base given) (hfull : w.bits = 8) : w.flush.Holds base given := by
  obtain ⟨_, hlt, d, hout, hbits⟩ := h
  rw [hfull] at hlt hbits
  refine ⟨Nat.zero_le _, ?_, d ++ [UInt8.ofNat w.stream], ?_, ?_⟩
  · change shiftLeft8 w.stream 8 < 2 ^ 0
    rw [shiftLeft8_eight]
    exact Nat.one_pos
  · change (w.putData w.stream).out = _
    rw [Writer.putData_out w hlt, hout, stuff_append, List.append_assoc]
  · change Bits.ofBytes (d ++ [UInt8.ofNat w.stream]) ++ Bits.ofNat 0 _ = given
    have hbyte : (UInt8.ofNat w.stream).toNat = w.stream := by
      rw [UInt8.toNat_ofNat', Nat.mod_eq_of_lt hlt]
    rw [Bits.ofBytes_append, Bits.ofNat_zero, List.append_nil, ← hbits, Bits.ofBytes_cons,
      Bits.ofBytes_nil, List.append_nil, Bits.ofByte, hbyte]

/-- Bits that fill the set go out. -/
theorem Writer.Holds.fill {w : Writer} {base : List UInt8} {given bits : List Bool} {n : Nat}
    (h : w.Holds base given) (hn : bits.length = n) (hfull : w.bits + n = 8) :
    (w.push n (Bits.toNat bits)).flush.Holds base (given ++ bits) := by
  rw [← Writer.flush_bits _ (w.bits + n)]
  exact (h.push hn hfull.le).flush hfull

/-- With an empty set there is nothing to shift. -/
theorem Writer.Holds.push_zero {w : Writer} {base : List UInt8} {given : List Bool}
    (h : w.Holds base given) (h0 : w.bits = 0) (n temp : Nat) : w.push 0 temp = w.push n temp := by
  have hlt := h.lt
  rw [h0, pow_zero, Nat.lt_one_iff] at hlt
  simp [Writer.push, shiftLeft8, hlt]

theorem Writer.Holds.keepTail {w : Writer} {base : List UInt8} {given : List Bool}
    (h : w.Holds base given) (h0 : w.bits = 0) (code : List Char) (rest : Nat) (h8 : rest ≤ 8)
    (hlen : rest ≤ code.length) :
    ∃ w', w.keepTail code rest = some w' ∧ w'.handed = w.handed ∧
      w'.Holds base (given ++ (stringToBits code).drop (code.length - rest)) := by
  have hbits : (((stringToBits code).drop (code.length - rest)).take rest) =
      (stringToBits code).drop (code.length - rest) := by
    refine List.take_of_length_le ?_
    simp
    omega
  rw [Writer.keepTail, tailString, checkedBits_eq h8 (by omega), Nat.sub_zero, hbits]
  have hlast : ((stringToBits code).drop (code.length - rest)).length = rest := by
    simp
    omega
  have hpush := h.push hlast (by omega)
  rw [h0, Nat.zero_add] at hpush
  exact ⟨_, rfl, rfl, h.push_zero h0 rest _ ▸ hpush⟩

/-- A string goes in whole. -/
theorem writeStreamToFile_holds {w : Writer} {base : List UInt8} {given : List Bool}
    {code : List Char} (h : w.Holds base given) (h16 : code.length ≤ 16) :
    ∃ w', writeStreamToFile code w = some w' ∧ w'.handed = w.handed ++ [code] ∧
      w'.Holds base (given ++ stringToBits code) := by
  have h₁ : Writer.Holds { w with handed := w.handed ++ [code] } base given := ⟨h.le, h.lt, h.data⟩
  have hle := h.le
  rw [writeStreamToFile]
  generalize hw₁ : ({ w with handed := w.handed ++ [code] } : Writer) = w₁ at h₁
  have hbits₁ : w₁.bits = w.bits := by rw [← hw₁]
  have hhanded₁ : w₁.handed = w.handed ++ [code] := by rw [← hw₁]
  rw [← hhanded₁]
  dsimp only
  rw [hbits₁]
  by_cases hroom : 8 - w.bits < code.length
  · generalize hr : 8 - w.bits = room at hroom
    generalize hrest : code.length - room = rest
    -- fill the set up
    have hhead : headString code rest = some (Bits.toNat ((stringToBits code).take room)) := by
      rw [headString, checkedBits_eq (by omega) (by omega),
        show code.length - rest - (code.length - rest) = 0 by omega, List.drop_zero,
        show code.length - rest = room by omega]
    have hfull : (w₁.push room (Bits.toNat ((stringToBits code).take room))).flush.Holds base
        (given ++ (stringToBits code).take room) := h₁.fill (by simp; omega) (by omega)
    rw [if_pos hroom, hhead]
    dsimp only
    generalize hw₂ : (w₁.push room (Bits.toNat ((stringToBits code).take room))).flush = w₂ at hfull
    have hbits₂ : w₂.bits = 0 := by rw [← hw₂, Writer.flush]
    have hhanded₂ : w₂.handed = w₁.handed := by
      rw [← hw₂, Writer.flush_handed, Writer.push]
    by_cases hbyte : 8 ≤ rest
    · -- one more byte
      have huse : use8String code (rest - 8) =
          some (Bits.toNat (((stringToBits code).drop room).take 8)) := by
        rw [use8String, checkedBits_eq (Nat.le_refl 8) (by omega),
          show code.length - (rest - 8) - 8 = room by omega]
      have hnext : (w₂.push 0 (Bits.toNat (((stringToBits code).drop room).take 8))).flush.Holds base
          (given ++ (stringToBits code).take room ++ ((stringToBits code).drop room).take 8) := by
        rw [hfull.push_zero hbits₂ 8]
        exact hfull.fill (by simp; omega) (by omega)
      rw [if_pos hbyte, huse]
      dsimp only
      obtain ⟨w', hw', hhanded', hholds⟩ := hnext.keepTail (by rw [Writer.flush]) code
        (rest - 8) (by omega) (by omega)
      refine ⟨w', hw', ?_, ?_⟩
      · rw [hhanded', ← hhanded₂, Writer.flush_handed, Writer.push]
      · have hsplit : (stringToBits code).take room ++ (((stringToBits code).drop room).take 8 ++
            (stringToBits code).drop (code.length - (rest - 8))) = stringToBits code := by
          rw [show code.length - (rest - 8) = room + 8 by omega, ← List.drop_drop,
            List.take_append_drop, List.take_append_drop]
        rw [List.append_assoc, List.append_assoc, hsplit] at hholds
        exact hholds
    · rw [if_neg hbyte]
      obtain ⟨w', hw', hhanded', hholds⟩ := hfull.keepTail hbits₂ code rest
        (by omega) (by omega)
      refine ⟨w', hw', by rw [hhanded', hhanded₂], ?_⟩
      rw [show code.length - rest = room by omega, List.append_assoc, List.take_append_drop]
        at hholds
      exact hholds
  · have htail : tailString code code.length = some (Bits.toNat (stringToBits code)) := by
      rw [tailString, checkedBits_eq (by omega) (by omega), Nat.sub_zero, Nat.sub_self,
        List.drop_zero, List.take_of_length_le (by simp)]
    rw [if_neg hroom, htail]
    refine ⟨_, rfl, rfl, ?_⟩
    rw [← hbits₁]
    exact h₁.push (length_stringToBits code) (by omega)

/-- Any number of strings go in whole. -/
theorem writeAll_holds : ∀ {codes : List (List Char)} {w : Writer} {base : List UInt8}
    {given : List Bool}, w.Holds base given → (∀ c ∈ codes, c.length ≤ 16) →
    ∃ w', writeAll codes w = some w' ∧ w'.handed = w.handed ++ codes ∧
      w'.Holds base (given ++ codes.flatMap stringToBits)
  | [], w, _, _, h, _ => ⟨w, rfl, by simp, by simpa using h⟩
  | code :: codes, w, base, given, h, h16 => by
      obtain ⟨w₁, hw₁, hhanded₁, h₁⟩ :=
        writeStreamToFile_holds h (h16 code (List.mem_cons_self ..))
      obtain ⟨w₂, hw₂, hhanded₂, h₂⟩ :=
        writeAll_holds h₁ fun c hc => h16 c (List.mem_cons_of_mem _ hc)
      refine ⟨w₂, by rw [writeAll, hw₁]; exact hw₂, ?_, ?_⟩
      · rw [hhanded₂, hhanded₁, List.append_assoc]
        rfl
      · rw [List.flatMap_cons, ← List.append_assoc]
        exact h₂

/-! ## The packer -/

/-- A string of binary digits is spelled by its bits. -/
theorem map_bitChar_stringToBits {str : List Char} (h : ∀ x ∈ str, x = '0' ∨ x = '1') :
    (stringToBits str).map bitChar = str := by
  rw [stringToBits, List.map_map]
  refine (List.map_congr_left fun x hx => ?_).trans (List.map_id str)
  rcases h x hx with rfl | rfl <;> rfl

theorem map_bitChar_flatMap {codes : List (List Char)}
    (h : ∀ c ∈ codes, ∀ x ∈ c, x = '0' ∨ x = '1') :
    (codes.flatMap stringToBits).map bitChar = codes.flatten := by
  rw [List.map_flatMap, List.flatten_eq_flatMap]
  exact List.flatMap_congr fun c hc => map_bitChar_stringToBits (h c hc)

/-- The bytes written are data bytes with a zero behind every `FF`, and with the bits held
they spell the strings. -/
theorem Writer.Holds.spells {w : Writer} {base : List UInt8} {codes : List (List Char)}
    (h : w.Holds base (codes.flatMap stringToBits))
    (hdigits : ∀ c ∈ codes, ∀ x ∈ c, x = '0' ∨ x = '1') :
    ∃ written, w.out = base ++ written ∧ stuff (unstuff written) = written ∧
      (Bits.ofBytes (unstuff written) ++ Bits.ofNat w.bits w.stream).map bitChar = codes.flatten := by
  obtain ⟨d, hout, hbits⟩ := h.data
  have hdata : unstuff (stuff d) = d := by
    have happ := unstuff_stuff_append d []
    rwa [List.append_nil, unstuff_nil, List.append_nil] at happ
  refine ⟨stuff d, hout, by rw [hdata], ?_⟩
  rw [hdata, hbits, map_bitChar_flatMap hdigits]

/-- After any number of the calls the helpers stayed inside of their strings and sets, at
most eight bits wait, and nothing is lost, added or out of order. -/
theorem bit_packer {codes : List (List Char)} (hlen : ∀ c ∈ codes, c.length ≤ 16)
    (hdigits : ∀ c ∈ codes, ∀ x ∈ c, x = '0' ∨ x = '1') (base : List UInt8) (n : Nat) :
    ∃ w written, writeAll (codes.take n) (.start base) = some w ∧ w.bits ≤ 8 ∧
      w.out = base ++ written ∧ stuff (unstuff written) = written ∧
      (Bits.ofBytes (unstuff written) ++ Bits.ofNat w.bits w.stream).map bitChar =
        (codes.take n).flatten := by
  obtain ⟨w, hrun, -, hholds⟩ := writeAll_holds (Writer.start_holds base)
    fun c hc => hlen c (List.mem_of_mem_take hc)
  rw [List.nil_append] at hholds
  obtain ⟨written, hout, hstuffed, hspells⟩ :=
    hholds.spells fun c hc => hdigits c (List.mem_of_mem_take hc)
  exact ⟨w, written, hrun, hholds.le, hout, hstuffed, hspells⟩

/-- A full byte of ones and three more digits. -/
theorem bit_packer_two : ∃ w written,
    writeAll ([List.replicate 8 '1', ['1', '0', '1']].take 2) (.start []) = some w ∧ w.bits ≤ 8 ∧
      w.out = [] ++ written ∧ stuff (unstuff written) = written ∧
      (Bits.ofBytes (unstuff written) ++ Bits.ofNat w.bits w.stream).map bitChar =
        ([List.replicate 8 '1', ['1', '0', '1']].take 2).flatten :=
  bit_packer (by decide) (by simp) [] 2

end Recode
