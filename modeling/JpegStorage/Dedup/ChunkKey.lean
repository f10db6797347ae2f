import JpegStorage.Dedup.Recipe

/-!
# The key of a chunk

`restoreRecipeAndChunk` takes the 32 bytes of a recipe entry for the key of a chunk.
The chunker converts the array `hash` to a string, which ends at the first zero
byte.  A hash has none, so the scan leaves the array and goes on in the memory
behind it.
-/

namespace Dedup

/-- A string that ends at the first zero byte.  The scan must not leave the memory. -/
def cString : Bytes → Except Fault Bytes
  | [] => .error .undefined
  | byte :: bytes =>
      if byte = 0 then .ok []
      else do
        let rest ← cString bytes
        .ok (byte :: rest)

/-- `(char *)hash` as a string.  `after` is the memory behind the array. -/
def savedKey (hash : Hash) (after : Bytes) : Except Fault Bytes := cString (hash.toList ++ after)

/-- The key `restoreRecipeAndChunk` makes of an entry. -/
def RecipeEntry.restoredKey (entry : RecipeEntry) : Bytes := entry.chunkHash.toList

/-- The recipe entry the chunker writes for a chunk. -/
def savedEntry (sha256 : Bytes → Hash) (chunkID : Nat) (encryptKey : Hash) (data : Bytes) :
    RecipeEntry :=
  ⟨u32 chunkID, i32 data.length, generateHash sha256 data, encryptKey⟩

theorem cString_append {bytes : Bytes} (h : ∀ byte ∈ bytes, byte ≠ 0) (after : Bytes) :
    cString (bytes ++ after) = (bytes ++ ·) <$> cString after := by
  induction bytes with
  | nil =>
      rw [List.nil_append]
      cases cString after <;> rfl
  | cons byte bytes ih =>
      have hne : byte ≠ 0 := h byte (List.mem_cons_self ..)
      rw [List.cons_append, cString, if_neg hne,
        ih fun byte hbyte => h byte (List.mem_cons_of_mem _ hbyte)]
      cases cString after <;> rfl

theorem cString_eq_nil {after : Bytes} : cString after = .ok [] ↔ after.head? = some 0 := by
  cases after with
  | nil => exact ⟨nofun, nofun⟩
  | cons byte after =>
      rw [cString, List.head?_cons, Option.some_inj]
      by_cases hzero : byte = 0
      · simp [hzero]
      · rw [if_neg hzero]
        refine ⟨fun h => ?_, fun h => absurd h hzero⟩
        cases hrest : cString after with
        | error fault => rw [hrest] at h; cases h
        | ok rest => rw [hrest] at h; cases h

/-- `generateHash` leaves no zero byte. -/
theorem generateHash_ne_zero (sha256 : Bytes → Hash) (data : Bytes) :
    ∀ byte ∈ (generateHash sha256 data).toList, byte ≠ 0 := by
  intro byte hbyte
  rw [generateHash, Vector.toList_map] at hbyte
  obtain ⟨old, _, rfl⟩ := List.mem_map.mp hbyte
  split
  · decide
  next hne => exact hne

/-- The key is the hash and what is behind it. -/
theorem savedKey_eq (sha256 : Bytes → Hash) (data after : Bytes) :
    savedKey (generateHash sha256 data) after =
      ((generateHash sha256 data).toList ++ ·) <$> cString after :=
  cString_append (generateHash_ne_zero sha256 data) after

theorem savedKey_eq_hash {sha256 : Bytes → Hash} {data after : Bytes} :
    savedKey (generateHash sha256 data) after = .ok (generateHash sha256 data).toList ↔
      after.head? = some 0 := by
  rw [savedKey_eq, ← cString_eq_nil]
  cases cString after with
  | error fault => exact ⟨nofun, nofun⟩
  | ok rest =>
      constructor
      · intro h
        have happend : (generateHash sha256 data).toList ++ rest =
            (generateHash sha256 data).toList := Except.ok.inj h
        rw [List.append_right_eq_self.mp happend]
      · intro h
        obtain rfl := Except.ok.inj h
        change Except.ok ((generateHash sha256 data).toList ++ []) = _
        rw [List.append_nil]

/-- A chunk is found again by its recipe entry exactly when a zero byte is behind the
array. -/
theorem saved_key_restored_iff (sha256 : Bytes → Hash) (chunkID : Nat) (encryptKey : Hash)
    (data after rest : Bytes) :
    savedKey (generateHash sha256 data) after =
        .ok (RecipeEntry.ofBytes
          ((savedEntry sha256 chunkID encryptKey data).toBytes ++ rest)).restoredKey ↔
      after.head? = some 0 := by
  rw [RecipeEntry.restoredKey, RecipeEntry.chunkHash_ofBytes]
  exact savedKey_eq_hash

/-- The digest of the three bytes `abc`. -/
def digestABC : Hash := #v[0xba, 0x78, 0x16, 0xbf, 0x8f, 0x01, 0xcf, 0xea, 0x41, 0x41, 0x40, 0xde,
  0x5d, 0xae, 0x22, 0x23, 0xb0, 0x03, 0x61, 0xa3, 0x96, 0x17, 0x7a, 0x9c, 0xb4, 0x10, 0xff, 0x61,
  0xf2, 0x00, 0x15, 0xad]

/-- With other memory behind the array the key is longer than the hash. -/
theorem saved_key_longer : savedKey (generateHash (fun _ => digestABC) [97, 98, 99]) [1, 0] ≠
    .ok (RecipeEntry.ofBytes
      ((savedEntry (fun _ => digestABC) 0 (Vector.replicate 32 0) [97, 98, 99]).toBytes ++
        [])).restoredKey := by
  rw [RecipeEntry.restoredKey, RecipeEntry.chunkHash_ofBytes]
  intro h
  have hzero := savedKey_eq_hash.mp h
  exact absurd hzero (by decide)

end Dedup
