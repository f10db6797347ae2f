import JpegStorage.Dedup.ContainerStore
import JpegStorage.Lib.Records

/-!
# Recipes

The recipe of a file is its head and an entry for each chunk.  `checkRecipeStatus`
writes the recipe of a new name to a new file, head first, and adds only the entries when
the name is known.  Recipe files are only ever appended to, so what was
written first is read first.
-/

namespace Dedup

open Records

/-- A hash. -/
abbrev Hash := Vector UInt8 32

/-- `generateHash`.  Zero bytes are replaced, so that a hash is a string. -/
def generateHash (sha256 : Bytes → Hash) (data : Bytes) : Hash :=
  (sha256 data).map fun byte => if byte = 0 then 0x80 else byte

/-- `FileRecipeHead_t`, and `KeyRecipeHead_t` which has the same layout. -/
structure RecipeHead where
  /-- `fileSize`. -/
  fileSize : Nat
  /-- `fileNameHash`. -/
  fileNameHash : Hash
  /-- `totalChunkNumber` or `totalChunkKeyNumber`. -/
  totalChunkNumber : Nat

/-- `Recipe_t`. -/
structure Recipe where
  /-- `fileRecipeHead`. -/
  fileRecipeHead : RecipeHead
  /-- `keyRecipeHead`. -/
  keyRecipeHead : RecipeHead

/-- `RecipeEntry_t`. -/
structure RecipeEntry where
  /-- `chunkID`. -/
  chunkID : Nat
  /-- `chunkSize`. -/
  chunkSize : Int
  /-- `chunkHash`. -/
  chunkHash : Hash
  /-- `chunkKey`. -/
  chunkKey : Hash

/-! ## In memory and in files -/

/-- 32 bytes of a buffer. -/
def Hash.ofBytes (bytes : Bytes) : Hash := Vector.ofFn fun i => bytes.getD i 0

theorem Hash.ofBytes_append (hash : Hash) (rest : Bytes) :
    Hash.ofBytes (hash.toList ++ rest) = hash := by
  refine Vector.ext fun i hi => ?_
  have hlen : i < hash.toList.length := by rwa [Vector.length_toList]
  rw [Hash.ofBytes, Vector.getElem_ofFn, List.getD_eq_getElem?_getD, List.getElem?_append_left hlen,
    List.getElem?_eq_getElem hlen, Option.getD_some, Vector.getElem_toList]

/-- The bytes of a head. -/
def RecipeHead.toBytes (head : RecipeHead) : Bytes :=
  encode 8 head.fileSize ++ head.fileNameHash.toList ++ encode 8 head.totalChunkNumber

/-- A head in a buffer. -/
def RecipeHead.ofBytes (bytes : Bytes) : RecipeHead where
  fileSize := decode 8 bytes
  fileNameHash := Hash.ofBytes (bytes.drop 8)
  totalChunkNumber := decode 8 (bytes.drop 40)

/-- `sizeof(FileRecipeHead_t)`. -/
def recipeHeadSize : Nat := 48

/-- `sizeof(Recipe_t)`. -/
def recipeSize : Nat := 96

/-- `sizeof(RecipeEntry_t)`. -/
def recipeEntrySize : Nat := 72

/-- The bytes of both heads. -/
def Recipe.toBytes (recipe : Recipe) : Bytes :=
  recipe.fileRecipeHead.toBytes ++ recipe.keyRecipeHead.toBytes

/-- Both heads in a buffer. -/
def Recipe.ofBytes (bytes : Bytes) : Recipe where
  fileRecipeHead := RecipeHead.ofBytes bytes
  keyRecipeHead := RecipeHead.ofBytes (bytes.drop recipeHeadSize)

/-- The bytes of an entry. -/
def RecipeEntry.toBytes (entry : RecipeEntry) : Bytes :=
  encode 4 entry.chunkID ++ encode 4 (entry.chunkSize % 2 ^ 32).toNat ++
    entry.chunkHash.toList ++ entry.chunkKey.toList

/-- An entry in a buffer. -/
def RecipeEntry.ofBytes (bytes : Bytes) : RecipeEntry where
  chunkID := decode 4 bytes
  chunkSize := i32 (decode 4 (bytes.drop 4))
  chunkHash := Hash.ofBytes (bytes.drop 8)
  chunkKey := Hash.ofBytes (bytes.drop 40)

/-- The numbers fit into their fields. -/
structure RecipeHead.Fits (head : RecipeHead) : Prop where
  /-- `fileSize`. -/
  fileSize : head.fileSize < 2 ^ 64
  /-- `totalChunkNumber`. -/
  totalChunkNumber : head.totalChunkNumber < 2 ^ 64

/-- The numbers fit into their fields. -/
structure RecipeEntry.Fits (entry : RecipeEntry) : Prop where
  /-- `chunkID`. -/
  chunkID : entry.chunkID < 2 ^ 32
  /-- `chunkSize` is not negative. -/
  nonneg : 0 ≤ entry.chunkSize
  /-- `chunkSize`. -/
  chunkSize : entry.chunkSize < 2 ^ 31

@[simp] theorem RecipeHead.length_toBytes (head : RecipeHead) :
    head.toBytes.length = recipeHeadSize := by
  simp [RecipeHead.toBytes, recipeHeadSize]

@[simp] theorem Recipe.length_toBytes (recipe : Recipe) : recipe.toBytes.length = recipeSize := by
  simp [Recipe.toBytes, recipeHeadSize, recipeSize]

@[simp] theorem RecipeEntry.length_toBytes (entry : RecipeEntry) :
    entry.toBytes.length = recipeEntrySize := by
  simp [RecipeEntry.toBytes, recipeEntrySize]

theorem RecipeHead.ofBytes_append {head : RecipeHead} (h : head.Fits) (rest : Bytes) :
    RecipeHead.ofBytes (head.toBytes ++ rest) = head := by
  have hsize := decode_encode (n := 8) h.fileSize (head.fileNameHash.toList ++
    (encode 8 head.totalChunkNumber ++ rest))
  have hhash := Hash.ofBytes_append head.fileNameHash (encode 8 head.totalChunkNumber ++ rest)
  have htotal := decode_encode (n := 8) h.totalChunkNumber rest
  have hbytes : head.toBytes ++ rest = encode 8 head.fileSize ++ (head.fileNameHash.toList ++
      (encode 8 head.totalChunkNumber ++ rest)) := by
    rw [RecipeHead.toBytes, List.append_assoc, List.append_assoc]
  have hdrop8 : (head.toBytes ++ rest).drop 8 = head.fileNameHash.toList ++
      (encode 8 head.totalChunkNumber ++ rest) := by
    rw [hbytes, List.drop_left' (length_encode ..)]
  have hdrop40 : (head.toBytes ++ rest).drop 40 = encode 8 head.totalChunkNumber ++ rest := by
    rw [← List.drop_drop (i := 32) (j := 8), hdrop8, List.drop_left' (Vector.length_toList ..)]
  rw [RecipeHead.ofBytes, hdrop8, hdrop40, hhash, htotal, hbytes, hsize]

theorem Recipe.ofBytes_append {recipe : Recipe} (hfile : recipe.fileRecipeHead.Fits)
    (hkey : recipe.keyRecipeHead.Fits) (rest : Bytes) :
    Recipe.ofBytes (recipe.toBytes ++ rest) = recipe := by
  rw [Recipe.ofBytes, Recipe.toBytes, List.append_assoc, RecipeHead.ofBytes_append hfile,
    List.drop_left' (RecipeHead.length_toBytes _), RecipeHead.ofBytes_append hkey]

/-- What is behind the numbers of an entry. -/
theorem RecipeEntry.drop_toBytes (entry : RecipeEntry) (rest : Bytes) :
    (entry.toBytes ++ rest).drop 8 =
      entry.chunkHash.toList ++ (entry.chunkKey.toList ++ rest) := by
  have hbytes : entry.toBytes ++ rest = (encode 4 entry.chunkID ++
      encode 4 (entry.chunkSize % 2 ^ 32).toNat) ++
        (entry.chunkHash.toList ++ (entry.chunkKey.toList ++ rest)) := by
    simp only [RecipeEntry.toBytes, List.append_assoc]
  have hlen : (encode 4 entry.chunkID ++ encode 4 (entry.chunkSize % 2 ^ 32).toNat).length = 8 := by
    rw [List.length_append, length_encode, length_encode]
  rw [hbytes, List.drop_left' hlen]

/-- The hash of an entry, whatever its numbers are. -/
theorem RecipeEntry.chunkHash_ofBytes (entry : RecipeEntry) (rest : Bytes) :
    (RecipeEntry.ofBytes (entry.toBytes ++ rest)).chunkHash = entry.chunkHash := by
  change Hash.ofBytes ((entry.toBytes ++ rest).drop 8) = _
  rw [RecipeEntry.drop_toBytes, Hash.ofBytes_append]

theorem RecipeEntry.ofBytes_append {entry : RecipeEntry} (h : entry.Fits) (rest : Bytes) :
    RecipeEntry.ofBytes (entry.toBytes ++ rest) = entry := by
  have hnonneg := h.nonneg
  have hlt := h.chunkSize
  have hsize : (entry.chunkSize % 2 ^ 32).toNat < 256 ^ 4 := by omega
  have hvalue : i32 ((entry.chunkSize % 2 ^ 32).toNat : Nat) = entry.chunkSize := by
    have hmod : ((entry.chunkSize % 2 ^ 32).toNat : Int) = entry.chunkSize := by omega
    rw [hmod, i32_of_fits hnonneg hlt]
  have hbytes : entry.toBytes ++ rest = encode 4 entry.chunkID ++
      (encode 4 (entry.chunkSize % 2 ^ 32).toNat ++
        (entry.chunkHash.toList ++ (entry.chunkKey.toList ++ rest))) := by
    simp only [RecipeEntry.toBytes, List.append_assoc]
  have hdrop4 : (entry.toBytes ++ rest).drop 4 = encode 4 (entry.chunkSize % 2 ^ 32).toNat ++
      (entry.chunkHash.toList ++ (entry.chunkKey.toList ++ rest)) := by
    rw [hbytes, List.drop_left' (length_encode ..)]
  have hdrop40 : (entry.toBytes ++ rest).drop 40 = entry.chunkKey.toList ++ rest := by
    rw [← List.drop_drop (i := 32) (j := 8), RecipeEntry.drop_toBytes,
      List.drop_left' (Vector.length_toList ..)]
  rw [RecipeEntry.ofBytes, hdrop4, RecipeEntry.drop_toBytes, hdrop40, decode_encode hsize, hvalue,
    Hash.ofBytes_append, Hash.ofBytes_append, hbytes, decode_encode (n := 4) h.chunkID]

/-! ## Recipe files -/

/-- A digit of `%02X`. -/
def hexDigit (n : Nat) : Char :=
  ['0', '1', '2', '3', '4', '5', '6', '7', '8', '9', 'A', 'B', 'C', 'D', 'E', 'F'].getD n '0'

/-- The recipe file of a name: its hash in hexadecimal digits. -/
def recipeName (hash : Bytes) : Name :=
  hash.flatMap fun byte => [hexDigit (byte.toNat / 16), hexDigit (byte.toNat % 16)]

theorem hexDigit_inj {m n : Nat} (hm : m < 16) (hn : n < 16) (h : hexDigit m = hexDigit n) :
    m = n := by
  have hall : ∀ a < 16, ∀ b < 16, hexDigit a = hexDigit b → a = b := by decide
  exact hall m hm n hn h

/-- Different hashes have different recipe files. -/
theorem recipeName_inj {hash hash' : Bytes} (h : recipeName hash = recipeName hash') :
    hash = hash' := by
  induction hash generalizing hash' with
  | nil =>
      cases hash' with
      | nil => rfl
      | cons byte' hash' => cases h
  | cons byte hash ih =>
      cases hash' with
      | nil => cases h
      | cons byte' hash' =>
          obtain ⟨hhigh, hrest⟩ := List.cons.inj h
          obtain ⟨hlow, hrest⟩ := List.cons.inj hrest
          have hlt := byte.toNat_lt
          have hlt' := byte'.toNat_lt
          have hdiv := hexDigit_inj (by omega) (by omega) hhigh
          have hmod := hexDigit_inj (Nat.mod_lt _ (by decide)) (Nat.mod_lt _ (by decide)) hlow
          have hbyte : byte = byte' := UInt8.toNat_inj.mp (by omega)
          rw [hbyte, ih hrest]

theorem recipeName_ne {key key' : Hash} (h : key' ≠ key) :
    recipeName key'.toList ≠ recipeName key.toList :=
  fun heq => h (Vector.toList_inj.mp (recipeName_inj heq))

/-- `fileName2metaDB.insert`. -/
def Disk.putName (disk : Disk) (key : Bytes) (name : Name) : Disk :=
  { disk with fileName2metaDB := Function.update disk.fileName2metaDB key (some name) }

/-- Bytes at the end of a recipe file, which is created when it is missing. -/
def Disk.appendRecipe (disk : Disk) (name : Name) (bytes : Bytes) : Disk :=
  let old := (disk.recipes name).getD []
  { disk with recipes := Function.update disk.recipes name (some (old ++ bytes)) }

@[simp] theorem Disk.fileName2metaDB_putName (disk : Disk) (key : Bytes) (name : Name) :
    (disk.putName key name).fileName2metaDB =
      Function.update disk.fileName2metaDB key (some name) := rfl

@[simp] theorem Disk.recipes_putName (disk : Disk) (key : Bytes) (name : Name) :
    (disk.putName key name).recipes = disk.recipes := rfl

@[simp] theorem Disk.recipes_appendRecipe (disk : Disk) (name : Name) (bytes : Bytes) :
    (disk.appendRecipe name bytes).recipes =
      Function.update disk.recipes name (some ((disk.recipes name).getD [] ++ bytes)) := rfl

/-- The entries `saveRecipe` writes.  Their count is kept in an `int`. -/
def savedEntries (recipeList : List RecipeEntry) : Bytes :=
  (recipeList.take (i32 recipeList.length).toNat).flatMap RecipeEntry.toBytes

/-- `saveRecipe`. -/
def Disk.saveRecipe (name : Name) (recipeHead : Recipe) (recipeList : List RecipeEntry)
    (status : Bool) (disk : Disk) : Disk :=
  disk.appendRecipe name
    ((if status then [] else recipeHead.toBytes) ++ savedEntries recipeList)

/-- `checkRecipeStatus`. -/
def Disk.checkRecipeStatus (recipeHead : Recipe) (recipeList : List RecipeEntry) (disk : Disk) :
    Disk :=
  let key := recipeHead.fileRecipeHead.fileNameHash.toList
  match disk.fileName2metaDB key with
  | some name => disk.saveRecipe name recipeHead recipeList true
  | none => (disk.putName key (recipeName key)).saveRecipe (recipeName key) recipeHead recipeList false

/-- The disks differ in recipes and names only. -/
structure Disk.SameStore (disk disk' : Disk) : Prop where
  /-- `fp2ChunkDB`. -/
  entries : disk'.fp2ChunkDB = disk.fp2ChunkDB
  /-- `.StorageConfig`. -/
  config : disk'.storageConfig = disk.storageConfig
  /-- The containers. -/
  containers : disk'.containers = disk.containers

theorem Disk.sameStore_checkRecipeStatus (recipeHead : Recipe) (recipeList : List RecipeEntry)
    (disk : Disk) : disk.SameStore (disk.checkRecipeStatus recipeHead recipeList) := by
  rw [Disk.checkRecipeStatus]
  split <;> exact ⟨rfl, rfl, rfl⟩

/-- `restoreRecipeHead`.  The buffer is cleared before the file is read. -/
def Disk.restoreRecipeHead (fileNameHash : Bytes) (disk : Disk) : Except Fault Recipe :=
  match disk.fileName2metaDB fileNameHash with
  | none => .error .failed
  | some name =>
      match disk.recipes name with
      | none => .error .failed
      | some bytes => .ok (Recipe.ofBytes (bytes.take recipeSize ++ List.replicate recipeSize 0))

/-! ## Reading a recipe back -/

/-- An entry describes a chunk. -/
structure RecipeEntry.Describes (sha256 : Bytes → Hash) (entry : RecipeEntry) (data : Bytes) :
    Prop where
  /-- The ID is a `uint32_t`. -/
  chunkID : entry.chunkID < 2 ^ 32
  /-- The size. -/
  chunkSize : entry.chunkSize = data.length
  /-- The hash. -/
  chunkHash : entry.chunkHash = generateHash sha256 data
  /-- The chunk is not too long. -/
  size : data.length ≤ maxChunkSize

theorem RecipeEntry.Describes.fits {sha256 : Bytes → Hash} {entry : RecipeEntry} {data : Bytes}
    (h : entry.Describes sha256 data) : entry.Fits where
  chunkID := h.chunkID
  nonneg := by
    rw [h.chunkSize]
    exact Int.natCast_nonneg _
  chunkSize := by
    have hsize := h.size
    rw [maxChunkSize] at hsize
    rw [h.chunkSize]
    omega

theorem Disk.restoreRecipeHead_ok {disk : Disk} {key rest : Bytes} {name : Name} {recipe : Recipe}
    (hname : disk.fileName2metaDB key = some name)
    (hfile : disk.recipes name = some (recipe.toBytes ++ rest))
    (hhead : recipe.fileRecipeHead.Fits) (hkey : recipe.keyRecipeHead.Fits) :
    disk.restoreRecipeHead key = .ok recipe := by
  rw [Disk.restoreRecipeHead, hname]
  dsimp only
  rw [hfile]
  dsimp only
  rw [List.take_left' (Recipe.length_toBytes recipe), Recipe.ofBytes_append hhead hkey]

end Dedup
