import JpegStorage.Dedup.Recipe

/-!
# Registering a recipe when operations fail

`checkRecipeStatus` enters a new name into the database and writes its recipe file then.
It does not look at the result of the insertion.  When the file cannot be opened the name
stays in the database, so the next call takes it for a known one and writes entries
without a head.

A disk is `Registered` when every name in the database has its recipe file.  This
and what the calls return is as it should be exactly in the runs in which the insertion and
the file go together (`registration_atomic`).
-/

namespace Dedup

/-! ## The program -/

/-- A call of `checkRecipeStatus` with what `varSizeChunking` passes, and which of its
operations succeed. -/
structure RecipeCall where
  /-- `recipeHead`. -/
  recipeHead : Recipe
  /-- `recipeList`. -/
  recipeList : List RecipeEntry
  /-- The head counts the entries. -/
  counted : recipeHead.fileRecipeHead.totalChunkNumber = recipeList.length
  /-- `fileRecipeHead`. -/
  fileHead : recipeHead.fileRecipeHead.Fits
  /-- `keyRecipeHead`. -/
  keyHead : recipeHead.keyRecipeHead.Fits
  /-- The insertion into the database succeeds. -/
  inserts : Bool
  /-- The recipe file can be opened. -/
  opens : Bool

/-- `DBKey`. -/
def RecipeCall.key (call : RecipeCall) : Bytes :=
  call.recipeHead.fileRecipeHead.fileNameHash.toList

/-- `saveRecipe`, which returns `false` when the file cannot be opened. -/
def Disk.trySaveRecipe (opens : Bool) (name : Name) (recipeHead : Recipe)
    (recipeList : List RecipeEntry) (status : Bool) (disk : Disk) : Bool × Disk :=
  if opens then (true, disk.saveRecipe name recipeHead recipeList status) else (false, disk)

/-- `fileName2metaDB.insert`, which may fail. -/
def Disk.tryPutName (inserts : Bool) (key : Bytes) (name : Name) (disk : Disk) : Disk :=
  if inserts then disk.putName key name else disk

/-- `checkRecipeStatus`. -/
def Disk.tryCheckRecipeStatus (call : RecipeCall) (disk : Disk) : Bool × Disk :=
  match disk.fileName2metaDB call.key with
  | some name => disk.trySaveRecipe call.opens name call.recipeHead call.recipeList true
  | none =>
      let disk := disk.tryPutName call.inserts call.key (recipeName call.key)
      disk.trySaveRecipe call.opens (recipeName call.key) call.recipeHead call.recipeList false

/-- Without failures it is the `checkRecipeStatus` of a store with working files. -/
theorem Disk.tryCheckRecipeStatus_working {call : RecipeCall} (hinserts : call.inserts = true)
    (hopens : call.opens = true) (disk : Disk) :
    disk.tryCheckRecipeStatus call =
      (true, disk.checkRecipeStatus call.recipeHead call.recipeList) := by
  rw [tryCheckRecipeStatus, checkRecipeStatus, hinserts, hopens]
  change _ = (true, match disk.fileName2metaDB call.key with | some _ => _ | none => _)
  cases hname : disk.fileName2metaDB call.key with
  | none => rfl
  | some name => rfl

/-! ## Recipe files -/

/-- The bytes begin with a recipe of this name. -/
def IsRecipe (key bytes : Bytes) : Prop :=
  ∃ (recipe : Recipe) (entries : List RecipeEntry) (rest : Bytes),
    bytes = recipe.toBytes ++ (entries.flatMap RecipeEntry.toBytes ++ rest) ∧
    recipe.fileRecipeHead.fileNameHash.toList = key ∧ recipe.fileRecipeHead.Fits ∧
    recipe.keyRecipeHead.Fits ∧ recipe.fileRecipeHead.totalChunkNumber ≤ entries.length

/-- Each name in the database has its recipe file. -/
def Disk.Registered (disk : Disk) : Prop :=
  ∀ key name, disk.fileName2metaDB key = some name →
    ∃ bytes, disk.recipes name = some bytes ∧ IsRecipe key bytes

/-- A call that returns `false` changes nothing, and one that returns `true` leaves the name
in the database. -/
structure Disk.Atomic (disk : Disk) (call : RecipeCall) : Prop where
  /-- It returns `false`. -/
  unchanged : (disk.tryCheckRecipeStatus call).1 = false →
    (disk.tryCheckRecipeStatus call).2.catalog = disk.catalog
  /-- It returns `true`. -/
  entered : (disk.tryCheckRecipeStatus call).1 = true →
    (disk.tryCheckRecipeStatus call).2.fileName2metaDB call.key ≠ none

/-- For a new name both operations succeed or both fail, and an `int` counts the
entries that are written. -/
def Disk.Meets (disk : Disk) (call : RecipeCall) : Prop :=
  disk.fileName2metaDB call.key = none →
    call.inserts = call.opens ∧ (call.opens = true → call.recipeList.length < 2 ^ 31)

theorem length_entries (entries : List RecipeEntry) :
    (entries.flatMap RecipeEntry.toBytes).length = recipeEntrySize * entries.length := by
  induction entries with
  | nil => rfl
  | cons entry entries ih =>
      rw [List.flatMap_cons, List.length_append, ih, RecipeEntry.length_toBytes,
        List.length_cons, Nat.mul_succ, Nat.add_comm]

theorem IsRecipe.append {key bytes : Bytes} (h : IsRecipe key bytes) (more : Bytes) :
    IsRecipe key (bytes ++ more) := by
  obtain ⟨recipe, entries, rest, rfl, hrecipe⟩ := h
  refine ⟨recipe, entries, rest ++ more, ?_, hrecipe⟩
  rw [List.append_assoc, List.append_assoc]

/-- The head says how long the file is at least. -/
theorem IsRecipe.length {key bytes : Bytes} (h : IsRecipe key bytes) :
    recipeSize + recipeEntrySize * (Recipe.ofBytes bytes).fileRecipeHead.totalChunkNumber ≤
      bytes.length := by
  obtain ⟨recipe, entries, rest, rfl, _, hfile, hkey, htotal⟩ := h
  rw [Recipe.ofBytes_append hfile hkey, List.length_append, List.length_append,
    Recipe.length_toBytes, length_entries]
  have hentries := Nat.mul_le_mul_left recipeEntrySize htotal
  omega

/-- The recipe of a registered name can be restored. -/
theorem Disk.Registered.restoreRecipeHead {disk : Disk} {key : Bytes} {name : Name}
    (h : disk.Registered) (hname : disk.fileName2metaDB key = some name) :
    ∃ recipe, disk.restoreRecipeHead key = .ok recipe ∧
      recipe.fileRecipeHead.fileNameHash.toList = key := by
  obtain ⟨_, hfile, recipe, entries, rest, rfl, hkey, hfits, hfits', _⟩ := h key name hname
  exact ⟨recipe, Disk.restoreRecipeHead_ok hname hfile hfits hfits', hkey⟩

theorem savedEntries_of_lt {entries : List RecipeEntry} (h : entries.length < 2 ^ 31) :
    savedEntries entries = entries.flatMap RecipeEntry.toBytes := by
  have hcount : i32 (entries.length : Nat) = entries.length :=
    i32_of_fits (Int.natCast_nonneg _) (by omega)
  rw [savedEntries, hcount, Int.toNat_natCast, List.take_length]

theorem length_savedEntries_lt {entries : List RecipeEntry} (h : 2 ^ 31 ≤ entries.length) :
    (savedEntries entries).length < recipeEntrySize * entries.length := by
  have hcount : (i32 (entries.length : Nat)).toNat < 2 ^ 31 := by
    have hlt := Int.bmod_lt (x := (entries.length : Nat)) (m := 2 ^ 32) (by decide)
    rw [i32]
    omega
  rw [savedEntries, length_entries, recipeEntrySize]
  have htaken := List.length_take_le (i32 (entries.length : Nat)).toNat entries
  omega

/-- A new recipe file holds the recipe if an `int` counts the entries. -/
theorem isRecipe_saved (call : RecipeCall) :
    IsRecipe call.key (call.recipeHead.toBytes ++ savedEntries call.recipeList) ↔
      call.recipeList.length < 2 ^ 31 := by
  constructor
  · intro h
    by_contra hlong
    have hlength := h.length
    have hshort := length_savedEntries_lt (Nat.not_lt.mp hlong)
    rw [Recipe.ofBytes_append call.fileHead call.keyHead, List.length_append,
      Recipe.length_toBytes, call.counted] at hlength
    omega
  · intro h
    refine ⟨call.recipeHead, call.recipeList, [], ?_, rfl, call.fileHead, call.keyHead,
      call.counted.le⟩
    rw [savedEntries_of_lt h, List.append_nil]

/-! ## One call -/

/-- A disk in a run whose calls went as they should. -/
structure Disk.Tidy (disk : Disk) : Prop where
  /-- The names have their recipes. -/
  registered : disk.Registered
  /-- A recipe file has the name of its hash. -/
  named : ∀ key name, disk.fileName2metaDB key = some name → name = recipeName key
  /-- A name that is not in the database has no file. -/
  fresh : ∀ key, disk.fileName2metaDB key = none → disk.recipes (recipeName key) = none

theorem Disk.tidy_empty : Disk.empty.Tidy where
  registered := by
    intro key name hname
    cases hname
  named := by
    intro key name hname
    cases hname
  fresh := fun _ _ => rfl

section
variable {disk : Disk} {call : RecipeCall}

theorem Disk.tryCheckRecipeStatus_known {name : Name}
    (hname : disk.fileName2metaDB call.key = some name) :
    disk.tryCheckRecipeStatus call =
      if call.opens then (true, disk.appendRecipe name (savedEntries call.recipeList))
      else (false, disk) := by
  rw [tryCheckRecipeStatus, hname]
  dsimp only
  rw [trySaveRecipe, saveRecipe, if_pos rfl, List.nil_append]

theorem Disk.tryCheckRecipeStatus_new (hname : disk.fileName2metaDB call.key = none) :
    disk.tryCheckRecipeStatus call =
      if call.opens then
        (true, (disk.tryPutName call.inserts call.key (recipeName call.key)).appendRecipe
          (recipeName call.key) (call.recipeHead.toBytes ++ savedEntries call.recipeList))
      else (false, disk.tryPutName call.inserts call.key (recipeName call.key)) := by
  rw [tryCheckRecipeStatus, hname]
  rfl

/-- Entries behind the recipe of a known name. -/
theorem Disk.Tidy.append (h : disk.Tidy) {key : Bytes} {name : Name}
    (hname : disk.fileName2metaDB key = some name) (more : Bytes) :
    (disk.appendRecipe name more).Tidy where
  registered := by
    intro key' name' hname'
    obtain ⟨bytes, hfile, hrecipe⟩ := h.registered key' name' hname'
    rw [recipes_appendRecipe]
    by_cases heq : name' = name
    · subst heq
      rw [Function.update_self, hfile]
      exact ⟨_, rfl, hrecipe.append more⟩
    · rw [Function.update_of_ne heq]
      exact ⟨bytes, hfile, hrecipe⟩
  named := h.named
  fresh := by
    intro key' hname'
    have hne : recipeName key' ≠ name := by
      rw [h.named key name hname]
      intro heq
      rw [recipeName_inj heq] at hname'
      cases hname'.symm.trans hname
    rw [recipes_appendRecipe, Function.update_of_ne hne]
    exact h.fresh key' hname'

/-- The recipe of a new name. -/
theorem Disk.Tidy.add (h : disk.Tidy) {key bytes : Bytes}
    (hname : disk.fileName2metaDB key = none) (hbytes : IsRecipe key bytes) :
    ((disk.putName key (recipeName key)).appendRecipe (recipeName key) bytes).Tidy where
  registered := by
    intro key' name' hname'
    rw [recipes_appendRecipe, recipes_putName, h.fresh key hname, Option.getD_none,
      List.nil_append]
    rcases eq_or_ne key' key with rfl | hne
    · cases (Function.update_self key' _ _).symm.trans hname'
      rw [Function.update_self]
      exact ⟨bytes, rfl, hbytes⟩
    · have hold := (Function.update_of_ne hne _ _).symm.trans hname'
      have hother : name' ≠ recipeName key := by
        rw [h.named key' name' hold]
        exact fun heq => hne (recipeName_inj heq)
      rw [Function.update_of_ne hother]
      exact h.registered key' name' hold
  named := by
    intro key' name' hname'
    rcases eq_or_ne key' key with rfl | hne
    · cases (Function.update_self key' _ _).symm.trans hname'
      rfl
    · exact h.named key' name' ((Function.update_of_ne hne _ _).symm.trans hname')
  fresh := by
    intro key' hname'
    rcases eq_or_ne key' key with rfl | hne
    · cases (Function.update_self key' _ _).symm.trans hname'
    · rw [recipes_appendRecipe, Function.update_of_ne fun heq => hne (recipeName_inj heq)]
      exact h.fresh key' ((Function.update_of_ne hne _ _).symm.trans hname')

/-- A call that meets the condition. -/
theorem Disk.Tidy.step (h : disk.Tidy) (hmeets : disk.Meets call) :
    disk.Atomic call ∧ (disk.tryCheckRecipeStatus call).2.Tidy := by
  cases hname : disk.fileName2metaDB call.key with
  | some name =>
      have hrun := tryCheckRecipeStatus_known hname
      cases hopens : call.opens with
      | true =>
          rw [hopens, if_pos rfl] at hrun
          refine ⟨⟨fun hfalse => ?_, fun _ => ?_⟩, ?_⟩
          · rw [hrun] at hfalse
            cases hfalse
          · rw [hrun]
            exact fun hnone => Option.some_ne_none name (hname.symm.trans hnone)
          · rw [hrun]
            exact h.append hname _
      | false =>
          rw [hopens, if_neg Bool.false_ne_true] at hrun
          refine ⟨⟨fun _ => ?_, fun htrue => ?_⟩, ?_⟩
          · rw [hrun]
          · rw [hrun] at htrue
            cases htrue
          · rw [hrun]
            exact h
  | none =>
      have hrun := tryCheckRecipeStatus_new hname
      obtain ⟨hboth, hlength⟩ := hmeets hname
      rw [hboth] at hrun
      cases hopens : call.opens with
      | true =>
          rw [hopens, if_pos rfl, tryPutName, if_pos rfl] at hrun
          refine ⟨⟨fun hfalse => ?_, fun _ => ?_⟩, ?_⟩
          · rw [hrun] at hfalse
            cases hfalse
          · rw [hrun]
            exact fun hnone =>
              Option.some_ne_none _ ((Function.update_self call.key _ _).symm.trans hnone)
          · rw [hrun]
            exact h.add hname ((isRecipe_saved call).mpr (hlength hopens))
      | false =>
          rw [hopens, if_neg Bool.false_ne_true, tryPutName, if_neg Bool.false_ne_true] at hrun
          refine ⟨⟨fun _ => ?_, fun htrue => ?_⟩, ?_⟩
          · rw [hrun]
          · rw [hrun] at htrue
            cases htrue
          · rw [hrun]
            exact h

/-- A call that does not meet it. -/
theorem Disk.Tidy.meets (h : disk.Tidy) (hatomic : disk.Atomic call)
    (hregistered : (disk.tryCheckRecipeStatus call).2.Registered) : disk.Meets call := by
  intro hname
  have hrun := tryCheckRecipeStatus_new hname
  cases hopens : call.opens with
  | true =>
      rw [hopens, if_pos rfl] at hrun
      cases hinserts : call.inserts with
      | true =>
          refine ⟨rfl, fun _ => (isRecipe_saved call).mp ?_⟩
          rw [hinserts, tryPutName, if_pos rfl] at hrun
          rw [hrun] at hregistered
          obtain ⟨bytes, hfile, hrecipe⟩ :=
            hregistered call.key (recipeName call.key) (Function.update_self ..)
          rw [recipes_appendRecipe, recipes_putName, h.fresh _ hname, Option.getD_none,
            List.nil_append, Function.update_self] at hfile
          cases hfile
          exact hrecipe
      | false =>
          rw [hinserts, tryPutName, if_neg Bool.false_ne_true] at hrun
          have hentered := hatomic.entered (by rw [hrun])
          rw [hrun] at hentered
          exact absurd hname hentered
  | false =>
      rw [hopens, if_neg Bool.false_ne_true] at hrun
      cases hinserts : call.inserts with
      | true =>
          rw [hinserts, tryPutName, if_pos rfl] at hrun
          have hsame := congrArg Prod.fst (hatomic.unchanged (by rw [hrun]))
          rw [hrun] at hsame
          have hnew : Function.update disk.fileName2metaDB call.key (some (recipeName call.key))
              call.key = disk.fileName2metaDB call.key := congrFun hsame call.key
          rw [Function.update_self, hname] at hnew
          cases hnew
      | false =>
          refine ⟨rfl, fun htrue => ?_⟩
          cases htrue

/-- After a call that entered the name but could not open the file the next one writes the
entries without a head. -/
theorem Disk.tryCheckRecipeStatus_retry {retry : RecipeCall}
    (hname : disk.fileName2metaDB call.key = none) (hinserts : call.inserts = true)
    (hopens : call.opens = false) (hkey : retry.key = call.key) (hretry : retry.opens = true) :
    disk.tryCheckRecipeStatus call = (false, disk.putName call.key (recipeName call.key)) ∧
      (disk.putName call.key (recipeName call.key)).tryCheckRecipeStatus retry =
        (true, (disk.putName call.key (recipeName call.key)).appendRecipe (recipeName call.key)
          (savedEntries retry.recipeList)) := by
  constructor
  · rw [tryCheckRecipeStatus_new hname, hopens, if_neg Bool.false_ne_true, hinserts, tryPutName,
      if_pos rfl]
  · have hentered : (disk.putName call.key (recipeName call.key)).fileName2metaDB retry.key =
        some (recipeName call.key) := by
      rw [hkey, fileName2metaDB_putName, Function.update_self]
    rw [tryCheckRecipeStatus_known hentered, hretry, if_pos rfl]

end

/-! ## Runs -/

/-- Something holds of each call of a run. -/
def Disk.Along (P : Disk → RecipeCall → Prop) : List RecipeCall → Disk → Prop
  | [], _ => True
  | call :: calls, disk => P disk call ∧ Disk.Along P calls (disk.tryCheckRecipeStatus call).2

theorem Disk.Tidy.along {disk : Disk} (h : disk.Tidy) (calls : List RecipeCall) :
    disk.Along (fun disk call =>
        disk.Atomic call ∧ (disk.tryCheckRecipeStatus call).2.Registered) calls ↔
      disk.Along Disk.Meets calls := by
  induction calls generalizing disk with
  | nil => exact Iff.rfl
  | cons call calls ih =>
      constructor
      · rintro ⟨⟨hatomic, hregistered⟩, hrest⟩
        have hmeets := h.meets hatomic hregistered
        exact ⟨hmeets, (ih (h.step hmeets).2).mp hrest⟩
      · rintro ⟨hmeets, hrest⟩
        obtain ⟨hatomic, htidy⟩ := h.step hmeets
        exact ⟨⟨hatomic, htidy.registered⟩, (ih htidy).mpr hrest⟩

/-- In a run of calls each one is atomic and leaves every name its recipe if and only if
for every new name the insertion and the file go together. -/
theorem registration_atomic (calls : List RecipeCall) :
    Disk.empty.Along (fun disk call =>
        disk.Atomic call ∧ (disk.tryCheckRecipeStatus call).2.Registered) calls ↔
      Disk.empty.Along Disk.Meets calls :=
  Disk.tidy_empty.along calls

/-- One chunk of three bytes. -/
def oneChunk (opens : Bool) : RecipeCall where
  recipeHead := ⟨⟨3, Vector.replicate 32 1, 1⟩, ⟨3, Vector.replicate 32 1, 1⟩⟩
  recipeList := [⟨0, 3, Vector.replicate 32 2, Vector.replicate 32 3⟩]
  counted := rfl
  fileHead := ⟨by decide, by decide⟩
  keyHead := ⟨by decide, by decide⟩
  inserts := true
  opens := opens

/-- The file cannot be opened, and the next call succeeds but writes no head. -/
theorem registration_not_atomic :
    ¬ Disk.empty.Atomic (oneChunk false) ∧
      ((Disk.empty.tryCheckRecipeStatus (oneChunk false)).2.tryCheckRecipeStatus
        (oneChunk true)).1 = true ∧
      ¬ ((Disk.empty.tryCheckRecipeStatus (oneChunk false)).2.tryCheckRecipeStatus
        (oneChunk true)).2.Registered := by
  obtain ⟨hfirst, hsecond⟩ :=
    @Disk.tryCheckRecipeStatus_retry .empty (oneChunk false) (oneChunk true) rfl rfl rfl rfl rfl
  rw [hfirst, hsecond]
  generalize (oneChunk false).key = key at hfirst
  have hname : (Disk.empty.putName key (recipeName key)).fileName2metaDB key =
      some (recipeName key) := by
    rw [Disk.fileName2metaDB_putName, Function.update_self]
  refine ⟨fun hatomic => ?_, rfl, fun hregistered => ?_⟩
  · have hsame := hatomic.unchanged (by rw [hfirst])
    rw [hfirst] at hsame
    cases hname.symm.trans (congrFun (congrArg Prod.fst hsame) key)
  · obtain ⟨bytes, hfile, hrecipe⟩ := hregistered key (recipeName key) hname
    rw [Disk.recipes_appendRecipe, Function.update_self] at hfile
    cases hfile
    have hlength : (savedEntries (oneChunk true).recipeList).length = recipeEntrySize := by
      rw [savedEntries_of_lt (by simp [oneChunk]), length_entries]
      rfl
    have hle := hrecipe.length
    change recipeSize + _ ≤ (savedEntries (oneChunk true).recipeList).length at hle
    rw [hlength] at hle
    exact absurd ((Nat.le_add_right ..).trans hle) (by decide)

end Dedup
