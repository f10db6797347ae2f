import JpegStorage.Recode.RecodedFile
import Mathlib.Data.List.TakeWhile

/-!
# The list of the files

`readFileList` goes through a directory and what is below it and lists every image.  The
walk over all entries (`DirEntry.walk`) says what it lists and when it leaves its arrays
(`listed_images`).

The output files are put next to their images and are images by their names, so the next
run lists twice as many (`images_doubled`).
-/

namespace Recode

open Run

/-! ## Directories -/

/-- What `readdir` returns, with what is behind it. -/
inductive DirEntry where
  /-- A file, which has the `d_type` 8. -/
  | file (name : List Char) (bytes : List UInt8)
  /-- A directory, which has the `d_type` 4. -/
  | dir (name : List Char) (entries : List DirEntry)
  /-- A directory that cannot be opened. -/
  | closed (name : List Char)
  /-- Another `d_type`. -/
  | other (name : List Char)

namespace DirEntry

/-- `d_name`. -/
def name : DirEntry → List Char
  | file name _ => name
  | dir name _ => name
  | closed name => name
  | other name => name

end DirEntry

/-- The entries of the directory itself and of the one above it. -/
def Skipped (name : List Char) : Prop := name = ['.'] ∨ name = ['.', '.']

instance (name : List Char) : Decidable (Skipped name) := inferInstanceAs (Decidable (_ ∨ _))

/-- The two `strcat` behind a path. -/
def joinPath (base : Path) (name : List Char) : Path := base ++ '/' :: name

/-- The end `.jpg` in lower or upper case, from behind. -/
def jpgEnd : List Char → Bool
  | g :: p :: j :: dot :: _ =>
      dot == '.' && (j == 'j' || j == 'J') && (p == 'p' || p == 'P') && (g == 'g' || g == 'G')
  | _ => false

/-- The test of a `d_name`. -/
def IsImage (name : List Char) : Prop := jpgEnd name.reverse = true

instance (name : List Char) : Decidable (IsImage name) := inferInstanceAs (Decidable (_ = true))

/-- The size of `base` and of `TempRecord`. -/
def pathSize : Nat := 1000

/-! ## The program -/

/-- What the program lists. -/
structure FileList where
  /-- The `FullPathName` of the first `JPEGFileNum` files. -/
  names : List Path
  /-- What goes to `train.txt`. -/
  train : List Char
deriving DecidableEq, Repr

/-- A round for a file.  The test reads four bytes in front of the end of the name, and a name
that is shorter ends behind the begin of `d_name`. -/
def listFile (base : Path) (name : List Char) (list : FileList) : Except Stop FileList :=
  if name.length < 4 then .error .undefined
  else if IsImage name then
    if pathSize ≤ (joinPath base name).length then .error .undefined
    else if dirHuffCapacity ≤ list.names.length then .error .undefined
    else .ok ⟨list.names ++ [joinPath base name], list.train ++ name ++ ['\n']⟩
  else .ok list

mutual

/-- A round of the loop of `readFileList`. -/
def readEntry (base : Path) : DirEntry → FileList → Except Stop FileList
  | .file name _, list => if Skipped name then .ok list else listFile base name list
  | .dir name entries, list =>
      if Skipped name then .ok list
      else if pathSize ≤ (joinPath base name).length then .error .undefined
      else readFileList (joinPath base name) entries list
  | .closed name, list =>
      if Skipped name then .ok list
      else if pathSize ≤ (joinPath base name).length then .error .undefined
      else .error .exit
  | .other _, list => .ok list

/-- `readFileList`. -/
def readFileList (base : Path) : List DirEntry → FileList → Except Stop FileList
  | [], list => .ok list
  | entry :: entries, list => do
      let list ← readEntry base entry list
      readFileList base entries list

end

/-- `getFilelist`, when `train.txt` can be opened. -/
def getFilelist (folder : Path) (entries : List DirEntry) : Except Stop FileList :=
  readFileList folder entries ⟨[], []⟩

/-! ## The walk -/

mutual

/-- An entry and all that are below it, each with the path of its directory. -/
def DirEntry.walk (base : Path) : DirEntry → List (Path × DirEntry)
  | .dir name entries =>
      (base, .dir name entries) ::
        if Skipped name then [] else walkAll (joinPath base name) entries
  | .file name bytes => [(base, .file name bytes)]
  | .closed name => [(base, .closed name)]
  | .other name => [(base, .other name)]

/-- The walk over a directory. -/
def walkAll (base : Path) : List DirEntry → List (Path × DirEntry)
  | [] => []
  | entry :: entries => entry.walk base ++ walkAll base entries

end

/-- What a round does without the directories below. -/
def visit (list : FileList) (place : Path × DirEntry) : Except Stop FileList :=
  match place with
  | (base, .file name _) => if Skipped name then .ok list else listFile base name list
  | (base, .dir name _) =>
      if Skipped name ∨ (joinPath base name).length < pathSize then .ok list
      else .error .undefined
  | (base, .closed name) =>
      if Skipped name then .ok list
      else if pathSize ≤ (joinPath base name).length then .error .undefined
      else .error .exit
  | (_, .other _) => .ok list

mutual

theorem readEntry_walk (base : Path) (list : FileList) :
    ∀ entry : DirEntry, readEntry base entry list = (entry.walk base).foldlM visit list
  | .file name bytes => by
      rw [readEntry, DirEntry.walk, List.foldlM_cons, visit]
      exact (bind_pure _).symm
  | .dir name entries => by
      rw [readEntry, DirEntry.walk, List.foldlM_cons, visit]
      by_cases hskip : Skipped name
      · rw [if_pos hskip, if_pos (Or.inl hskip), if_pos hskip]
        rfl
      · rw [if_neg hskip, if_neg hskip]
        by_cases hlong : pathSize ≤ (joinPath base name).length
        · rw [if_pos hlong, if_neg (not_or.mpr ⟨hskip, Nat.not_lt.mpr hlong⟩)]
          rfl
        · rw [if_neg hlong, if_pos (Or.inr (Nat.not_le.mp hlong)),
            readFileList_walk (joinPath base name) list entries]
          rfl
  | .closed name => by
      rw [readEntry, DirEntry.walk, List.foldlM_cons, visit]
      exact (bind_pure _).symm
  | .other name => by
      rw [readEntry, DirEntry.walk, List.foldlM_cons, visit]
      exact (bind_pure _).symm

/-- `readFileList` visits the entries of the walk. -/
theorem readFileList_walk (base : Path) (list : FileList) :
    ∀ entries : List DirEntry,
      readFileList base entries list = (walkAll base entries).foldlM visit list
  | [] => rfl
  | entry :: entries => by
      rw [readFileList, walkAll, List.foldlM_append, readEntry_walk base list entry]
      exact bind_congr fun list => readFileList_walk base list entries

end

/-! ## What is listed -/

/-- The program gets through the round of an entry. -/
def Visitable : Path × DirEntry → Prop
  | (base, .file name _) => Skipped name ∨
      4 ≤ name.length ∧ (IsImage name → (joinPath base name).length < pathSize)
  | (base, .dir name _) => Skipped name ∨ (joinPath base name).length < pathSize
  | (_, .closed name) => Skipped name
  | (_, .other _) => True

/-- The path and the name of an image. -/
def imageOf : Path × DirEntry → Option (Path × List Char)
  | (base, .file name _) =>
      if ¬ Skipped name ∧ IsImage name then some (joinPath base name, name) else none
  | _ => none

/-- The images of a directory. -/
def images (folder : Path) (entries : List DirEntry) : List (Path × List Char) :=
  (walkAll folder entries).filterMap imageOf

/-- The list with more images. -/
def FileList.add (list : FileList) (images : List (Path × List Char)) : FileList :=
  ⟨list.names ++ images.map Prod.fst, list.train ++ images.flatMap fun image => image.2 ++ ['\n']⟩

theorem FileList.add_nil (list : FileList) : list.add [] = list := by
  simp [FileList.add]

theorem FileList.add_append (list : FileList) (images images' : List (Path × List Char)) :
    list.add (images ++ images') = (list.add images).add images' := by
  simp [FileList.add]

/-- When a round gets through, and what it does. -/
theorem visit_ok {list list' : FileList} {place : Path × DirEntry}
    (hlist : list.names.length ≤ dirHuffCapacity) :
    visit list place = .ok list' ↔ Visitable place ∧
      list.names.length + (imageOf place).toList.length ≤ dirHuffCapacity ∧
        list' = list.add (imageOf place).toList := by
  have hstays : imageOf place = none → (.ok list = (.ok list' : Except Stop FileList) ↔
      list.names.length + (imageOf place).toList.length ≤ dirHuffCapacity ∧
        list' = list.add (imageOf place).toList) := by
    intro hnone
    rw [hnone, Option.toList_none, FileList.add_nil, List.length_nil, Except.ok.injEq, eq_comm]
    exact (and_iff_right hlist).symm
  obtain ⟨base, entry⟩ := place
  cases entry with
  | file name bytes =>
      rw [visit, Visitable]
      by_cases hskip : Skipped name
      · rw [if_pos hskip, hstays (by rw [imageOf, if_neg fun h => h.1 hskip])]
        exact (and_iff_right (Or.inl hskip)).symm
      · rw [if_neg hskip, listFile, or_iff_right hskip]
        by_cases hshort : name.length < 4
        · rw [if_pos hshort]
          exact iff_of_false nofun fun h => absurd h.1.1 (Nat.not_le.mpr hshort)
        · rw [if_neg hshort, and_iff_right (Nat.not_lt.mp hshort)]
          by_cases himage : IsImage name
          · have hsome : imageOf (base, .file name bytes) = some (joinPath base name, name) := by
              rw [imageOf, if_pos ⟨hskip, himage⟩]
            rw [if_pos himage, hsome, imp_iff_right himage]
            by_cases hlong : pathSize ≤ (joinPath base name).length
            · rw [if_pos hlong]
              exact iff_of_false nofun fun h => absurd h.1 (Nat.not_lt.mpr hlong)
            · rw [if_neg hlong, and_iff_right (Nat.not_le.mp hlong)]
              by_cases hfull : dirHuffCapacity ≤ list.names.length
              · rw [if_pos hfull]
                refine iff_of_false nofun fun h => ?_
                exact absurd (Nat.lt_of_succ_le h.1) (Nat.not_lt.mpr hfull)
              · rw [if_neg hfull, Except.ok.injEq, eq_comm]
                have hroom : list.names.length + 1 ≤ dirHuffCapacity := Nat.not_le.mp hfull
                simp [FileList.add, hroom]
          · rw [if_neg himage, hstays (by rw [imageOf, if_neg fun h => himage h.2])]
            exact (and_iff_right fun h => absurd h himage).symm
  | dir name entries =>
      rw [visit, Visitable]
      by_cases hfits : Skipped name ∨ (joinPath base name).length < pathSize
      · rw [if_pos hfits, hstays rfl]
        exact (and_iff_right hfits).symm
      · rw [if_neg hfits]
        exact iff_of_false nofun fun h => hfits h.1
  | closed name =>
      rw [visit, Visitable]
      by_cases hskip : Skipped name
      · rw [if_pos hskip, hstays rfl]
        exact (and_iff_right hskip).symm
      · rw [if_neg hskip]
        refine iff_of_false ?_ fun h => hskip h.1
        split <;> exact nofun
  | other name =>
      rw [visit, Visitable, hstays rfl]
      exact (and_iff_right trivial).symm

/-- When the walk gets through, and what it lists. -/
theorem visitAll_ok {places : List (Path × DirEntry)} {list list' : FileList}
    (hlist : list.names.length ≤ dirHuffCapacity) :
    places.foldlM visit list = .ok list' ↔ (∀ place ∈ places, Visitable place) ∧
      list.names.length + (places.filterMap imageOf).length ≤ dirHuffCapacity ∧
        list' = list.add (places.filterMap imageOf) := by
  induction places generalizing list with
  | nil =>
      rw [List.filterMap_nil, FileList.add_nil, List.foldlM_nil]
      change Except.ok list = .ok list' ↔ _
      rw [Except.ok.injEq, eq_comm]
      exact ⟨fun h => ⟨nofun, hlist, h⟩, fun h => h.2.2⟩
  | cons place places ih =>
      have hsplit : (place :: places).filterMap imageOf =
          (imageOf place).toList ++ places.filterMap imageOf := by
        rw [List.filterMap_cons]
        cases imageOf place <;> rfl
      have hnames : ∀ image, (list.add image).names.length = list.names.length + image.length := by
        intro image
        rw [FileList.add, List.length_append, List.length_map]
      rw [List.foldlM_cons, Run.except_bind_eq_ok, hsplit, List.forall_mem_cons, FileList.add_append,
        List.length_append]
      constructor
      · rintro ⟨list₁, hvisit, hrest⟩
        obtain ⟨hplace, hroom, rfl⟩ := (visit_ok hlist).mp hvisit
        obtain ⟨hplaces, hroom', rfl⟩ := (ih ((hnames _).trans_le hroom)).mp hrest
        rw [hnames] at hroom'
        exact ⟨⟨hplace, hplaces⟩, by omega, rfl⟩
      · rintro ⟨⟨hplace, hplaces⟩, hroom, rfl⟩
        have hroom₁ : list.names.length + (imageOf place).toList.length ≤ dirHuffCapacity := by
          omega
        refine ⟨_, (visit_ok hlist).mpr ⟨hplace, hroom₁, rfl⟩,
          (ih ((hnames _).trans_le hroom₁)).mpr ⟨hplaces, ?_, rfl⟩⟩
        rw [hnames]
        omega

/-- The program gets through a directory. -/
structure Listable (folder : Path) (entries : List DirEntry) : Prop where
  /-- No round leaves its arrays or ends the program. -/
  visits : ∀ place ∈ walkAll folder entries, Visitable place
  /-- Every image has an entry in the record. -/
  count : (images folder entries).length ≤ dirHuffCapacity

theorem getFilelist_ok {folder : Path} {entries : List DirEntry} {list : FileList} :
    getFilelist folder entries = .ok list ↔
      Listable folder entries ∧ list = FileList.add ⟨[], []⟩ (images folder entries) := by
  rw [getFilelist, readFileList_walk, visitAll_ok (Nat.zero_le _)]
  constructor
  · rintro ⟨hvisits, hcount, hlist⟩
    exact ⟨⟨hvisits, (Nat.zero_add _).symm.trans_le hcount⟩, hlist⟩
  · rintro ⟨⟨hvisits, hcount⟩, hlist⟩
    exact ⟨hvisits, (Nat.zero_add _).trans_le hcount, hlist⟩

/-! ## Paths -/

/-- The path of an entry. -/
def pathOf (place : Path × DirEntry) : Path := joinPath place.1 place.2.name

/-- A name in a directory. -/
def PlainName (name : List Char) : Prop := '/' ∉ name

mutual

/-- The names below an entry are different in each directory. -/
def DirEntry.WellNamed : DirEntry → Prop
  | .file name _ => PlainName name
  | .dir name entries => PlainName name ∧ AllWellNamed entries
  | .closed name => PlainName name
  | .other name => PlainName name

/-- The names in a directory are different, and so are those below. -/
def AllWellNamed : List DirEntry → Prop
  | [] => True
  | entry :: entries =>
      entry.WellNamed ∧ (∀ other ∈ entries, entry.name ≠ other.name) ∧ AllWellNamed entries

end

theorem DirEntry.WellNamed.plain {entry : DirEntry} (h : entry.WellNamed) :
    PlainName entry.name := by
  cases entry with
  | dir name entries =>
      rw [DirEntry.WellNamed] at h
      exact h.1
  | _ =>
      rw [DirEntry.WellNamed] at h
      exact h

/-- A path at or below another one. -/
def Below (path path' : Path) : Prop := path' = path ∨ ∃ rest, path' = path ++ '/' :: rest

theorem Below.joinPath (base : Path) (name : List Char) {path : Path}
    (h : Below (joinPath base name) path) : ∃ rest, path = base ++ '/' :: rest := by
  rcases h with rfl | ⟨rest, rfl⟩
  · exact ⟨name, rfl⟩
  · exact ⟨name ++ '/' :: rest, by simp [Recode.joinPath]⟩

/-- Below which name of a directory a path is. -/
theorem Below.name_eq {base path : Path} {name name' : List Char} (hplain : PlainName name)
    (hplain' : PlainName name') (h : Below (Recode.joinPath base name) path)
    (h' : Below (Recode.joinPath base name') path) : name = name' := by
  have hfront : ∀ {name : List Char}, PlainName name → Below (Recode.joinPath base name) path →
      ((path.drop (base.length + 1)).takeWhile fun c => c ≠ '/') = name := by
    intro name hplain h
    have hall : ∀ c ∈ name, decide (c ≠ '/') = true := by
      intro c hc
      rw [decide_eq_true_eq]
      rintro rfl
      exact hplain hc
    have hdrop : ∀ rest : List Char, (base ++ '/' :: rest).drop (base.length + 1) = rest := by
      intro rest
      rw [List.drop_length_add_append, List.drop_one, List.tail_cons]
    rcases h with rfl | ⟨rest, rfl⟩
    · rw [Recode.joinPath, hdrop, List.takeWhile_eq_self_iff.mpr hall]
    · rw [Recode.joinPath, List.append_assoc, List.cons_append, hdrop,
        List.takeWhile_append_of_pos hall, List.takeWhile_cons, if_neg (by simp), List.append_nil]
  rw [← hfront hplain h, ← hfront hplain' h']

mutual

theorem DirEntry.walk_below (base : Path) :
    ∀ entry : DirEntry, ∀ place ∈ entry.walk base, Below (joinPath base entry.name) (pathOf place)
  | .dir name entries => by
      intro place hplace
      rw [DirEntry.walk] at hplace
      rcases List.mem_cons.mp hplace with rfl | hplace
      · exact Or.inl rfl
      · split at hplace
        · cases hplace
        · obtain ⟨rest, hrest⟩ := walkAll_below (joinPath base name) entries place hplace
          exact Or.inr ⟨rest, hrest⟩
  | .file _ _ => by
      intro place hplace
      rw [DirEntry.walk, List.mem_singleton] at hplace
      rw [hplace]
      exact Or.inl rfl
  | .closed _ => by
      intro place hplace
      rw [DirEntry.walk, List.mem_singleton] at hplace
      rw [hplace]
      exact Or.inl rfl
  | .other _ => by
      intro place hplace
      rw [DirEntry.walk, List.mem_singleton] at hplace
      rw [hplace]
      exact Or.inl rfl

theorem walkAll_below (base : Path) :
    ∀ entries : List DirEntry, ∀ place ∈ walkAll base entries,
      ∃ rest, pathOf place = base ++ '/' :: rest
  | [] => nofun
  | entry :: entries => by
      intro place hplace
      rw [walkAll] at hplace
      cases List.mem_append.mp hplace with
      | inl hfirst => exact (entry.walk_below base place hfirst).joinPath base entry.name
      | inr hrest => exact walkAll_below base entries place hrest

end

/-- Every path of a walk is below the name of an entry. -/
theorem walkAll_entry {base : Path} {entries : List DirEntry} {place : Path × DirEntry}
    (h : place ∈ walkAll base entries) :
    ∃ entry ∈ entries, Below (joinPath base entry.name) (pathOf place) := by
  induction entries with
  | nil =>
      rw [walkAll] at h
      cases h
  | cons entry entries ih =>
      rw [walkAll] at h
      cases List.mem_append.mp h with
      | inl hfirst => exact ⟨entry, List.mem_cons_self .., entry.walk_below base place hfirst⟩
      | inr hrest =>
          obtain ⟨other, hother, hbelow⟩ := ih hrest
          exact ⟨other, List.mem_cons_of_mem _ hother, hbelow⟩

theorem AllWellNamed.of_mem {entries : List DirEntry} (h : AllWellNamed entries) {entry : DirEntry}
    (hentry : entry ∈ entries) : entry.WellNamed := by
  induction entries with
  | nil => cases hentry
  | cons first entries ih =>
      rw [AllWellNamed] at h
      rcases List.mem_cons.mp hentry with rfl | hrest
      · exact h.1
      · exact ih h.2.2 hrest

mutual

theorem DirEntry.walk_nodup (base : Path) :
    ∀ entry : DirEntry, entry.WellNamed → ((entry.walk base).map pathOf).Nodup
  | .dir name entries => by
      intro h
      rw [DirEntry.WellNamed] at h
      rw [DirEntry.walk, List.map_cons, List.nodup_cons]
      by_cases hskip : Skipped name
      · rw [if_pos hskip]
        exact ⟨List.not_mem_nil, .nil⟩
      · rw [if_neg hskip]
        refine ⟨fun hmem => ?_, walkAll_nodup (joinPath base name) entries h.2⟩
        obtain ⟨place, hplace, heq⟩ := List.mem_map.mp hmem
        obtain ⟨rest, hrest⟩ := walkAll_below (joinPath base name) entries place hplace
        have hlen := congrArg List.length (hrest.symm.trans heq)
        rw [List.length_append, List.length_cons, pathOf] at hlen
        dsimp only [DirEntry.name] at hlen
        omega
  | .file _ _ => fun _ => by
      rw [DirEntry.walk]
      exact List.nodup_singleton _
  | .closed _ => fun _ => by
      rw [DirEntry.walk]
      exact List.nodup_singleton _
  | .other _ => fun _ => by
      rw [DirEntry.walk]
      exact List.nodup_singleton _

/-- The paths of a walk are different. -/
theorem walkAll_nodup (base : Path) :
    ∀ entries : List DirEntry, AllWellNamed entries → ((walkAll base entries).map pathOf).Nodup
  | [] => fun _ => by
      rw [walkAll]
      exact .nil
  | entry :: entries => by
      intro h
      rw [AllWellNamed] at h
      obtain ⟨hentry, hnames, hentries⟩ := h
      rw [walkAll, List.map_append, List.nodup_append]
      refine ⟨entry.walk_nodup base hentry, walkAll_nodup base entries hentries, ?_⟩
      rintro path hpath path' hpath' rfl
      obtain ⟨place, hplace, rfl⟩ := List.mem_map.mp hpath
      obtain ⟨place', hplace', heq⟩ := List.mem_map.mp hpath'
      obtain ⟨other, hother, hbelow⟩ := walkAll_entry hplace'
      rw [heq] at hbelow
      exact hnames other hother ((entry.walk_below base place hplace).name_eq hentry.plain
        (hentries.of_mem hother).plain hbelow)

end

/-! ## The files -/

/-- The path and the bytes of a file. -/
def fileOf : Path × DirEntry → Option (Path × List UInt8)
  | (base, .file name bytes) => some (joinPath base name, bytes)
  | _ => none

/-- What `fopen` finds in a directory and below it. -/
def diskOf (folder : Path) (entries : List DirEntry) : Disk := fun path =>
  (((walkAll folder entries).filterMap fileOf).find? fun file => file.1 = path).map Prod.snd

theorem diskOf_ne_none {folder path : Path} {entries : List DirEntry} :
    diskOf folder entries path ≠ none ↔
      ∃ base name bytes, (base, .file name bytes) ∈ walkAll folder entries ∧
        path = joinPath base name := by
  rw [diskOf, Option.ne_none_iff_isSome, Option.isSome_map, List.find?_isSome]
  constructor
  · rintro ⟨file, hfile, heq⟩
    obtain ⟨⟨base, entry⟩, hplace, hsome⟩ := List.mem_filterMap.mp hfile
    cases entry with
    | file name bytes =>
        cases hsome
        exact ⟨base, name, bytes, hplace, (of_decide_eq_true heq).symm⟩
    | _ => cases hsome
  · rintro ⟨base, name, bytes, hplace, rfl⟩
    exact ⟨_, List.mem_filterMap.mpr ⟨_, hplace, rfl⟩, decide_eq_true rfl⟩

/-- A path ends as its last name does, because a name of less than four characters has a slash
in front of it. -/
theorem isImage_joinPath (base : Path) (name : List Char) :
    IsImage (joinPath base name) ↔ IsImage name := by
  have hreverse : (joinPath base name).reverse = name.reverse ++ '/' :: base.reverse := by
    simp [joinPath]
  rw [IsImage, IsImage, hreverse]
  generalize base.reverse = rest
  rcases name.reverse with _ | ⟨g, _ | ⟨p, _ | ⟨j, _ | ⟨dot, more⟩⟩⟩⟩
  · rcases rest with _ | ⟨p, _ | ⟨j, _ | ⟨dot, rest⟩⟩⟩ <;> simp [jpgEnd]
  · rcases rest with _ | ⟨j, _ | ⟨dot, rest⟩⟩ <;> simp [jpgEnd]
  · rcases rest with _ | ⟨dot, rest⟩ <;> simp [jpgEnd]
  · simp [jpgEnd]
  · exact Iff.rfl

theorem not_skipped_of_isImage {name : List Char} (h : IsImage name) : ¬ Skipped name := by
  rintro (rfl | rfl) <;> cases h

theorem mem_images {folder path : Path} {entries : List DirEntry} :
    path ∈ (images folder entries).map Prod.fst ↔
      diskOf folder entries path ≠ none ∧ IsImage path := by
  rw [diskOf_ne_none]
  constructor
  · intro hpath
    obtain ⟨⟨path', name'⟩, hmem, rfl⟩ := List.mem_map.mp hpath
    obtain ⟨⟨base, entry⟩, hplace, hsome⟩ := List.mem_filterMap.mp hmem
    cases entry with
    | file name bytes =>
        rw [imageOf] at hsome
        by_cases himage : ¬ Skipped name ∧ IsImage name
        · rw [if_pos himage] at hsome
          cases hsome
          exact ⟨⟨base, _, bytes, hplace, rfl⟩, (isImage_joinPath base _).mpr himage.2⟩
        · rw [if_neg himage] at hsome
          cases hsome
    | _ => cases hsome
  · rintro ⟨⟨base, name, bytes, hplace, rfl⟩, himage⟩
    have hname := (isImage_joinPath base name).mp himage
    refine List.mem_map.mpr ⟨(joinPath base name, name), List.mem_filterMap.mpr
      ⟨_, hplace, ?_⟩, rfl⟩
    rw [imageOf, if_pos ⟨not_skipped_of_isImage hname, hname⟩]

/-- The images of a walk have the paths of their entries. -/
theorem images_sublist (places : List (Path × DirEntry)) :
    ((places.filterMap imageOf).map Prod.fst).Sublist (places.map pathOf) := by
  induction places with
  | nil => exact .slnil
  | cons place places ih =>
      rw [List.filterMap_cons, List.map_cons]
      obtain ⟨base, entry⟩ := place
      cases entry with
      | file name bytes =>
          rw [imageOf]
          split
          · exact ih.cons _
          next heq =>
            split at heq <;> cases heq
            exact ih.cons_cons _
      | _ => exact ih.cons _

theorem nodup_images {folder : Path} {entries : List DirEntry} (hnamed : AllWellNamed entries) :
    ((images folder entries).map Prod.fst).Nodup :=
  (walkAll_nodup folder entries hnamed).sublist (images_sublist _)

/-- The program gets through a directory exactly when its paths and the record have room and
every directory can be opened.  Then it lists every image in the directory and below it once. -/
theorem listed_images {folder : Path} {entries : List DirEntry} (hnamed : AllWellNamed entries) :
    ((∃ list, getFilelist folder entries = .ok list) ↔ Listable folder entries) ∧
      ∀ list, getFilelist folder entries = .ok list → list.names.Nodup ∧
        ∀ path, path ∈ list.names ↔ diskOf folder entries path ≠ none ∧ IsImage path := by
  constructor
  · constructor
    · rintro ⟨list, hlist⟩
      exact (getFilelist_ok.mp hlist).1
    · intro hfits
      exact ⟨_, getFilelist_ok.mpr ⟨hfits, rfl⟩⟩
  · intro list hlist
    obtain ⟨_, rfl⟩ := getFilelist_ok.mp hlist
    rw [FileList.add, List.nil_append]
    exact ⟨nodup_images hnamed, fun _ => mem_images⟩

/-- A directory with an image and another one below it. -/
def nestedImages : List DirEntry :=
  [.closed ['.', '.'], .file someName [], .dir ['d'] [.file otherName []]]

theorem nestedImages_named : AllWellNamed nestedImages := by
  simp [nestedImages, AllWellNamed, DirEntry.WellNamed, PlainName, DirEntry.name, someName,
    otherName]

/-- Both images are listed. -/
theorem listed_images_nested : Listable ['f'] nestedImages ∧
    ∀ list, getFilelist ['f'] nestedImages = .ok list → list.names.Nodup ∧
      ∀ path, path ∈ list.names ↔ diskOf ['f'] nestedImages path ≠ none ∧ IsImage path := by
  obtain ⟨hfits, hlisted⟩ := @listed_images ['f'] _ nestedImages_named
  exact ⟨hfits.mp ⟨_, rfl⟩, hlisted⟩

/-! ## The next run -/

/-- What a run that gets through leaves. -/
theorem main_left {disk : Disk} {names : List Path} {cbuf : CharBuf} {u : HuffValUseful} {s : Tool}
    (hfree : ∀ p ∈ names, ∀ q ∈ names, q ≠ outputPath p)
    (hrun : main disk names cbuf = .ok (u, s)) :
    (∀ path ∈ names, s.disk (outputPath path) ≠ none) ∧
      ∀ path, (∀ p ∈ names, path ≠ outputPath p) → s.disk path = disk path := by
  obtain ⟨s₁, hcount, hrest⟩ := Run.except_bind_eq_ok.mp hrun
  obtain ⟨trees, htrees, hrest⟩ := Run.except_bind_eq_ok.mp hrest
  obtain ⟨s₂, hrecode, hok⟩ := Run.except_bind_eq_ok.mp hrest
  cases hok
  have hread : ∀ path ∈ names, ∃ v, imageCounts disk path = .ok v := by
    intro path hpath
    cases hv : imageCounts disk path with
    | ok v => exact ⟨v, rfl⟩
    | error e =>
        obtain ⟨e', he⟩ := countAll_error hpath 0 (.start disk) hv
        cases hcount.symm.trans he
  cases hcount.symm.trans (countAll_start hread)
  have hflushed : (Tool.counted disk names).Flushed := ⟨rfl, rfl⟩
  have hdisk : ∀ path ∈ names, (Tool.counted disk names).disk path = disk path := fun _ _ => rfl
  have hwrite : ∀ path ∈ names, ∃ w, recodedFile trees.1 disk path = .ok w := by
    intro path hpath
    cases hw : recodedFile trees.1 disk path with
    | ok w => exact ⟨w, rfl⟩
    | error e =>
        obtain ⟨e', he⟩ := recodeAll_error names.length hpath hw hflushed hdisk hfree
        cases hrecode.symm.trans he
  obtain ⟨s', hrun', hleft, _⟩ := recodeAll_ok names.length hflushed hdisk hfree hwrite
  cases hrecode.symm.trans hrun'
  refine ⟨fun path hpath => ?_, hleft.kept⟩
  obtain ⟨w, hw⟩ := hwrite path hpath
  rw [(hleft.written path hpath w hw).1]
  exact Option.some_ne_none _

theorem isImage_outputPath (path : Path) : IsImage (outputPath path) := by
  rw [IsImage, outputPath, List.reverse_append]
  rfl

/-- After a run the directory has twice as many images: the next run lists those of the last one
and their output files. -/
theorem images_doubled {folder : Path} {entries entries' : List DirEntry}
    (hnamed : AllWellNamed entries) (hnamed' : AllWellNamed entries') {list list' : FileList}
    (hlist : getFilelist folder entries = .ok list)
    (hfree : ∀ p ∈ list.names, ∀ q ∈ list.names, q ≠ outputPath p) {cbuf : CharBuf}
    {u : HuffValUseful} {s : Tool}
    (hrun : main (diskOf folder entries) list.names cbuf = .ok (u, s))
    (hleft : ∀ path, IsImage path → diskOf folder entries' path = s.disk path)
    (hlist' : getFilelist folder entries' = .ok list') :
    list'.names.Perm (list.names ++ list.names.map outputPath) := by
  obtain ⟨hwritten, hkept⟩ := main_left hfree hrun
  obtain ⟨_, rfl⟩ := getFilelist_ok.mp hlist
  obtain ⟨_, rfl⟩ := getFilelist_ok.mp hlist'
  rw [FileList.add, List.nil_append] at hfree hwritten hkept ⊢
  rw [FileList.add, List.nil_append]
  have hnodup : ((images folder entries).map Prod.fst ++
      ((images folder entries).map Prod.fst).map outputPath).Nodup := by
    refine List.nodup_append.mpr ⟨nodup_images hnamed,
      (nodup_images hnamed).map fun _ _ => outputPath_inj, ?_⟩
    rintro path hpath path' hpath' rfl
    obtain ⟨p, hp, heq⟩ := List.mem_map.mp hpath'
    exact hfree p hp path hpath heq.symm
  refine (List.perm_ext_iff_of_nodup (nodup_images hnamed') hnodup).mpr fun path => ?_
  rw [mem_images, List.mem_append]
  constructor
  · rintro ⟨hsome, himage⟩
    rw [hleft path himage] at hsome
    by_cases hout : ∃ p ∈ (images folder entries).map Prod.fst, outputPath p = path
    · obtain ⟨p, hp, rfl⟩ := hout
      exact Or.inr (List.mem_map_of_mem hp)
    · rw [hkept path fun p hp heq => hout ⟨p, hp, heq.symm⟩] at hsome
      exact Or.inl (mem_images.mpr ⟨hsome, himage⟩)
  · rintro (hpath | hpath)
    · obtain ⟨hsome, himage⟩ := mem_images.mp hpath
      rw [hleft path himage, hkept path fun p hp => hfree p hp path hpath]
      exact ⟨hsome, himage⟩
    · obtain ⟨p, hp, rfl⟩ := List.mem_map.mp hpath
      rw [hleft _ (isImage_outputPath p)]
      exact ⟨hwritten p hp, isImage_outputPath p⟩

/-! ## One image -/

/-- An image in a directory. -/
def slimFolder : List DirEntry := [.file someName slimFile]

/-- Its path. -/
def slimPath : Path := joinPath ['f'] someName

theorem diskOf_slimFolder (path : Path) :
    diskOf ['f'] slimFolder path = if path = slimPath then some slimFile else none := by
  have hwalk : (walkAll ['f'] slimFolder).filterMap fileOf = [(slimPath, slimFile)] := rfl
  rw [diskOf, hwalk, List.find?_singleton]
  by_cases heq : path = slimPath
  · rw [if_pos heq, if_pos (decide_eq_true heq.symm), Option.map_some]
  · rw [if_neg heq, if_neg fun h => heq (of_decide_eq_true h).symm, Option.map_none]

theorem slimFolder_counts : CountsFit (totalCounts (diskOf ['f'] slimFolder) [slimPath]) where
  lt := by
    have hall : (List.range 4).all (fun type => (List.range 256).all fun code =>
        totalCounts (diskOf ['f'] slimFolder) [slimPath] type code < 2 ^ 31) = true := by
      decide +kernel
    intro type htype code hcode
    have hrow := List.all_eq_true.mp hall type (List.mem_range.mpr htype)
    exact decide_eq_true_iff.mp (List.all_eq_true.mp hrow code (List.mem_range.mpr hcode))
  segment := by decide +kernel
  rows := by decide +kernel

/-- The next run lists the image and its output file. -/
theorem images_doubled_slim : ∃ u s entries' list',
    main (diskOf ['f'] slimFolder) [slimPath] (fun _ => '0') = .ok (u, s) ∧
      getFilelist ['f'] entries' = .ok list' ∧
      list'.names.Perm ([slimPath] ++ [slimPath].map outputPath) := by
  have himages : AllImages (diskOf ['f'] slimFolder) [slimPath] := by
    intro path hpath
    rw [List.mem_singleton.mp hpath, diskOf_slimFolder, if_pos rfl]
    exact ⟨slimFile, slimImage, _, rfl, slimFile_image⟩
  obtain ⟨u, _, s, _, hrun, _, hkept, hfiles⟩ :=
    main_images himages (by decide) slimFolder_counts fun _ => '0'
  obtain ⟨bytes, hbytes, _⟩ := hfiles slimPath (List.mem_singleton_self _) slimFile slimImage _
    (by rw [diskOf_slimFolder, if_pos rfl]) slimFile_image
  obtain ⟨out, hout, _⟩ := Option.map_eq_some_iff.mp hbytes
  let entries' : List DirEntry := [.file someName slimFile, .file (outputPath someName) out]
  have hnamed : AllWellNamed slimFolder := by
    simp [slimFolder, AllWellNamed, DirEntry.WellNamed, PlainName, DirEntry.name, someName]
  have hnamed' : AllWellNamed entries' := by
    simp [entries', AllWellNamed, DirEntry.WellNamed, PlainName, DirEntry.name, someName,
      outputPath]
  have hwalk : (walkAll ['f'] entries').filterMap fileOf =
      [(slimPath, slimFile), (outputPath slimPath, out)] := rfl
  have hleft : ∀ path, IsImage path → diskOf ['f'] entries' path = s.disk path := by
    intro path _
    rw [diskOf, hwalk, List.find?_cons]
    by_cases hin : path = slimPath
    · have hne : ∀ p ∈ [slimPath], path ≠ outputPath p := by
        rw [hin]
        decide
      rw [hkept path hne, diskOf_slimFolder, if_pos hin, hin]
      simp
    · simp only [decide_eq_false (Ne.symm hin), List.find?_singleton]
      by_cases hoff : path = outputPath slimPath
      · rw [hoff, hout]
        simp
      · have hne : ∀ p ∈ [slimPath], path ≠ outputPath p := by
          intro p hp
          rwa [List.mem_singleton.mp hp]
        rw [hkept path hne, diskOf_slimFolder, if_neg hin,
          if_neg fun h => hoff (of_decide_eq_true h).symm]
        rfl
  have hlist : getFilelist ['f'] slimFolder = .ok ⟨[slimPath], someName ++ ['\n']⟩ := rfl
  have hlist' : ∃ list', getFilelist ['f'] entries' = .ok list' := ⟨_, rfl⟩
  obtain ⟨list', hlist'⟩ := hlist'
  exact ⟨u, s, entries', list', hrun, hlist',
    images_doubled hnamed hnamed' hlist (by decide) hrun hleft hlist'⟩

end Recode
