import TermNet.Script

namespace TermNet

/-!
# What actions change in a directory

Making folders leaves the files as they are, and writing a file leaves the folders and all other
files.  No action takes a folder away, so a path that leads to a place goes on leading there.

* `Route.ofText?_join` — the path of a name in a folder;
* `Directory.target?_mono` — with more folders a path leads to the same place;
* `Directory.Grown` — the same files, and perhaps more folders;
* `Directory.Stored` — some files written one after the other;
* `Stored.find?_of_mem`, `Stored.find?_of_not_mem` — what is found afterwards;
* `Script.Leads` — a script that runs to its end, with one lemma for each action.
-/

/-! ### Paths -/

namespace Route

/-- The names between the slashes of a text. -/
def namesIn (cs : List Char) : List String :=
  ((cs.splitOn '/').filter fun name => !name.isEmpty).map String.ofList

/-- The names on both sides of a slash. -/
theorem namesIn_append_slash (cs ds : List Char) :
    namesIn (cs ++ '/' :: ds) = namesIn cs ++ namesIn ds := by
  simp [namesIn, List.splitOn_append_cons_self]

/-- A name without slashes is the only one in it. -/
theorem namesIn_name {name : String} (hne : name ≠ "") (hslash : '/' ∉ name.toList) :
    namesIn name.toList = [name] := by
  simp [namesIn, List.splitOn_eq_singleton hslash, hne]

/-- Whether there is a folder or not, the text of a path in it ends with the name. -/
theorem namesIn_join {folder name : String} (hne : name ≠ "") (hslash : '/' ∉ name.toList) :
    namesIn (join folder name).toList = namesIn folder.toList ++ [name] := by
  have hhead : name.toList.head? ≠ some '/' := fun h => hslash (List.mem_of_head? h)
  unfold join
  split
  · rename_i hfolder
    have hempty : folder = "" := by simpa [hhead] using hfolder
    rw [hempty, namesIn_name hne hslash]
    rfl
  · split
    · rename_i hend
      -- the folder ends in a slash, behind which there is no name
      obtain ⟨before, hbefore⟩ := List.getLast?_eq_some_iff.mp hend
      rw [String.toList_append, hbefore, List.append_assoc, List.singleton_append,
        namesIn_append_slash, namesIn_append_slash, namesIn_name hne hslash]
      simp [namesIn]
    · rw [String.toList_append, String.toList_append, List.append_assoc]
      exact (namesIn_append_slash folder.toList name.toList).trans
        (by rw [namesIn_name hne hslash])

/-- A path begins at the root if the folder does, whatever name is put behind it. -/
theorem head?_join {folder name : String} (hslash : '/' ∉ name.toList) :
    (join folder name).toList.head? = some '/' ↔ folder.toList.head? = some '/' := by
  have hhead : name.toList.head? ≠ some '/' := fun h => hslash (List.mem_of_head? h)
  by_cases hempty : folder = ""
  · simp [join, hempty, hhead]
  · obtain ⟨c, rest, hfolder⟩ := List.exists_cons_of_ne_nil
      (show folder.toList ≠ [] by simpa using hempty)
    unfold join
    rw [if_neg (by simp [hempty, hhead])]
    split <;> simp [hfolder]

/-- A path that ends with a name does not end with a slash. -/
theorem getLast?_join {folder name : String} (hne : name ≠ "") (hslash : '/' ∉ name.toList) :
    (join folder name).toList.getLast? ≠ some '/' := by
  obtain ⟨rest, c, hname⟩ := (List.eq_nil_or_concat name.toList).resolve_left (by simpa using hne)
  have hlast : c ≠ '/' := by
    rintro rfl
    exact hslash (by simp [hname])
  unfold join
  split
  · simp [hname, hlast]
  · split <;> simp [hname, hlast, List.getLast?_cons]

/-- **The path of a name in a folder** is that of the folder with one more name. -/
theorem ofText?_join {folder name : String} {route : Route} (hne : name ≠ "")
    (hslash : '/' ∉ name.toList) (h : ofText? (join folder name) = some route) :
    route = ⟨folder.toList.head? = some '/', namesIn folder.toList ++ [name], false⟩ := by
  rw [ofText?] at h
  split at h
  · cases h
  · rw [← Option.some.inj h, ← namesIn_join hne hslash]
    simp [namesIn, head?_join hslash, getLast?_join hne hslash]

end Route

namespace Directory

variable {dir mid dir' : Directory} {place place' names : List String} {path contents : String}

/-! ### Places -/

/-- Folders stay folders when there are more of them. -/
theorem isFolder_mono (hfolders : dir.folders ⊆ dir'.folders) (h : dir.isFolder names = true) :
    dir'.isFolder names = true := by
  simp only [isFolder, Bool.or_eq_true, List.contains_iff_mem] at h ⊢
  exact h.imp_right (hfolders ·)

/-- A step from place to place stays possible when there are more folders. -/
theorem enter_mono {name : String} (hfolders : dir.folders ⊆ dir'.folders)
    (h : dir.enter place name = .ok place') : dir'.enter place name = .ok place' := by
  unfold enter at h ⊢
  by_cases hhere : name = Route.here
  · rwa [if_pos hhere] at h ⊢
  rw [if_neg hhere] at h ⊢
  by_cases habove : name = Route.above
  · rwa [if_pos habove] at h ⊢
  rw [if_neg habove] at h ⊢
  by_cases hlong : Route.longestName < name.utf8ByteSize
  · rw [if_pos hlong] at h
    cases h
  rw [if_neg hlong] at h ⊢
  dsimp only at h ⊢
  split at h
  · rename_i hfolder
    rwa [if_pos (isFolder_mono hfolders hfolder)]
  · split at h <;> cases h

/-- A way through folders stays open when there are more of them. -/
theorem walk_mono {route : List String} (hfolders : dir.folders ⊆ dir'.folders)
    (h : dir.walk place route = .ok place') : dir'.walk place route = .ok place' := by
  induction route generalizing place with
  | nil => exact h
  | cons name route ih =>
    unfold walk at h ⊢
    split at h
    · rename_i next hnext
      rw [enter_mono hfolders hnext]
      exact ih h
    · cases h

/-- **A path leads to a place** if its folders can be walked through and it ends with a name. -/
theorem target?_eq_some_iff : dir.target? path = some names ↔ ∃ route name place,
    Route.ofText? path = some route ∧ route.fileName? = some name ∧
      dir.walk route.start route.names.dropLast = .ok place ∧ names = place ++ [name] := by
  unfold target?
  cases Route.ofText? path with
  | none => simp
  | some route =>
    cases hname : route.fileName? with
    | none => simp [hname]
    | some name =>
      cases hwalk : dir.walk route.start route.names.dropLast with
      | error obstacle => simp [hwalk]
      | ok place => simp [hname, hwalk, eq_comm]

/-- **With more folders a path leads to the same place.** -/
theorem target?_mono (hfolders : dir.folders ⊆ dir'.folders) (h : dir.target? path = some names) :
    dir'.target? path = some names := by
  obtain ⟨route, name, place, hroute, hname, hwalk, rfl⟩ := target?_eq_some_iff.mp h
  exact target?_eq_some_iff.mpr ⟨route, name, place, hroute, hname, walk_mono hfolders hwalk, rfl⟩

/-- The files of a folder lie at one place. -/
theorem target?_join {folder name : String} (hne : name ≠ "") (hslash : '/' ∉ name.toList)
    (h : dir.target? (Route.join folder name) = some names) :
    ∃ place, dir.walk (if folder.toList.head? = some '/' then ["/"] else [])
      (Route.namesIn folder.toList) = .ok place ∧ names = place ++ [name] := by
  obtain ⟨route, last, place, hroute, hlast, hwalk, rfl⟩ := target?_eq_some_iff.mp h
  obtain rfl := Route.ofText?_join hne hslash hroute
  refine ⟨place, by simpa [Route.start] using hwalk, ?_⟩
  -- the last name is that of the file
  unfold Route.fileName? at hlast
  simp only [List.getLast?_concat] at hlast
  split at hlast
  · cases hlast
  · rw [Option.some.inj hlast]

/-! ### Making folders -/

/-- The same files, and perhaps more folders. -/
structure Grown (dir dir' : Directory) : Prop where
  files : dir'.files = dir.files
  folders : dir.folders ⊆ dir'.folders

/-- A directory to which nothing is added. -/
theorem Grown.refl (dir : Directory) : Grown dir dir := ⟨rfl, fun _ h => h⟩

/-- A directory to which folders are added twice. -/
theorem Grown.trans (h : Grown dir mid) (h' : Grown mid dir') : Grown dir dir' :=
  ⟨h'.files.trans h.files, fun _ hmem => h'.folders (h.folders hmem)⟩

/-- Making one folder adds it and leaves the files alone. -/
theorem grown_of_makeFolder (h : dir.makeFolder place names = .ok dir') : Grown dir dir' := by
  unfold makeFolder at h
  split at h
  · cases h
  · cases h
  · dsimp only at h
    split at h
    · cases h
    · split at h
      · cases h
      · split at h
        · cases h
        · cases h
          exact ⟨rfl, List.subset_append_left _ _⟩

/-- Making a folder that may be there adds one at most. -/
theorem grown_of_ensureFolder? (h : dir.ensureFolder? place names = some dir') :
    Grown dir dir' := by
  unfold ensureFolder? at h
  split at h
  · rename_i made hmade
    cases h
    exact grown_of_makeFolder hmade
  · split at h
    · cases h
      exact .refl dir
    · cases h

/-- Making a folder, and those that it stands in if it has to be. -/
theorem grown_of_ensureWith? {makeHolder? : Directory → Option Directory}
    (hholder : ∀ {dir dir'}, makeHolder? dir = some dir' → Grown dir dir')
    (h : dir.ensureWith? place names makeHolder? = some dir') : Grown dir dir' := by
  unfold ensureWith? at h
  split at h
  · obtain ⟨mid, hmid, hensure⟩ := Option.bind_eq_some_iff.mp h
    exact (hholder hmid).trans (grown_of_ensureFolder? hensure)
  · exact grown_of_ensureFolder? h

/-- Making the folders of a path from the last one backwards, by induction on them. -/
theorem grown_of_ensureAll? {backwards : List String}
    (h : ensureAll? place backwards dir = some dir') : Grown dir dir' := by
  induction backwards generalizing dir dir' with
  | nil =>
    cases h
    exact .refl dir
  | cons name rest ih => exact grown_of_ensureWith? ih h

/-- **Making folders** leaves the files as they are. -/
theorem grown_of_makeFolders? (h : dir.makeFolders? path = some dir') : Grown dir dir' := by
  unfold makeFolders? at h
  split at h
  · cases h
    exact .refl dir
  · split at h
    · exact grown_of_ensureWith? grown_of_ensureAll? h
    · cases h

/-! ### Writing files -/

/-- The first file of a name counts. -/
theorem lookup_cons_ite {files : List (List String × String)} (other key : List String)
    (contents : String) : ((key, contents) :: files).lookup other =
      if other = key then some contents else files.lookup other := by
  by_cases h : other = key
  · rw [if_pos h, h, List.lookup_cons_self]
  · rw [if_neg h, List.lookup_cons, beq_eq_false_iff_ne.mpr h]

/-- Setting a file changes that file and no other one. -/
theorem lookup_setFile (names : List String) (contents : String)
    (files : List (List String × String)) (other : List String) :
    (setFile names contents files).lookup other =
      if other = names then some contents else files.lookup other := by
  induction files with
  | nil => exact lookup_cons_ite other names contents
  | cons file files ih =>
    obtain ⟨key, old⟩ := file
    rw [setFile]
    by_cases hkey : key = names
    · subst hkey
      rw [if_pos rfl, lookup_cons_ite, lookup_cons_ite]
      split <;> rfl
    · rw [if_neg hkey, lookup_cons_ite, lookup_cons_ite, ih]
      by_cases hother : other = key
      · rw [if_pos hother, if_neg (hother ▸ hkey), if_pos hother]
      · rw [if_neg hother, if_neg hother]

/-- These files have been written one after the other, and perhaps folders made. -/
structure Stored (written : List (List String × String)) (dir dir' : Directory) : Prop where
  files : dir'.files = written.foldl (fun files file => setFile file.1 file.2 files) dir.files
  folders : dir.folders ⊆ dir'.folders

/-- Making folders writes no files. -/
theorem Grown.stored (h : Grown dir dir') : Stored [] dir dir' := ⟨h.files, h.folders⟩

/-- **Writing a file** stores it where its path leads. -/
theorem stored_of_write? (h : dir.write? path contents = some dir') :
    ∃ names, dir.target? path = some names ∧ Stored [(names, contents)] dir dir' := by
  unfold write? at h
  split at h
  · rename_i names htarget
    split at h
    · cases h
    · cases h
      exact ⟨names, htarget, rfl, fun _ hmem => hmem⟩
  · cases h

variable {written more : List (List String × String)}

/-- Files that are written first, and files that are written later. -/
theorem Stored.trans (h : Stored written dir mid) (h' : Stored more mid dir') :
    Stored (written ++ more) dir dir' := by
  refine ⟨?_, fun _ hmem => h'.folders (h.folders hmem)⟩
  rw [h'.files, h.files, List.foldl_append]

/-- What is not written stays as it is. -/
theorem Stored.find?_of_not_mem (h : Stored written dir dir')
    (hnames : names ∉ written.map Prod.fst) :
    dir'.find? names = dir.find? names := by
  rw [find?, find?, h.files]
  clear h
  induction written generalizing dir with
  | nil => rfl
  | cons file written ih =>
    rw [List.map_cons, List.mem_cons, not_or] at hnames
    have hmore := @ih ⟨setFile file.1 file.2 dir.files, dir.folders⟩ hnames.2
    rw [List.foldl_cons, hmore, lookup_setFile, if_neg hnames.1]

/-- **What is written to different places** is found there. -/
theorem Stored.find?_of_mem (h : Stored written dir dir') (hnodup : (written.map Prod.fst).Nodup)
    (hmem : (names, contents) ∈ written) : dir'.find? names = some contents := by
  obtain ⟨before, after, rfl⟩ := List.append_of_mem hmem
  rw [List.map_append, List.map_cons, List.nodup_append] at hnodup
  -- nothing is written to this place later on
  have hlast : Stored after
      ⟨setFile names contents
        (before.foldl (fun files file => setFile file.1 file.2 files) dir.files),
        dir'.folders⟩ dir' :=
    ⟨by rw [h.files, List.foldl_append, List.foldl_cons], fun _ hmem => hmem⟩
  rw [hlast.find?_of_not_mem (List.nodup_cons.mp hnodup.2.1).1, find?, lookup_setFile, if_pos rfl]

end Directory

/-! ### Scripts -/

namespace Script

variable {script rest : Script} {dir mid dir' : Directory}

/-- The script runs to its end, and leads from one directory to the other. -/
def Leads (script : Script) (dir dir' : Directory) : Prop :=
  (script.run dir).error = none ∧ (script.run dir).directory = dir'

/-- A script without actions leaves the directory as it is. -/
theorem leads_nil : Leads [] dir dir' ↔ dir' = dir := by
  simp [Leads, run, eq_comm]

/-- A script that begins with making folders. -/
theorem leads_makeFolders {path : String} : Leads (.makeFolders path :: rest) dir dir' ↔
    ∃ mid, dir.makeFolders? path = some mid ∧ Leads rest mid dir' := by
  rw [Leads, run]
  cases dir.makeFolders? path <;> simp [Leads]

/-- A script that begins with writing a file. -/
theorem leads_write {path contents : String} : Leads (.write path contents :: rest) dir dir' ↔
    ∃ mid, dir.write? path contents = some mid ∧ Leads rest mid dir' := by
  rw [Leads, run]
  cases dir.write? path contents <;> simp [Leads]

/-- A script that fails does not run to its end. -/
theorem not_leads_fail {error : SuiteError} : ¬ Leads (.fail error :: rest) dir dir' := by
  simp [Leads, run]

/-- **Scripts one after the other.** -/
theorem leads_append : Leads (script ++ rest) dir dir' ↔
    ∃ mid, Leads script dir mid ∧ Leads rest mid dir' := by
  induction script generalizing dir with
  | nil => simp [leads_nil]
  | cons action script ih =>
    rw [List.cons_append]
    cases action with
    | makeFolders path =>
      simp only [leads_makeFolders, ih]
      grind
    | write path contents =>
      simp only [leads_write, ih]
      grind
    | format path => exact ih
    | say line => exact ih
    | fail error => simp [not_leads_fail]

end Script

end TermNet
