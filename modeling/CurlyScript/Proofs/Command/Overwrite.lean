import CurlyScript.Command.Files

/-
  Giving files new contents.

  `FileTree.mapFiles` puts something else into the files of a tree, for each by its place, and
  leaves the names and the directories as they are.  So whatever goes by names commutes with it:
  the way along a path (`FileTree.find_mapFiles`), the view from a path
  (`FileTree.seenFrom_mapFiles`) and the search for scripts (`FileTree.scriptsAt_mapFiles`).
-/

namespace CurlyScript

namespace FileTree

mutual

/-- The tree with the content of each file replaced, `place` being the way to the tree. -/
def mapFiles (f : List String → ByteArray → ByteArray) (place : List String) : FileTree → FileTree
  | .file content => .file (f place content)
  | .dir entries => .dir (mapEntries f place entries)
  | .sealed reason => .sealed reason
  | .special reason => .special reason

/-- The entries of a directory with the content of each file replaced. -/
def mapEntries (f : List String → ByteArray → ByteArray) (place : List String) :
    List (String × FileTree) → List (String × FileTree)
  | [] => []
  | (name, t) :: rest => (name, t.mapFiles f (place ++ [name])) :: mapEntries f place rest

end

variable {f : List String → ByteArray → ByteArray} {place : List String}

@[simp] theorem isDir_mapFiles (t : FileTree) : (t.mapFiles f place).isDir = t.isDir := by
  cases t <;> rfl

/-- A name leads to the same entry. -/
theorem lookup_mapEntries (name : String) (entries : List (String × FileTree)) :
    (mapEntries f place entries).lookup name =
      (entries.lookup name).map (mapFiles f (place ++ [name])) := by
  induction entries with
  | nil => rfl
  | cons entry rest ih =>
    obtain ⟨key, t⟩ := entry
    rw [mapEntries, List.lookup_cons, List.lookup_cons]
    cases hkey : name == key with
    | true =>
      rw [eq_of_beq hkey]
      rfl
    | false => exact ih

mutual

/-- If nothing new is put into any file, the tree stays as it is. -/
theorem mapFiles_eq_self (hf : ∀ place content, f place content = content) :
    ∀ (place : List String) (t : FileTree), t.mapFiles f place = t
  | place, .file content => by rw [mapFiles, hf]
  | place, .dir entries => by rw [mapFiles, mapEntries_eq_self hf place entries]
  | place, .sealed reason | place, .special reason => by simp only [mapFiles]

theorem mapEntries_eq_self (hf : ∀ place content, f place content = content) :
    ∀ (place : List String) (entries : List (String × FileTree)),
      mapEntries f place entries = entries
  | place, [] => by rw [mapEntries]
  | place, (name, t) :: rest => by
    rw [mapEntries, mapFiles_eq_self hf (place ++ [name]) t, mapEntries_eq_self hf place rest]

end

end FileTree

/-! ## Along a path -/

namespace Place

variable {f : List String → ByteArray → ByteArray}

/-- The way to a place, with the contents of files replaced in all that it leads through. -/
def mapWay (f : List String → ByteArray → ByteArray) :
    List (String × FileTree) → List (String × FileTree)
  | [] => []
  | (name, parent) :: way =>
    (name, parent.mapFiles f (way.map (·.1)).reverse) :: mapWay f way

/-- The same place once the contents of files are replaced. -/
def mapFiles (f : List String → ByteArray → ByteArray) (p : Place) : Place :=
  ⟨p.here.mapFiles f p.names, mapWay f p.way⟩

theorem step_mapFiles (p : Place) (name : String) :
    (p.mapFiles f).step name = (p.step name).map (mapFiles f) := by
  obtain ⟨here, way⟩ := p
  cases here with
  | file content => rfl
  | «sealed» reason => rfl
  | special reason => rfl
  | dir entries =>
    by_cases hup : name = ".."
    · subst hup
      cases way with
      | nil => rfl
      | cons entry way => rfl
    · show step ⟨.dir (FileTree.mapEntries f _ entries), mapWay f way⟩ name = _
      rw [step, step]
      simp only [if_neg hup, FileTree.lookup_mapEntries]
      split
      · rfl
      · cases hlookup : entries.lookup name with
        | none => rfl
        | some child =>
          simp [mapFiles, mapWay, names, Except.map, FileTree.mapFiles]

theorem steps_mapFiles (p : Place) (names : List String) :
    (p.mapFiles f).steps names = (p.steps names).map (mapFiles f) := by
  rw [steps, steps]
  induction names generalizing p with
  | nil => rfl
  | cons name names ih =>
    rw [List.foldlM_cons, List.foldlM_cons, step_mapFiles]
    cases p.step name with
    | error fault => rfl
    | ok q => exact ih q

/-- Where a path leads to from a place: along its names, and to a directory if it has to. -/
def arrive (start : Place) (route : List String × Bool) : Except PathFault Place :=
  (start.steps route.1).bind fun found =>
    if route.2 && !found.here.isDir then .error .notDirectory else .ok found

theorem arrive_mapFiles (start : Place) (route : List String × Bool) :
    (start.mapFiles f).arrive route = (start.arrive route).map (mapFiles f) := by
  rw [arrive, arrive, steps_mapFiles]
  cases start.steps route.1 with
  | error fault => rfl
  | ok found =>
    have hdir : (found.mapFiles f).here.isDir = found.here.isDir := FileTree.isDir_mapFiles _
    show ite _ _ _ = Except.map (mapFiles f) (ite _ _ _)
    rw [hdir]
    split <;> rfl

end Place

namespace FileTree

variable {f : List String → ByteArray → ByteArray}

theorem find_eq (system : FileTree) (home : List String) (path : String) :
    system.find home path =
      if path = "" then .error .missing
      else if path.utf8ByteSize > maxPathSize then .error .tooLong
      else if path.startsWith "/" then (Place.top system).arrive (splitPath path)
      else ((Place.top system).steps home).bind fun start => start.arrive (splitPath path) := by
  have harrive : ∀ start : Place, (do
      let found ← start.steps (splitPath path).1
      if (splitPath path).2 && !found.here.isDir then throw .notDirectory
      return found) = start.arrive (splitPath path) := by
    intro start
    rw [Place.arrive]
    cases start.steps (splitPath path).1 with
    | error fault => rfl
    | ok found =>
      show ite _ _ _ = ite _ _ _
      split <;> rfl
  rw [find]
  by_cases hempty : path = ""
  · rw [if_pos hempty, if_pos hempty]
    rfl
  by_cases hlong : path.utf8ByteSize > maxPathSize
  · rw [if_neg hempty, if_neg hempty, if_pos hlong, if_pos hlong]
    rfl
  simp only [if_neg hempty, if_neg hlong, pure_bind, harrive]
  rfl

/-- **A path leads to the same place**, whatever the files hold. -/
theorem find_mapFiles (system : FileTree) (home : List String) (path : String) :
    (system.mapFiles f []).find home path = (system.find home path).map (Place.mapFiles f) := by
  have htop : Place.top (system.mapFiles f []) = (Place.top system).mapFiles f := rfl
  rw [find_eq, find_eq, htop, Place.arrive_mapFiles, Place.steps_mapFiles]
  split
  · rfl
  split
  · rfl
  split
  · rfl
  cases (Place.top system).steps home with
  | error fault => rfl
  | ok start => exact Place.arrive_mapFiles start (splitPath path)

/-! ## From a path -/

section

variable {path : String}

theorem seenFrom_dir (here : List String) (entries : List (String × FileTree)) :
    (dir entries).seenFrom path here =
      if fits (joinPath path here) then dir (entriesSeenFrom path here entries)
      else .sealed PathFault.tooLong.text := by
  rw [seenFrom]

/-- What is no directory is seen as it is unless the path to it is too long. -/
theorem seenFrom_of_not_dir {t : FileTree} (h : t.isDir = false) (here : List String) :
    t.seenFrom path here =
      if fits (joinPath path here) then t else .sealed PathFault.tooLong.text := by
  cases t with
  | dir entries => cases h
  | _ => rfl

theorem seenFrom_mapFiles_of_not_dir {t : FileTree} (h : t.isDir = false)
    (here place : List String) :
    (t.mapFiles f place).seenFrom path here = (t.seenFrom path here).mapFiles f place := by
  have hmapped : (t.mapFiles f place).isDir = false := (isDir_mapFiles t).trans h
  rw [seenFrom_of_not_dir h, seenFrom_of_not_dir hmapped]
  split
  · rfl
  · rw [mapFiles]

mutual

/-- **The same is seen** from a path, with what the files hold now. -/
theorem seenFrom_mapFiles (path : String) : ∀ (here place : List String) (t : FileTree),
    (t.mapFiles f place).seenFrom path here = (t.seenFrom path here).mapFiles f place
  | here, place, .dir entries => by
    rw [mapFiles, seenFrom_dir, seenFrom_dir, entriesSeenFrom_mapEntries path here place entries]
    split <;> rw [mapFiles]
  | here, place, .file content => seenFrom_mapFiles_of_not_dir rfl here place
  | here, place, .sealed reason => seenFrom_mapFiles_of_not_dir rfl here place
  | here, place, .special reason => seenFrom_mapFiles_of_not_dir rfl here place

theorem entriesSeenFrom_mapEntries (path : String) :
    ∀ (here place : List String) (entries : List (String × FileTree)),
      entriesSeenFrom path here (mapEntries f place entries) =
        mapEntries f place (entriesSeenFrom path here entries)
  | here, place, [] => by rw [mapEntries, entriesSeenFrom, mapEntries]
  | here, place, (name, t) :: rest => by
    rw [mapEntries, entriesSeenFrom, entriesSeenFrom, mapEntries,
      seenFrom_mapFiles path (here ++ [name]) (place ++ [name]) t,
      entriesSeenFrom_mapEntries path here place rest]

end

end

/-! ## The search for scripts -/

/-- The search in what is no directory gives just that, if it is called like a script. -/
theorem scripts_of_not_dir {t : FileTree} (h : t.isDir = false) (name : String) :
    t.scripts name = if isScript name then [([], t)] else [] := by
  cases t with
  | dir entries => cases h
  | _ => rfl

theorem scripts_mapFiles_of_not_dir {t : FileTree} (h : t.isDir = false) (name : String)
    (place : List String) : (t.mapFiles f place).scripts name =
      (t.scripts name).map fun s => (s.1, s.2.mapFiles f (place ++ s.1)) := by
  have hmapped : (t.mapFiles f place).isDir = false := (isDir_mapFiles t).trans h
  rw [scripts_of_not_dir h, scripts_of_not_dir hmapped]
  split
  · simp
  · rfl

mutual

theorem scripts_mapFiles (name : String) : ∀ (place : List String) (t : FileTree),
    (t.mapFiles f place).scripts name =
      (t.scripts name).map fun s => (s.1, s.2.mapFiles f (place ++ s.1))
  | place, .dir entries => by
    rw [mapFiles, scripts, scripts, entriesScripts_mapEntries place entries]
  | place, .file content => scripts_mapFiles_of_not_dir rfl name place
  | place, .sealed reason => scripts_mapFiles_of_not_dir rfl name place
  | place, .special reason => scripts_mapFiles_of_not_dir rfl name place

theorem entriesScripts_mapEntries : ∀ (place : List String) (entries : List (String × FileTree)),
    entriesScripts (mapEntries f place entries) =
      (entriesScripts entries).map fun s => (s.1, s.2.mapFiles f (place ++ s.1))
  | place, [] => rfl
  | place, (name, t) :: rest => by
    rw [mapEntries, entriesScripts, entriesScripts, isDir_mapFiles,
      scripts_mapFiles name (place ++ [name]) t, entriesScripts_mapEntries place rest,
      List.map_append]
    congr 1
    split
    · rfl
    · simp [List.map_map, Function.comp_def]

end

@[simp] theorem isFile_mapFiles (t : FileTree) (place : List String) :
    (t.mapFiles f place).isFile = t.isFile := by
  cases t <;> rfl

/-- **The same scripts are found**, in the same order, with what they hold now. -/
theorem scriptsAt_mapFiles (path : String) (place : List String) (t : FileTree) :
    (t.mapFiles f place).scriptsAt path =
      (t.scriptsAt path).map fun s => (s.1, s.2.mapFiles f (place ++ s.1)) := by
  rw [scriptsAt, scriptsAt, isFile_mapFiles, isDir_mapFiles, seenFrom_mapFiles]
  dsimp only
  split
  · rw [scripts_mapFiles]
    symm
    apply List.map_mergeSort
    intro a _ b _
    rfl
  · rfl

/-- What is found in no directory is that itself. -/
theorem eq_of_mem_scripts {t : FileTree} (h : t.isDir = false) {name : String}
    {s : List String × FileTree} (hs : s ∈ t.scripts name) : s = ([], t) := by
  rw [scripts_of_not_dir h] at hs
  split at hs
  · exact List.mem_singleton.mp hs
  · cases hs

mutual

/-- A script is no directory. -/
theorem isDir_of_mem_scripts (name : String) :
    ∀ (t : FileTree) (s : List String × FileTree), s ∈ t.scripts name → s.2.isDir = false
  | .dir entries, s, h => by
    rw [scripts] at h
    exact isDir_of_mem_entriesScripts entries s h
  | .file content, s, h => by rw [eq_of_mem_scripts rfl h]; rfl
  | .sealed reason, s, h => by rw [eq_of_mem_scripts rfl h]; rfl
  | .special reason, s, h => by rw [eq_of_mem_scripts rfl h]; rfl

theorem isDir_of_mem_entriesScripts :
    ∀ (entries : List (String × FileTree)) (s : List String × FileTree),
      s ∈ entriesScripts entries → s.2.isDir = false
  | [], s, h => by cases h
  | (name, t) :: rest, s, h => by
    rw [entriesScripts, List.mem_append] at h
    rcases h with h | h
    · split at h
      · cases h
      · obtain ⟨s', hs', rfl⟩ := List.mem_map.mp h
        exact isDir_of_mem_scripts name t s' hs'
    · exact isDir_of_mem_entriesScripts rest s h

end

theorem isDir_of_mem_scriptsAt {path : String} {t : FileTree} {s : List String × FileTree}
    (h : s ∈ t.scriptsAt path) : s.2.isDir = false := by
  rw [scriptsAt] at h
  split at h
  · exact isDir_of_mem_scripts _ _ s (List.mem_mergeSort.mp h)
  · cases h

end FileTree

end CurlyScript
