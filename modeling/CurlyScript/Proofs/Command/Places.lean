import Mathlib.Data.List.Nodup
import CurlyScript.Proofs.Command.Overwrite

/-
  Places in a tree of directories.

  The names that lead down from a tree to what stands below it are a RELATION (`FileTree.Leads`), so
  nothing is said of how they are followed.  In a PROPER tree, where no directory has two entries of
  one name, they lead to one thing only (`FileTree.Leads.unique`).

  What a path is followed to is reached: the names on the way lead to it from the top, and it is
  left again through directories that hold it (`Place.Reached`).  This is kept by each name that is
  followed, also by the one that goes back up.
-/

namespace CurlyScript

namespace FileTree

/-- The names lead down from one tree to another. -/
inductive Leads : FileTree → List String → FileTree → Prop
  | here (t : FileTree) : Leads t [] t
  | down {entries : List (String × FileTree)} {name : String} {child t : FileTree}
      {place : List String} (hentry : (name, child) ∈ entries) (hrest : Leads child place t) :
      Leads (.dir entries) (name :: place) t

/-- No directory in the tree has two entries of one name. -/
def IsProper (t : FileTree) : Prop :=
  ∀ place entries, t.Leads place (.dir entries) → (entries.map Prod.fst).Nodup

variable {t u v : FileTree} {place place' : List String} {entries : List (String × FileTree)}

namespace Leads

theorem append (h : t.Leads place u) (h' : u.Leads place' v) : t.Leads (place ++ place') v := by
  induction h with
  | here => exact h'
  | down hentry _ ih => exact .down hentry (ih h')

/-- One name more. -/
theorem snoc {name : String} (h : t.Leads place (.dir entries)) (hentry : (name, u) ∈ entries) :
    t.Leads (place ++ [name]) u :=
  h.append (.down hentry (.here u))

end Leads

@[simp] theorem leads_nil : t.Leads [] u ↔ u = t := by
  constructor
  · intro h
    cases h
    rfl
  · rintro rfl
    exact .here u

theorem leads_cons {name : String} : t.Leads (name :: place) u ↔
    ∃ entries child, t = .dir entries ∧ (name, child) ∈ entries ∧ child.Leads place u := by
  constructor
  · intro h
    cases h with
    | down hentry hrest => exact ⟨_, _, rfl, hentry, hrest⟩
  · rintro ⟨entries, child, rfl, hentry, hrest⟩
    exact .down hentry hrest

theorem IsProper.of_leads (h : t.IsProper) (hu : t.Leads place u) : u.IsProper :=
  fun rest entries hleads => h (place ++ rest) entries (hu.append hleads)

@[simp] theorem isProper_file (content : ByteArray) : (file content).IsProper := by
  intro place entries h
  cases h

/-- A tree is proper if its entries have names of their own and are proper. -/
@[simp] theorem isProper_dir : (dir entries).IsProper ↔
    (entries.map Prod.fst).Nodup ∧ ∀ e ∈ entries, e.2.IsProper := by
  constructor
  · intro h
    exact ⟨h [] entries (.here _), fun e he => h.of_leads (.down he (.here e.2))⟩
  · rintro ⟨hnodup, hentries⟩ place below h
    cases h with
    | here => exact hnodup
    | down hentry hrest => exact hentries _ hentry _ below hrest

/-- An entry of a directory is told by its name. -/
theorem eq_of_entries (hnodup : (entries.map Prod.fst).Nodup) {name : String}
    (hu : (name, u) ∈ entries) (hv : (name, v) ∈ entries) : u = v :=
  (Prod.mk.inj (List.inj_on_of_nodup_map hnodup hu hv rfl)).2

/-- **In a proper tree the names lead to one thing only.** -/
theorem Leads.unique (hproper : t.IsProper) (hu : t.Leads place u) (hv : t.Leads place v) :
    u = v := by
  induction hu with
  | here =>
    cases hv
    rfl
  | down hentry _ ih =>
    cases hv with
    | down hentry' hrest' =>
      obtain ⟨hnodup, hentries⟩ := isProper_dir.mp hproper
      obtain rfl := eq_of_entries hnodup hentry hentry'
      exact ih (hentries _ hentry) hrest'

/-! ## New contents -/

variable {f : List String → ByteArray → ByteArray} {base : List String}

theorem mem_mapEntries {name : String} : (name, u) ∈ mapEntries f base entries ↔
    ∃ child, (name, child) ∈ entries ∧ u = child.mapFiles f (base ++ [name]) := by
  induction entries with
  | nil => simp [mapEntries]
  | cons entry rest ih =>
    obtain ⟨key, t⟩ := entry
    rw [mapEntries, List.mem_cons, ih]
    constructor
    · rintro (heq | ⟨child, hchild, hu⟩)
      · obtain ⟨rfl, rfl⟩ := Prod.mk.inj heq
        exact ⟨t, List.mem_cons_self, rfl⟩
      · exact ⟨child, List.mem_cons_of_mem _ hchild, hu⟩
    · rintro ⟨child, hchild, rfl⟩
      rcases List.mem_cons.mp hchild with heq | hrest
      · obtain ⟨rfl, rfl⟩ := Prod.mk.inj heq
        exact .inl rfl
      · exact .inr ⟨child, hrest, rfl⟩

/-- The same names lead on once the contents of files are replaced, to the same thing with its new
    contents. -/
theorem leads_mapFiles : (t.mapFiles f base).Leads place v ↔
    ∃ u, t.Leads place u ∧ v = u.mapFiles f (base ++ place) := by
  induction place generalizing t base with
  | nil => simp [leads_nil]
  | cons name place ih =>
    constructor
    · intro h
      obtain ⟨mapped, child, heq, hentry, hrest⟩ := leads_cons.mp h
      cases t with
      | file content => cases heq
      | «sealed» reason => cases heq
      | special reason => cases heq
      | dir entries =>
        obtain rfl := FileTree.dir.inj heq
        obtain ⟨child, hchild, rfl⟩ := mem_mapEntries.mp hentry
        obtain ⟨u, hu, rfl⟩ := ih.mp hrest
        refine ⟨u, .down hchild hu, ?_⟩
        rw [List.append_assoc, List.singleton_append]
    · rintro ⟨u, hu, rfl⟩
      obtain ⟨entries, child, rfl, hentry, hrest⟩ := leads_cons.mp hu
      refine .down (mem_mapEntries.mpr ⟨child, hentry, rfl⟩) (ih.mpr ⟨u, hrest, ?_⟩)
      rw [List.append_assoc, List.singleton_append]

/-! ## Kinds -/

theorem exists_dir (h : t.isDir = true) : ∃ entries, t = dir entries := by
  cases t with
  | dir entries => exact ⟨entries, rfl⟩
  | _ => cases h

theorem isDir_of_isFile (h : t.isFile = true) : t.isDir = false := by
  cases t with
  | dir entries => cases h
  | _ => rfl

/-! ## From a path -/

section

variable {path : String} {base : List String}

theorem joinPath_cons (path name : String) (place : List String) : joinPath path (name :: place) =
    (if path.endsWith "/" then path else path ++ "/") ++ "/".intercalate (name :: place) := rfl

/-- The paths of places get longer with each name. -/
theorem size_joinPath_append (path : String) (as bs : List String) :
    (joinPath path as).utf8ByteSize ≤ (joinPath path (as ++ bs)).utf8ByteSize := by
  cases bs with
  | nil => exact Nat.le_of_eq (by rw [List.append_nil])
  | cons b bs =>
    cases as with
    | nil =>
      rw [List.nil_append, joinPath_cons, String.utf8ByteSize_append]
      split
      · exact Nat.le_add_right _ _
      · rw [String.utf8ByteSize_append, Nat.add_assoc]
        exact Nat.le_add_right _ _
    | cons a as =>
      have hjoin : "/".intercalate (a :: (as ++ b :: bs)) =
          "/".intercalate (a :: as) ++ "/" ++ "/".intercalate (b :: bs) :=
        String.intercalate_append_of_ne_nil (List.cons_ne_nil a as) (List.cons_ne_nil b bs)
      rw [List.cons_append, joinPath_cons, joinPath_cons, hjoin]
      simp only [String.utf8ByteSize_append]
      omega

theorem fits_of_append {as bs : List String} (h : fits (joinPath path (as ++ bs)) = true) :
    fits (joinPath path as) = true := by
  rw [fits, decide_eq_true_eq] at h ⊢
  exact Nat.le_trans (size_joinPath_append path as bs) h

theorem mem_entriesSeenFrom {name : String} : (name, u) ∈ entriesSeenFrom path base entries ↔
    ∃ child, (name, child) ∈ entries ∧ u = child.seenFrom path (base ++ [name]) := by
  induction entries with
  | nil => simp [entriesSeenFrom]
  | cons entry rest ih =>
    obtain ⟨key, t⟩ := entry
    rw [entriesSeenFrom, List.mem_cons, ih]
    constructor
    · rintro (heq | ⟨child, hchild, hu⟩)
      · obtain ⟨rfl, rfl⟩ := Prod.mk.inj heq
        exact ⟨t, List.mem_cons_self, rfl⟩
      · exact ⟨child, List.mem_cons_of_mem _ hchild, hu⟩
    · rintro ⟨child, hchild, rfl⟩
      rcases List.mem_cons.mp hchild with heq | hrest
      · obtain ⟨rfl, rfl⟩ := Prod.mk.inj heq
        exact .inl rfl
      · exact .inr ⟨child, hrest, rfl⟩

/-- A directory is seen only of a directory to which the path is not too long. -/
theorem seenFrom_eq_dir : t.seenFrom path base = dir entries ↔
    ∃ inner, t = dir inner ∧ fits (joinPath path base) = true ∧
      entries = entriesSeenFrom path base inner := by
  cases t with
  | dir inner =>
    rw [seenFrom_dir]
    split
    · rename_i hfits
      constructor
      · rintro ⟨⟩
        exact ⟨inner, rfl, hfits, rfl⟩
      · rintro ⟨_, ⟨⟩, -, rfl⟩
        rfl
    · rename_i hlong
      constructor
      · rintro ⟨⟩
      · rintro ⟨_, -, hfits, -⟩
        exact absurd hfits hlong
  | _ =>
    rw [seenFrom_of_not_dir rfl]
    constructor
    · intro h
      split at h <;> cases h
    · rintro ⟨_, ⟨⟩, -⟩

/-- **What is seen below a path** are the things that names lead to, as long as the path to the
    directory that holds them is not too long. -/
theorem leads_seenFrom : (t.seenFrom path base).Leads place v ↔
    ∃ u, t.Leads place u ∧ (place ≠ [] → fits (joinPath path (base ++ place.dropLast)) = true) ∧
      v = u.seenFrom path (base ++ place) := by
  induction place generalizing t base with
  | nil => simp [leads_nil]
  | cons name place ih =>
    constructor
    · intro h
      obtain ⟨seen, child, heq, hentry, hrest⟩ := leads_cons.mp h
      obtain ⟨inner, rfl, hfits, rfl⟩ := seenFrom_eq_dir.mp heq
      obtain ⟨child, hchild, rfl⟩ := mem_entriesSeenFrom.mp hentry
      obtain ⟨u, hu, hway, rfl⟩ := ih.mp hrest
      refine ⟨u, .down hchild hu, fun _ => ?_, ?_⟩
      · cases place with
        | nil =>
          rw [List.dropLast_singleton, List.append_nil]
          exact hfits
        | cons other place =>
          have hbelow := hway (List.cons_ne_nil other place)
          rwa [List.append_assoc] at hbelow
      · rw [List.append_assoc, List.singleton_append]
    · rintro ⟨u, hu, hway, rfl⟩
      obtain ⟨inner, child, rfl, hentry, hrest⟩ := leads_cons.mp hu
      have hfits := hway (List.cons_ne_nil name place)
      rw [seenFrom_dir, if_pos (fits_of_append hfits)]
      refine .down (mem_entriesSeenFrom.mpr ⟨child, hentry, rfl⟩) (ih.mpr ⟨u, hrest, ?_, ?_⟩)
      · intro hne
        rwa [List.dropLast_cons_of_ne_nil hne, ← List.singleton_append, ← List.append_assoc]
          at hfits
      · rw [List.append_assoc, List.singleton_append]

/-- What is seen as no directory is none, or else the path to it is too long. -/
theorem eq_seenFrom_iff : (u = t.seenFrom path base ∧ u.isDir = false) ↔
    (fits (joinPath path base) = true ∧ t.isDir = false ∧ u = t) ∨
      (fits (joinPath path base) = false ∧ u = .sealed PathFault.tooLong.text) := by
  cases hdir : t.isDir with
  | false =>
    rw [seenFrom_of_not_dir hdir]
    cases fits (joinPath path base) with
    | true =>
      constructor
      · exact fun h => .inl ⟨rfl, rfl, h.1⟩
      · rintro (⟨-, -, rfl⟩ | ⟨⟨⟩, -⟩)
        exact ⟨rfl, hdir⟩
    | false =>
      constructor
      · exact fun h => .inr ⟨rfl, h.1⟩
      · rintro (⟨⟨⟩, -⟩ | ⟨-, rfl⟩)
        exact ⟨rfl, rfl⟩
  | true =>
    cases t with
    | dir entries =>
      rw [seenFrom_dir]
      cases fits (joinPath path base) with
      | true =>
        constructor
        · rintro ⟨rfl, hnot⟩
          cases hnot
        · rintro (⟨-, ⟨⟩, -⟩ | ⟨⟨⟩, -⟩)
      | false =>
        constructor
        · exact fun h => .inr ⟨rfl, h.1⟩
        · rintro (⟨⟨⟩, -⟩ | ⟨-, rfl⟩)
          exact ⟨rfl, rfl⟩
    | _ => cases hdir

theorem map_fst_entriesSeenFrom (base : List String) (entries : List (String × FileTree)) :
    (entriesSeenFrom path base entries).map Prod.fst = entries.map Prod.fst := by
  induction entries with
  | nil => rfl
  | cons entry rest ih => rw [entriesSeenFrom, List.map_cons, List.map_cons, ih]

/-- What is seen of a proper tree is proper. -/
theorem IsProper.seenFrom (h : t.IsProper) : (t.seenFrom path base).IsProper := by
  intro place entries hleads
  obtain ⟨u, hu, -, heq⟩ := leads_seenFrom.mp hleads
  obtain ⟨inner, rfl, -, rfl⟩ := seenFrom_eq_dir.mp heq.symm
  rw [map_fst_entriesSeenFrom]
  exact h place inner hu

end

end FileTree

/-! ## Along a path -/

namespace Place

open FileTree

variable {system : FileTree} {p q : Place}

/-- A place that is reached from the top by names of entries. -/
inductive Reached (system : FileTree) : Place → Prop
  | top : Reached system (.top system)
  | down {entries : List (String × FileTree)} {way : List (String × FileTree)} {name : String}
      {child : FileTree} (hparent : Reached system ⟨.dir entries, way⟩)
      (hentry : (name, child) ∈ entries) : Reached system ⟨child, (name, .dir entries) :: way⟩

theorem names_down (child parent : FileTree) (name : String) (way : List (String × FileTree)) :
    names ⟨child, (name, parent) :: way⟩ = names ⟨parent, way⟩ ++ [name] :=
  List.reverse_cons

theorem steps_concat (p : Place) (names : List String) (name : String) :
    p.steps (names ++ [name]) = (p.steps names).bind (·.step name) := by
  rw [steps, List.foldlM_append]
  simp only [List.foldlM_cons, List.foldlM_nil, bind_pure]
  rfl

namespace Reached

/-- The names on the way lead there. -/
theorem leads (h : p.Reached system) : system.Leads p.names p.here := by
  induction h with
  | top => exact .here system
  | down _ hentry ih =>
    rw [names_down]
    exact ih.snoc hentry

/-- A name that is followed leads back up to a directory, or down to an entry of that name. -/
theorem step_cases {name : String} (h : p.Reached system) (hstep : p.step name = .ok q) :
    q.Reached system ∧ (q.here.isDir = true ∨ q.names = p.names ++ [name]) := by
  obtain ⟨here, way⟩ := p
  cases here with
  | file content => cases hstep
  | «sealed» reason => cases hstep
  | special reason => cases hstep
  | dir entries =>
    rw [Place.step] at hstep
    dsimp only at hstep
    by_cases hup : name = ".."
    · rw [if_pos hup] at hstep
      cases h with
      | top =>
        obtain rfl := Except.ok.inj hstep
        exact ⟨.top, .inl rfl⟩
      | down hparent _ =>
        obtain rfl := Except.ok.inj hstep
        exact ⟨hparent, .inl rfl⟩
    · rw [if_neg hup] at hstep
      split at hstep
      · cases hstep
      · cases hlookup : entries.lookup name with
        | none =>
          rw [hlookup] at hstep
          cases hstep
        | some child =>
          rw [hlookup] at hstep
          obtain rfl := Except.ok.inj hstep
          obtain ⟨before, after, rfl, -⟩ := List.lookup_eq_some_iff.mp hlookup
          exact ⟨.down h List.mem_append_cons_self, .inr (names_down _ _ _ _)⟩

/-- **What names are followed to is reached.** -/
theorem steps {names : List String} (h : p.Reached system) (hsteps : p.steps names = .ok q) :
    q.Reached system := by
  induction names generalizing p with
  | nil =>
    obtain rfl := Except.ok.inj hsteps
    exact h
  | cons name names ih =>
    rw [Place.steps, List.foldlM_cons] at hsteps
    cases hstep : p.step name with
    | error fault =>
      rw [hstep] at hsteps
      cases hsteps
    | ok r =>
      rw [hstep] at hsteps
      exact ih (h.step_cases hstep).1 hsteps

/-- What is no directory has the name that was followed last. -/
theorem getLast?_names {names : List String} {name : String} (h : p.Reached system)
    (hsteps : p.steps (names ++ [name]) = .ok q) (hq : q.here.isDir = false) :
    q.names.getLast? = some name := by
  rw [steps_concat] at hsteps
  cases hfront : p.steps names with
  | error fault =>
    rw [hfront] at hsteps
    cases hsteps
  | ok r =>
    rw [hfront] at hsteps
    rcases ((h.steps hfront).step_cases hsteps).2 with hdir | hnames
    · rw [hdir] at hq
      cases hq
    · rw [hnames, List.getLast?_concat]

end Reached

end Place

namespace FileTree

open Place

variable {system : FileTree} {home : List String} {path : String} {p : Place}

/-- A path leads off from a place that is reached, along its names, and to a directory if it has
    to. -/
theorem exists_of_find (h : system.find home path = .ok p) : ∃ start : Place,
    start.Reached system ∧ start.steps (splitPath path).1 = .ok p ∧
      ((splitPath path).2 = true → p.here.isDir = true) := by
  have harrive : ∀ start : Place, start.arrive (splitPath path) = .ok p →
      start.steps (splitPath path).1 = .ok p ∧
        ((splitPath path).2 = true → p.here.isDir = true) := by
    intro start hstart
    rw [arrive] at hstart
    cases hsteps : start.steps (splitPath path).1 with
    | error fault =>
      rw [hsteps] at hstart
      cases hstart
    | ok found =>
      rw [hsteps, Except.bind] at hstart
      split at hstart
      · cases hstart
      · rename_i hnot
        obtain rfl := Except.ok.inj hstart
        refine ⟨rfl, fun hdir => ?_⟩
        simpa [hdir] using hnot
  rw [find_eq] at h
  split at h
  · cases h
  split at h
  · cases h
  split at h
  · exact ⟨_, .top, harrive _ h⟩
  · cases hhome : (Place.top system).steps home with
    | error fault =>
      rw [hhome] at h
      cases h
    | ok start =>
      rw [hhome] at h
      exact ⟨start, Reached.top.steps hhome, harrive start h⟩

/-- A path that leads to a place is not too long. -/
theorem fits_of_find (h : system.find home path = .ok p) : fits path = true := by
  rw [find_eq] at h
  split at h
  · cases h
  split at h
  · cases h
  · rename_i hshort
    exact decide_eq_true (Nat.le_of_not_lt hshort)

/-- **What a path leads to is reached.** -/
theorem reached_of_find (h : system.find home path = .ok p) : p.Reached system := by
  obtain ⟨start, hstart, hsteps, -⟩ := exists_of_find h
  exact hstart.steps hsteps

/-- A path that need not lead to a directory has names. -/
theorem splitPath_ne_nil (h : (splitPath path).2 = false) : (splitPath path).1 ≠ [] := by
  rw [splitPath] at h ⊢
  dsimp only at h ⊢
  cases hlast : ((path.toList.splitOn '/').map String.ofList).getLast? with
  | none =>
    rw [hlast] at h
    exact Bool.noConfusion h
  | some last =>
    rw [hlast, Option.getD_some, Bool.or_eq_false_iff, Bool.or_eq_false_iff] at h
    refine List.ne_nil_of_mem (List.mem_filter.mpr ⟨List.mem_of_getLast? hlast, ?_⟩)
    simp [bne, h.1.1, h.1.2]

/-- A file that a path leads to has the last name of the path. -/
theorem getLast?_names_of_find (h : system.find home path = .ok p) (hfile : p.here.isDir = false) :
    p.names.getLast? = (splitPath path).1.getLast? := by
  obtain ⟨start, hstart, hsteps, hdir⟩ := exists_of_find h
  have hnames : (splitPath path).1 ≠ [] := by
    apply splitPath_ne_nil
    cases hflag : (splitPath path).2 with
    | false => rfl
    | true =>
      rw [hdir hflag] at hfile
      cases hfile
  obtain ⟨front, name, hconcat⟩ := (List.eq_nil_or_concat' _).resolve_left hnames
  rw [hconcat] at hsteps ⊢
  rw [hstart.getLast?_names hsteps hfile, List.getLast?_concat]

end FileTree

end CurlyScript
