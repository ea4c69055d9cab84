import Mathlib.Data.List.Lex
import Mathlib.Data.String.Basic
import CurlyScript.Proofs.Command.Converge
import CurlyScript.Proofs.Command.Places
import CurlyScript.Proofs.Source.Position

/-
  Which scripts are found, and in which order.

  The search goes through the entries of directories, in whatever order they are listed.  What it
  gives is described without it: a script is a file that names lead to (`FileTree.Leads`), with the
  extension of scripts, and none of the directories on the way is passed over
  (`FileTree.mem_scripts`).  If no directory has two entries of one name, no place is found twice
  (`FileTree.nodup_scripts`), and so the sorted places go strictly up, name by name.
-/

namespace CurlyScript

/-- A name has an extension if that follows its last dot, and something stands before the dot.  Two
    dots are the name of no file. -/
def HasExtension (name extension : String) : Prop :=
  name ≠ ".." ∧ '.' ∉ extension.toList ∧ ∃ stem, stem ≠ "" ∧ name = stem ++ "." ++ extension

/-- A name of a directory that nobody looks into: a hidden one, or that of a directory for what was
    built or brought in. -/
def IsPassedOver (name : String) : Prop :=
  (∃ rest, name = "." ++ rest) ∨ name = "target" ∨ name = "node_modules"

namespace FileTree

/-! ## Names -/

theorem isScript_iff {name : String} : isScript name = true ↔ HasExtension name "js" := by
  have hends : name.endsWith ".js" = true ↔ ".js".toList <:+ name.toList := by
    rw [← String.endsWith_toSlice, String.Slice.endsWith_string_iff, String.copy_toSlice]
  rw [isScript, Bool.and_eq_true, hends, decide_eq_true_iff, ← String.length_toList, HasExtension]
  constructor
  · rintro ⟨⟨stem, hstem⟩, hlength⟩
    have hname : name = String.ofList stem ++ "." ++ "js" := by
      rw [← String.toList_inj, ← hstem]
      simp
    refine ⟨?_, by decide, String.ofList stem, fun hempty => ?_, hname⟩
    · rintro rfl
      exact absurd hlength (by decide)
    · have hnone : stem = [] := String.ofList_inj.mp hempty
      rw [← hstem, hnone] at hlength
      exact absurd hlength (by decide)
  · rintro ⟨-, -, stem, hstem, rfl⟩
    refine ⟨⟨stem.toList, by simp⟩, ?_⟩
    have hsome : 0 < stem.toList.length :=
      List.length_pos_iff.mpr fun hnil => hstem (String.toList_eq_nil_iff.mp hnil)
    simp only [String.toList_append, List.length_append]
    exact Nat.add_lt_add_right (Nat.lt_add_of_pos_left hsome) 2

theorem isSkipped_iff {name : String} : isSkipped name = true ↔ IsPassedOver name := by
  rw [isSkipped, Bool.or_eq_true, Bool.or_eq_true, String.startsWith_string_iff, beq_iff_eq,
    beq_iff_eq, or_assoc, IsPassedOver]
  refine or_congr_left ⟨?_, ?_⟩
  · rintro ⟨rest, hrest⟩
    refine ⟨String.ofList rest, ?_⟩
    rw [← String.toList_inj, ← hrest]
    simp
  · rintro ⟨rest, rfl⟩
    exact ⟨rest.toList, by simp⟩

/-! ## What is found -/

/-- A file is found at a place below a tree that is called `name` if it is a script and no directory
    on the way is passed over. -/
structure Finds (t : FileTree) (name : String) (place : List String) (script : FileTree) :
    Prop where
  leads : t.Leads place script
  isFile : script.isDir = false
  isScript : isScript (place.getLast?.getD name) = true
  isOpen : ∀ d ∈ place.dropLast, isSkipped d = false

variable {t script : FileTree} {name : String} {place : List String}
  {entries : List (String × FileTree)}

/-- Of a file only the file itself can be found. -/
theorem finds_of_not_dir (h : t.isDir = false) :
    t.Finds name place script ↔ place = [] ∧ script = t ∧ isScript name = true := by
  constructor
  · rintro ⟨hleads, -, hscript, -⟩
    cases place with
    | nil => exact ⟨rfl, leads_nil.mp hleads, hscript⟩
    | cons d place =>
      obtain ⟨entries, -, rfl, -⟩ := leads_cons.mp hleads
      cases h
  · rintro ⟨rfl, rfl, hscript⟩
    exact ⟨.here _, h, hscript, fun d hd => absurd hd List.not_mem_nil⟩

theorem mem_scripts_of_not_dir (h : t.isDir = false) :
    (place, script) ∈ t.scripts name ↔ t.Finds name place script := by
  rw [scripts_of_not_dir h, finds_of_not_dir h]
  cases FileTree.isScript name <;> simp

/-- What is found in a directory is found in an entry of it that is looked into. -/
theorem finds_dir : (dir entries).Finds name place script ↔
    ∃ d child rest, place = d :: rest ∧ (d, child) ∈ entries ∧
      (child.isDir && isSkipped d) = false ∧ child.Finds d rest script := by
  constructor
  · rintro ⟨hleads, hfile, hscript, hopen⟩
    cases place with
    | nil =>
      rw [leads_nil.mp hleads] at hfile
      cases hfile
    | cons d rest =>
      obtain ⟨_, child, hsame, hentry, hrest⟩ := leads_cons.mp hleads
      obtain rfl := FileTree.dir.inj hsame
      rw [List.getLast?_cons, Option.getD_some] at hscript
      refine ⟨d, child, rest, rfl, hentry, ?_, hrest, hfile, hscript, ?_⟩
      · cases rest with
        | nil => rw [← leads_nil.mp hrest, hfile, Bool.false_and]
        | cons e rest => rw [hopen d List.mem_cons_self, Bool.and_false]
      · cases rest with
        | nil => exact fun e he => absurd he List.not_mem_nil
        | cons e rest => exact fun f hf => hopen f (List.mem_cons_of_mem d hf)
  · rintro ⟨d, child, rest, rfl, hentry, hlooked, hrest, hfile, hscript, hopen⟩
    refine ⟨.down hentry hrest, hfile, ?_, ?_⟩
    · rw [List.getLast?_cons]
      exact hscript
    · cases rest with
      | nil => exact fun e he => absurd he List.not_mem_nil
      | cons e rest =>
        -- the entry has an entry, so it is a directory, and it was looked into
        obtain ⟨_, _, rfl, -⟩ := leads_cons.mp hrest
        intro f hf
        rcases List.mem_cons.mp hf with rfl | hf
        · exact hlooked
        · exact hopen f hf

mutual

/-- **The search finds what there is to be found.** -/
theorem mem_scripts (name : String) : ∀ (t : FileTree) (place : List String) (script : FileTree),
    (place, script) ∈ t.scripts name ↔ t.Finds name place script
  | .file content, place, script => mem_scripts_of_not_dir rfl
  | .sealed reason, place, script => mem_scripts_of_not_dir rfl
  | .special reason, place, script => mem_scripts_of_not_dir rfl
  | .dir entries, place, script => by
    rw [scripts, mem_entriesScripts entries place script, finds_dir]

theorem mem_entriesScripts : ∀ (entries : List (String × FileTree)) (place : List String)
    (script : FileTree), (place, script) ∈ entriesScripts entries ↔
      ∃ d child rest, place = d :: rest ∧ (d, child) ∈ entries ∧
        (child.isDir && isSkipped d) = false ∧ child.Finds d rest script
  | [], place, script => by simp [entriesScripts]
  | (d, child) :: entries, place, script => by
    have hchild : (place, script) ∈ (if child.isDir && isSkipped d then []
        else (child.scripts d).map fun s => (d :: s.1, s.2)) ↔
        ∃ rest, place = d :: rest ∧ (child.isDir && isSkipped d) = false ∧
          child.Finds d rest script := by
      split
      · rename_i hskipped
        simp [hskipped]
      · rename_i hlooked
        rw [Bool.not_eq_true] at hlooked
        rw [List.mem_map]
        constructor
        · rintro ⟨⟨rest, found⟩, hfound, heq⟩
          obtain ⟨rfl, rfl⟩ := Prod.mk.inj heq
          exact ⟨rest, rfl, hlooked, (mem_scripts d child rest found).mp hfound⟩
        · rintro ⟨rest, rfl, -, hfound⟩
          exact ⟨_, (mem_scripts d child rest script).mpr hfound, rfl⟩
    rw [entriesScripts, List.mem_append, mem_entriesScripts entries place script, hchild]
    constructor
    · rintro (⟨rest, hplace, hfound⟩ | ⟨e, other, rest, hplace, hentry, hfound⟩)
      · exact ⟨d, child, rest, hplace, List.mem_cons_self, hfound⟩
      · exact ⟨e, other, rest, hplace, List.mem_cons_of_mem _ hentry, hfound⟩
    · rintro ⟨e, other, rest, hplace, hentry, hfound⟩
      rcases List.mem_cons.mp hentry with heq | hentry
      · obtain ⟨rfl, rfl⟩ := Prod.mk.inj heq
        exact .inl ⟨rest, hplace, hfound⟩
      · exact .inr ⟨e, other, rest, hplace, hentry, hfound⟩

end

/-! ## Each place once -/

theorem nodup_scripts_of_not_dir (h : t.isDir = false) (name : String) :
    ((t.scripts name).map Prod.fst).Nodup := by
  rw [scripts_of_not_dir h]
  split <;> simp

mutual

/-- **No place is found twice** if no directory has two entries of one name. -/
theorem nodup_scripts (name : String) :
    ∀ t : FileTree, t.IsProper → ((t.scripts name).map Prod.fst).Nodup
  | .file content, _ => nodup_scripts_of_not_dir rfl name
  | .sealed reason, _ => nodup_scripts_of_not_dir rfl name
  | .special reason, _ => nodup_scripts_of_not_dir rfl name
  | .dir entries, h => by
    obtain ⟨hnodup, hentries⟩ := isProper_dir.mp h
    rw [scripts]
    exact nodup_entriesScripts entries hnodup hentries

theorem nodup_entriesScripts : ∀ entries : List (String × FileTree),
    (entries.map Prod.fst).Nodup → (∀ e ∈ entries, e.2.IsProper) →
      ((entriesScripts entries).map Prod.fst).Nodup
  | [], _, _ => List.nodup_nil
  | (d, child) :: entries, hnames, hproper => by
    rw [List.map_cons, List.nodup_cons] at hnames
    have hchild := nodup_scripts d child (hproper _ List.mem_cons_self)
    have hrest := nodup_entriesScripts entries hnames.2 fun e he =>
      hproper e (List.mem_cons_of_mem _ he)
    rw [entriesScripts, List.map_append, List.nodup_append]
    refine ⟨?_, hrest, ?_⟩
    · split
      · exact List.nodup_nil
      · rw [List.map_map]
        have hbelow : (Prod.fst ∘ fun s : List String × FileTree => (d :: s.1, s.2)) =
            (d :: ·) ∘ Prod.fst := rfl
        rw [hbelow, ← List.map_map]
        exact hchild.map (List.cons_injective)
    · -- what is found in another entry is found below another name
      rintro a ha b hb rfl
      obtain ⟨⟨place, script⟩, hscript, rfl⟩ := List.mem_map.mp hb
      obtain ⟨e, other, rest, rfl, hentry, -⟩ :=
        (mem_entriesScripts entries place script).mp hscript
      split at ha
      · exact absurd ha List.not_mem_nil
      · obtain ⟨found, hfound, heq⟩ := List.mem_map.mp ha
        obtain ⟨s, -, rfl⟩ := List.mem_map.mp hfound
        obtain ⟨rfl, -⟩ := List.cons.inj heq
        exact hnames.1 (List.mem_map.mpr ⟨_, hentry, rfl⟩)

end

/-! ## In order -/

/-- Places are sorted name by name. -/
theorem placeLe_iff {as bs : List String} : placeLe as bs = true ↔ ¬ bs < as := by
  induction as generalizing bs with
  | nil => simp [placeLe]
  | cons a as ih =>
    cases bs with
    | nil => simp [placeLe]
    | cons b bs =>
      rw [placeLe, List.cons_lt_cons_iff]
      split
      · rename_i hsame
        simp [hsame, ih]
      · rename_i hdiffer
        rw [decide_eq_true_iff, ← not_lt]
        simp [Ne.symm hdiffer]

/-- Name by name the directory comes first, though its text is the greater one. -/
example : placeLe ["a", "z.js"] ["a-b.js"] = true ∧ "a-b.js" < "a/z.js" := by decide +kernel

/-- Scripts that are sorted by their places have places that go strictly up. -/
theorem pairwise_mergeSort {scripts : List (List String × FileTree)}
    (h : (scripts.map Prod.fst).Nodup) :
    (scripts.mergeSort fun a b => placeLe a.1 b.1).Pairwise fun a b => a.1 < b.1 := by
  have hsorted : (scripts.mergeSort fun a b => placeLe a.1 b.1).Pairwise
      fun a b => placeLe a.1 b.1 = true := by
    refine List.pairwise_mergeSort (fun a b c hab hbc => ?_) (fun a b => ?_) _
    · rw [placeLe_iff] at hab hbc ⊢
      exact not_lt.mpr ((not_lt.mp hab).trans (not_lt.mp hbc))
    · rw [Bool.or_eq_true, placeLe_iff, placeLe_iff]
      exact (le_total a.1 b.1).imp not_lt.mpr not_lt.mpr
  have hnodup : ((scripts.mergeSort fun a b => placeLe a.1 b.1).map Prod.fst).Nodup :=
    ((List.mergeSort_perm _ _).map Prod.fst).nodup_iff.mpr h
  refine (hsorted.and (List.pairwise_map.mp hnodup)).imp fun {a b} hab => ?_
  exact lt_of_le_of_ne (not_lt.mp (placeLe_iff.mp hab.1)) hab.2

/-- The places of the scripts that are found go strictly up. -/
theorem pairwise_scriptsAt (path : String) (h : t.IsProper) :
    (t.scriptsAt path).Pairwise fun a b => a.1 < b.1 := by
  rw [scriptsAt]
  split
  · exact pairwise_mergeSort (nodup_scripts _ _ h.seenFrom)
  · exact .nil

/-! ## At a path -/

variable {system : FileTree} {home : List String} {path : String} {p : Place}

/-- In a directory or at a file that is found which the search finds in what is seen from the
    path.  The name that the path leads to is looked at for a file alone. -/
theorem mem_scriptsAt (h : (t.isFile || t.isDir) = true) : (place, script) ∈ t.scriptsAt path ↔
    (t.seenFrom path []).Finds ((splitPath path).1.getLast?.getD "") place script := by
  rw [scriptsAt, if_pos h]
  exact List.mem_mergeSort.trans (mem_scripts _ _ place script)

/-- What is found is seen of something that names lead to. -/
theorem exists_of_mem_scriptsAt (h : (place, script) ∈ t.scriptsAt path) :
    ∃ u, t.Leads place u ∧ script = u.seenFrom path place := by
  rw [scriptsAt] at h
  split at h
  · have hfinds := (mem_scripts _ _ place script).mp (List.mem_mergeSort.mp h)
    obtain ⟨u, hu, -, hseen⟩ := leads_seenFrom.mp hfinds.leads
    exact ⟨u, hu, hseen⟩
  · cases h

/-- No text is the name of a script that is not there. -/
theorem isScript_getD {name? : Option String} :
    isScript (name?.getD "") = true ↔ ∃ name ∈ name?, HasExtension name "js" := by
  cases name? with
  | none => exact ⟨fun h => absurd h (by decide), fun ⟨_, h, _⟩ => absurd h (by simp)⟩
  | some name => simp [isScript_iff]

/-- What is found in a directory. -/
theorem mem_scriptsIn_dir (hfind : system.find home path = .ok p) (hdir : p.here.isDir = true) :
    (place, script) ∈ system.scriptsIn home path ↔
      ∃ t, p.here.Leads place t ∧ fits (joinPath path place.dropLast) = true ∧
        (script = t.seenFrom path place ∧ script.isDir = false) ∧
        (∃ name ∈ place.getLast?, HasExtension name "js") ∧
        ∀ d ∈ place.dropLast, ¬ IsPassedOver d := by
  have hlooked : (p.here.isFile || p.here.isDir) = true := by rw [hdir, Bool.or_true]
  have hopen : (∀ d ∈ place.dropLast, isSkipped d = false) ↔
      ∀ d ∈ place.dropLast, ¬ IsPassedOver d := by
    simp [← isSkipped_iff]
  rw [scriptsIn_of_find hfind, mem_scriptsAt hlooked, ← hopen]
  constructor
  · rintro ⟨hleads, hfile, hscript, hopen⟩
    obtain ⟨t, ht, hfits, hseen⟩ := leads_seenFrom.mp hleads
    cases place with
    | nil =>
      -- the directory is no file, so there is a last name below it
      obtain ⟨entries, hentries⟩ := exists_dir hdir
      have hroot : fits (joinPath path []) = true := fits_of_find hfind
      rw [leads_nil.mp hleads, hentries, seenFrom_dir, if_pos hroot] at hfile
      cases hfile
    | cons d rest =>
      rw [List.getLast?_cons, Option.getD_some] at hscript
      refine ⟨t, ht, hfits (List.cons_ne_nil d rest), ⟨hseen, hfile⟩, ?_, hopen⟩
      exact ⟨_, List.getLast?_cons, isScript_iff.mp hscript⟩
  · rintro ⟨t, ht, hfits, ⟨hseen, hfile⟩, ⟨name, hname, hscript⟩, hopen⟩
    refine ⟨leads_seenFrom.mpr ⟨t, ht, fun _ => hfits, hseen⟩, hfile, ?_, hopen⟩
    rw [Option.mem_def.mp hname, Option.getD_some]
    exact isScript_iff.mpr hscript

/-- What is found at a file: the file itself if it is a script. -/
theorem scriptsIn_file (hfind : system.find home path = .ok p) (hfile : p.here.isFile = true) :
    system.scriptsIn home path =
      if isScript (p.names.getLast?.getD "") then [([], p.here)] else [] := by
  have hdir : p.here.isDir = false := isDir_of_isFile hfile
  have hseen : p.here.seenFrom path [] = p.here :=
    (seenFrom_of_not_dir hdir []).trans (if_pos (fits_of_find hfind))
  rw [scriptsIn_of_find hfind, scriptsAt, hfile, hseen, Bool.true_or, if_pos rfl,
    getLast?_names_of_find hfind hdir]
  dsimp only
  rw [scripts_of_not_dir hdir]
  split
  · exact List.mergeSort_singleton _
  · exact List.mergeSort_nil

/-- Nothing is found at what is neither a file nor a directory. -/
theorem scriptsIn_special (hfind : system.find home path = .ok p) (hfile : p.here.isFile = false)
    (hdir : p.here.isDir = false) : system.scriptsIn home path = [] := by
  rw [scriptsIn_of_find hfind, scriptsAt, hfile, hdir]
  rfl

end FileTree

open FileTree

/-- **The search for scripts is exact.**  In a directory it finds what is no directory, is called
    something with the extension `js`, and has no directory on the way to it that is passed over,
    each once and in the order of their places, name by name.  It looks into directories whatever
    extension they have, and never gives one, as far as their paths can be followed: an entry whose
    path is too long is taken for no directory and cannot be read.  At a file it finds that file if
    it is a script, and where there is neither a file nor a directory it finds nothing. -/
theorem scripts_exact (system : FileTree) (home : List String) (path : String)
    (hsystem : system.IsProper) :
    (∀ p, system.find home path = .ok p → p.here.isDir = true →
      (∀ place script, (place, script) ∈ system.scriptsIn home path ↔
        ∃ t, p.here.Leads place t ∧ fits (joinPath path place.dropLast) = true ∧
          (fits (joinPath path place) = true ∧ t.isDir = false ∧ script = t ∨
            fits (joinPath path place) = false ∧ script = .sealed PathFault.tooLong.text) ∧
          (∃ name ∈ place.getLast?, HasExtension name "js") ∧
          ∀ d ∈ place.dropLast, ¬ IsPassedOver d) ∧
      (system.scriptsIn home path).Pairwise fun a b => a.1 < b.1) ∧
    (∀ p, system.find home path = .ok p → p.here.isFile = true →
      ((∃ name ∈ p.names.getLast?, HasExtension name "js") →
        system.scriptsIn home path = [([], p.here)]) ∧
      ((¬ ∃ name ∈ p.names.getLast?, HasExtension name "js") →
        system.scriptsIn home path = [])) ∧
    (∀ p, system.find home path = .ok p → p.here.isFile = false → p.here.isDir = false →
      system.scriptsIn home path = []) ∧
    ∀ fault, system.find home path = .error fault → system.scriptsIn home path = [] := by
  refine ⟨fun p hfind hdir => ⟨fun place script => ?_, ?_⟩, fun p hfind hfile => ?_,
    fun p hfind hfile hdir => scriptsIn_special hfind hfile hdir, fun fault hfind => ?_⟩
  · rw [mem_scriptsIn_dir hfind hdir]
    simp only [eq_seenFrom_iff]
  · rw [scriptsIn_of_find hfind]
    exact pairwise_scriptsAt path (hsystem.of_leads (reached_of_find hfind).leads)
  · rw [scriptsIn_file hfind hfile, ← isScript_getD]
    exact ⟨fun h => if_pos h, fun h => if_neg h⟩
  · rw [scriptsIn, hfind]
    rfl

/-- A tree whose places are in another order than their texts, with a directory that is called like
    a script, and one that is passed over. -/
def thicket : FileTree :=
  .dir [("a-b.js", .file "b".toUTF8), ("x.js", .dir [("c.js", .file "c".toUTF8)]),
    ("a", .dir [("z.js", .file "z".toUTF8), ("z.txt", .file "t".toUTF8)]),
    ("target", .dir [("d.js", .file "d".toUTF8)])]

theorem isProper_thicket : thicket.IsProper := by
  simp [thicket]

theorem find_thicket : thicket.find [] "." = .ok (.top thicket) := by
  with_unfolding_all exact rfl

theorem scripts_exact_thicket :
    (thicket.IsProper ∧ thicket.find [] "." = .ok (.top thicket) ∧ thicket.isDir = true) ∧
    (["x.js", "c.js"], .file "c".toUTF8) ∈ thicket.scriptsIn [] "." ∧
    (["target", "d.js"], .file "d".toUTF8) ∉ thicket.scriptsIn [] "." ∧
    (thicket.scriptsIn [] ".").Pairwise fun a b => a.1 < b.1 := by
  have hdir : thicket.isDir = true := rfl
  obtain ⟨hfound, hsorted⟩ :=
    (scripts_exact thicket [] "." isProper_thicket).1 _ find_thicket hdir
  have hbelow : (dir [("c.js", .file "c".toUTF8)]).Leads ["c.js"] (.file "c".toUTF8) :=
    .down List.mem_cons_self (.here _)
  have hleads : thicket.Leads ["x.js", "c.js"] (.file "c".toUTF8) :=
    .down (List.mem_cons_of_mem _ List.mem_cons_self) hbelow
  have hscript : HasExtension "c.js" "js" := isScript_iff.mp (by decide +kernel)
  have hopen : ¬ IsPassedOver "x.js" := isSkipped_iff.not.mp (by decide +kernel)
  have hclosed : IsPassedOver "target" := .inr (.inl rfl)
  refine ⟨⟨isProper_thicket, find_thicket, hdir⟩, (hfound _ _).mpr ⟨_, hleads, ?_, ?_, ?_, ?_⟩,
    fun hmem => ?_, hsorted⟩
  · decide +kernel
  · exact .inl ⟨by decide +kernel, rfl, rfl⟩
  · exact ⟨"c.js", rfl, hscript⟩
  · exact List.forall_mem_singleton.mpr hopen
  · obtain ⟨-, -, -, -, -, hway⟩ := (hfound _ _).mp hmem
    exact hway "target" List.mem_cons_self hclosed

/-- A path of `n` dots that stay, and one dot more. -/
def dotted (n : Nat) : String := String.ofList ((List.replicate n ['.', '/']).flatten ++ ['.'])

theorem size_dotted (n : Nat) : (dotted n).utf8ByteSize = 2 * n + 1 := by
  have hdots : byteLength (List.replicate n ['.', '/']).flatten = 2 * n := by
    induction n with
    | zero => rfl
    | succ n ih =>
      rw [List.replicate_succ, List.flatten_cons, byteLength_append, ih, Nat.mul_succ,
        Nat.add_comm]
      rfl
  rw [← byteLength_toList, dotted, String.toList_ofList, byteLength_append, hdots]
  rfl

/-- A socket that is called like a script. -/
def socket : FileTree := .special "No such device or address (os error 6)"

/-- Not everything that is found is a file: a socket is found that is called like a script, and at
    the end of a long path so is a directory. -/
theorem scripts_beside_files :
    (["d", "s.js"], socket) ∈ (dir [("d", dir [("s.js", socket)])]).scriptsIn [] "." ∧
    socket.isFile = false ∧
    (["d.js"], .sealed PathFault.tooLong.text) ∈
      (dir [("d.js", dir [])]).scriptsAt (dotted 2046) ∧
    (dir [("d.js", dir [])]).Leads ["d.js"] (dir []) ∧ fits (dotted 2046) = true := by
  have hfits : fits (dotted 2046) = true := by
    rw [fits, size_dotted]
    rfl
  have hlong : fits (joinPath (dotted 2046) ["d.js"]) = false := by
    have hname : "/".intercalate ["d.js"] = "d.js" := String.intercalate_singleton
    have hsize : "d.js".utf8ByteSize = 4 := rfl
    rw [fits, decide_eq_false_iff_not, joinPath_cons, hname, String.utf8ByteSize_append, hsize]
    split
    · rw [size_dotted]
      decide
    · rw [String.utf8ByteSize_append, size_dotted]
      decide
  have hleads : (dir [("d.js", dir [])]).Leads ["d.js"] (dir []) :=
    .down List.mem_cons_self (.here _)
  refine ⟨?_, rfl, ?_, hleads, hfits⟩
  · have hscripts : (dir [("d", dir [("s.js", socket)])]).scriptsIn [] "." =
        [(["d", "s.js"], socket)] := by
      with_unfolding_all exact rfl
    rw [hscripts]
    exact List.mem_cons_self
  · refine (mem_scriptsAt rfl).mpr ⟨leads_seenFrom.mpr ⟨_, hleads, fun _ => hfits, ?_⟩, rfl, ?_, ?_⟩
    · rw [seenFrom_dir, List.nil_append, if_neg (Bool.eq_false_iff.mp hlong)]
    · decide +kernel
    · exact fun d hd => absurd hd List.not_mem_nil

end CurlyScript
