import CurlyScript.Proofs.Command.Format
import CurlyScript.Proofs.Command.Overwrite
import CurlyScript.Proofs.Layout.Reformat

/-
  Formatting converges.

  A script is SETTLED if its text is what it is laid out as.  A text that was laid out is settled
  (`FileTree.isSettled_toUTF8`), and the scripts that a run finds once the new texts are saved are
  the scripts that it found before, either with a new text or as they were
  (`FileTree.scriptsIn_saved`).  So after a run without faults all scripts are settled, and a run
  over settled scripts succeeds and writes nothing.
-/

namespace CurlyScript

open Command Program Rewriting

/-- A text that was laid out is laid out as itself. -/
theorem reformat_eq_self {style : Style} {source text : String}
    (h : reformat style source = .ok text) : reformat style text = .ok text := by
  rw [reformat] at h
  cases hread : ofSource source true with
  | error e =>
    rw [hread] at h
    cases h
  | ok p =>
    rw [hread] at h
    obtain rfl : p.format style = text := Except.ok.inj h
    obtain ⟨q, hq, hrestores⟩ := (printable_of_ofSource hread).restores style
    rw [keeps_named.format] at hq
    rw [reformat, hq]
    exact congrArg Except.ok ((hrestores.format style).trans (keeps_named.format style p))

/-! ## Saving -/

/-- The content of the file at `place` once texts are written to their places. -/
def overwrite (writes : List (List String × String)) (place : List String) (content : ByteArray) :
    ByteArray :=
  match writes.find? (·.1 == place) with
  | some w => w.2.toUTF8
  | none => content

/-- A file holds what was written to its place, or what it held before. -/
theorem overwrite_cases (writes : List (List String × String)) (place : List String)
    (content : ByteArray) :
    (∃ w ∈ writes, w.1 = place ∧ overwrite writes place content = w.2.toUTF8) ∨
    ((∀ w ∈ writes, w.1 ≠ place) ∧ overwrite writes place content = content) := by
  rw [overwrite]
  cases hfind : writes.find? (·.1 == place) with
  | some w =>
    have hplace := List.find?_some hfind
    exact .inl ⟨w, List.mem_of_find?_eq_some hfind, eq_of_beq hplace, rfl⟩
  | none =>
    exact .inr ⟨fun w hw heq => List.find?_eq_none.mp hfind w hw (beq_iff_eq.mpr heq), rfl⟩

/-- The first text for a place is the one that is written to it. -/
theorem overwrite_cons (w : List String × String) (ws : List (List String × String))
    (content : ByteArray) : overwrite (w :: ws) w.1 content = w.2.toUTF8 := by
  rw [overwrite, List.find?_cons, beq_self_eq_true]

/-- What is written below a place is written to the places in it. -/
theorem overwrite_append (writes : List (List String × String)) (names place : List String)
    (content : ByteArray) :
    overwrite (writes.map fun w => (names ++ w.1, w.2)) (names ++ place) content =
      overwrite writes place content := by
  have hsame : ((fun w : List String × String => w.1 == names ++ place) ∘
      fun w : List String × String => (names ++ w.1, w.2)) = (·.1 == place) := by
    funext w
    simp
  rw [overwrite, overwrite, List.find?_map, hsame]
  cases writes.find? (·.1 == place) <;> rfl

namespace FileTree

/-- Formatting at a path of a file system, `home` being the way to the directory that the path
    leads off from, and what there is to tell shown on a console. -/
def formatAt (system : FileTree) (console : Console) (home : List String) (path : String)
    (check diff : Bool) (style : Style) : Outcome :=
  (Invocation.format path check diff style).runOn console
    ((system.find home path).map Place.here)

/-- The file system once the new texts of an outcome are written to the files below the place that
    the path leads to. -/
def saved (system : FileTree) (home : List String) (path : String) (o : Outcome) : FileTree :=
  match system.find home path with
  | .ok p => system.mapFiles (overwrite (o.writes.map fun w => (p.names ++ w.1, w.2))) []
  | .error _ => system

/-- The scripts that formatting at a path goes through. -/
def scriptsIn (system : FileTree) (home : List String) (path : String) :
    List (List String × FileTree) :=
  scriptsOf path ((system.find home path).map Place.here)

/-- A script with the text that was written to its place, if there is one. -/
def rewritten (writes : List (List String × String)) (s : List String × FileTree) :
    List String × FileTree :=
  (s.1, match s.2 with
    | .file content => .file (overwrite writes s.1 content)
    | other => other)

variable {system : FileTree} {home : List String} {path : String} {o : Outcome}

/-- If nothing is written, the file system stays as it is. -/
theorem saved_eq_self (h : o.writes = []) : system.saved home path o = system := by
  rw [saved]
  split
  · rw [h]
    exact mapFiles_eq_self (fun _ _ => rfl) [] system
  · rfl

theorem scriptsIn_of_find {p : Place} (h : system.find home path = .ok p) :
    system.scriptsIn home path = p.here.scriptsAt path := by
  rw [scriptsIn, h]
  rfl

/-- Scripts that stand in order below a directory are found as they stand. -/
theorem scriptsIn_of_pairwise {p : Place} {scripts : List (List String × FileTree)}
    (hfind : system.find home path = .ok p) (hdir : p.here.isDir = true)
    (hscripts : (p.here.seenFrom path []).scripts ((splitPath path).1.getLast?.getD "") = scripts)
    (hsorted : scripts.Pairwise fun a b => placeLe a.1 b.1 = true) :
    system.scriptsIn home path = scripts := by
  subst hscripts
  rw [scriptsIn_of_find hfind, scriptsAt, hdir, Bool.or_true, if_pos rfl]
  exact List.mergeSort_of_pairwise hsorted

/-- **Saving gives the scripts their new texts**, and no run finds any other scripts after it. -/
theorem scriptsIn_saved : (system.saved home path o).scriptsIn home path =
    (system.scriptsIn home path).map (rewritten o.writes) := by
  rw [saved]
  cases hfind : system.find home path with
  | error fault =>
    dsimp only
    rw [scriptsIn, hfind]
    rfl
  | ok p =>
    dsimp only
    rw [scriptsIn, scriptsIn, find_mapFiles, hfind]
    show (p.here.mapFiles _ p.names).scriptsAt path = (p.here.scriptsAt path).map _
    rw [scriptsAt_mapFiles]
    refine List.map_congr_left fun s hs => ?_
    obtain ⟨place, script⟩ := s
    have hdir := isDir_of_mem_scriptsAt hs
    cases script with
    | dir entries => cases hdir
    | file content =>
      show (place, mapFiles _ _ (.file content)) = _
      rw [mapFiles, overwrite_append]
      rfl
    | «sealed» reason => rfl
    | special reason => rfl

/-! ## Settled scripts -/

/-- The text of a script is what it is laid out as. -/
def IsSettled (style : Style) (script : FileTree) : Prop :=
  ∃ text, script.relaid? style = some (text, text)

variable {style : Style}

/-- A text that was laid out is settled. -/
theorem isSettled_toUTF8 {script : FileTree} {text new : String}
    (h : script.relaid? style = some (text, new)) : IsSettled style (.file new.toUTF8) := by
  obtain ⟨-, -, -, hnew⟩ := relaid?_eq_some.mp h
  refine ⟨new, relaid?_eq_some.mpr ⟨_, rfl, ?_, reformat_eq_self hnew⟩⟩
  exact dif_pos new.isValidUTF8

/-- A script is settled if it can be read and is not written to any more. -/
theorem isSettled_iff_unchanged {script : FileTree} : IsSettled style script ↔
    script.relaid? style ≠ none ∧ script.change? style = none := by
  constructor
  · rintro ⟨text, hrelaid⟩
    exact ⟨Option.ne_none_iff_exists'.mpr ⟨_, hrelaid⟩, change?_eq_none.mpr (.inr ⟨text, hrelaid⟩)⟩
  · rintro ⟨hread, hunchanged⟩
    exact (change?_eq_none.mp hunchanged).resolve_left hread

/-- The new texts of the scripts that change. -/
def changes (style : Style) (scripts : List (List String × FileTree)) :
    List (List String × String) :=
  scripts.filterMap fun s => (s.2.change? style).map (s.1, ·)

theorem mem_changes {scripts : List (List String × FileTree)} {w : List String × String} :
    w ∈ changes style scripts ↔ ∃ script, (w.1, script) ∈ scripts ∧
      script.change? style = some w.2 := by
  rw [changes, List.mem_filterMap]
  constructor
  · rintro ⟨⟨place, script⟩, hs, h⟩
    obtain ⟨new, hnew, rfl⟩ := Option.map_eq_some_iff.mp h
    exact ⟨script, hs, hnew⟩
  · rintro ⟨script, hs, hnew⟩
    refine ⟨_, hs, ?_⟩
    rw [hnew]
    rfl

/-- A script does not change if nothing is written to its place. -/
theorem change?_eq_none_of_forall_ne {scripts : List (List String × FileTree)}
    {place : List String} {script : FileTree} (hs : (place, script) ∈ scripts)
    (hnone : ∀ w ∈ changes style scripts, w.1 ≠ place) : script.change? style = none :=
  Option.eq_none_iff_forall_ne_some.mpr fun new hchange =>
    hnone (place, new) (mem_changes.mpr ⟨script, hs, hchange⟩) rfl

/-- A script that can be read is settled once the new texts are written. -/
theorem isSettled_rewritten {scripts : List (List String × FileTree)} {s : List String × FileTree}
    (hs : s ∈ scripts) (hread : s.2.relaid? style ≠ none) :
    IsSettled style (rewritten (changes style scripts) s).2 := by
  obtain ⟨place, script⟩ := s
  obtain ⟨_, hrelaid⟩ := Option.ne_none_iff_exists'.mp hread
  obtain ⟨content, rfl, -⟩ := relaid?_eq_some.mp hrelaid
  show IsSettled style (.file (overwrite (changes style scripts) place content))
  obtain ⟨w, hw, -, hcontent⟩ | ⟨hnone, hcontent⟩ :=
    overwrite_cases (changes style scripts) place content
  · -- the text at its place was laid out, whether from this script or another
    obtain ⟨other, -, hchange⟩ := mem_changes.mp hw
    obtain ⟨text', hother, -⟩ := change?_eq_some.mp hchange
    rw [hcontent]
    exact isSettled_toUTF8 hother
  · rw [hcontent]
    exact isSettled_iff_unchanged.mpr ⟨hread, change?_eq_none_of_forall_ne hs hnone⟩

/-! ## Runs -/

variable {console : Console}

theorem formatAt_writes (check diff : Bool) :
    (system.formatAt console home path check diff style).writes =
      if check || diff then [] else changes style (system.scriptsIn home path) :=
  format_writes

theorem formatAt_exit (check diff : Bool) :
    (system.formatAt console home path check diff style).exit = 0 ↔
      system.scriptsIn home path ≠ [] ∧
      (∀ s ∈ system.scriptsIn home path, s.2.relaid? style ≠ none) ∧
      ((check || diff) = true → ∀ s ∈ system.scriptsIn home path, s.2.change? style = none) :=
  format_exit

theorem changes_eq_nil {scripts : List (List String × FileTree)} :
    changes style scripts = [] ↔ ∀ s ∈ scripts, s.2.change? style = none := by
  rw [changes, List.filterMap_eq_nil_iff]
  simp

/-- A run over settled scripts succeeds and writes nothing. -/
theorem formatAt_of_isSettled (hsome : system.scriptsIn home path ≠ [])
    (h : ∀ s ∈ system.scriptsIn home path, IsSettled style s.2) (check diff : Bool) :
    (system.formatAt console home path check diff style).exit = 0 ∧
      (system.formatAt console home path check diff style).writes = [] := by
  have hlaid := fun s hs => isSettled_iff_unchanged.mp (h s hs)
  constructor
  · exact (formatAt_exit check diff).mpr
      ⟨hsome, fun s hs => (hlaid s hs).1, fun _ s hs => (hlaid s hs).2⟩
  · rw [formatAt_writes, changes_eq_nil.mpr fun s hs => (hlaid s hs).2, ite_self]

/-- Saving what a run writes changes a file if it writes anything. -/
theorem saved_eq_self_iff :
    system.saved home path (system.formatAt console home path false false style) = system ↔
      (system.formatAt console home path false false style).writes = [] := by
  refine ⟨fun hsame => ?_, saved_eq_self⟩
  have hwrites : (system.formatAt console home path false false style).writes =
    changes style (system.scriptsIn home path) := formatAt_writes false false
  have hscripts := @scriptsIn_saved system home path
    (system.formatAt console home path false false style)
  rw [hsame, hwrites] at hscripts
  rw [hwrites]
  cases hchanges : changes style (system.scriptsIn home path) with
  | nil => rfl
  | cons w ws =>
    -- the script of the first new text would have to hold that text already
    rw [hchanges] at hscripts
    obtain ⟨script, hs, hchange⟩ := mem_changes.mp (hchanges ▸ List.mem_cons_self)
    obtain ⟨text, hrelaid, hne⟩ := change?_eq_some.mp hchange
    obtain ⟨content, rfl, htext, -⟩ := relaid?_eq_some.mp hrelaid
    have hself : ∀ s ∈ system.scriptsIn home path, id s = rewritten (w :: ws) s :=
      List.map_inj_left.mp ((List.map_id _).trans hscripts)
    have hcontent : content = w.2.toUTF8 := by
      have hfile : FileTree.file content = .file (overwrite (w :: ws) w.1 content) :=
        congrArg Prod.snd (hself _ hs)
      rw [overwrite_cons] at hfile
      exact FileTree.file.inj hfile
    have hutf8 : String.fromUTF8? content = some w.2 := by
      rw [hcontent]
      exact dif_pos w.2.isValidUTF8
    exact absurd (Option.some.inj (htext.symm.trans hutf8)) hne

end FileTree

open FileTree

/-- **Formatting converges.**  After a run that succeeds, further runs of all kinds succeed and
    change no file.  A run that only checks succeeds just if a run that writes would succeed and
    change no file. -/
theorem format_converges (console : Console) (system : FileTree) (home : List String)
    (path : String) (style : Style) :
    let run := fun (t : FileTree) check diff => t.formatAt console home path check diff style
    let after := system.saved home path (run system false false)
    ((run system false false).exit = 0 → ∀ check diff, (run after check diff).exit = 0 ∧
      after.saved home path (run after check diff) = after) ∧
    ∀ diff, (run system true diff).exit = 0 ↔
      (run system false false).exit = 0 ∧ after = system := by
  intro run after
  have hwrites : (run system false false).writes = changes style (system.scriptsIn home path) :=
    formatAt_writes false false
  constructor
  · intro hexit check diff
    obtain ⟨hsome, hread, -⟩ := (formatAt_exit false false).mp hexit
    have hafter : after.scriptsIn home path =
        (system.scriptsIn home path).map
          (rewritten (changes style (system.scriptsIn home path))) := by
      rw [← hwrites]
      exact scriptsIn_saved
    have hsettled : ∀ s ∈ after.scriptsIn home path, IsSettled style s.2 := by
      rw [hafter, List.forall_mem_map]
      exact fun s hs => isSettled_rewritten hs (hread s hs)
    obtain ⟨hexit', hnone⟩ := @formatAt_of_isSettled _ _ _ _ console
      (fun h => hsome (List.map_eq_nil_iff.mp (hafter ▸ h))) hsettled check diff
    exact ⟨hexit', saved_eq_self hnone⟩
  · intro diff
    have hchecked := @formatAt_exit system home path style console true diff
    rw [Bool.true_or] at hchecked
    rw [saved_eq_self_iff, hchecked, formatAt_exit, hwrites, changes_eq_nil]
    constructor
    · rintro ⟨hsome, hread, hnone⟩
      exact ⟨⟨hsome, hread, fun h => Bool.noConfusion h⟩, hnone rfl⟩
    · rintro ⟨⟨hsome, hread, -⟩, hnone⟩
      exact ⟨hsome, hread, fun _ => hnone⟩

/-- A file system with a script that is to be laid out, and one that is passed over. -/
def folder : FileTree :=
  .dir [("src", .dir [("a.js", .file "let a=1".toUTF8),
    ("target", .dir [("b.js", .file "(".toUTF8)])])]

theorem format_converges_folder :
    let run := fun (t : FileTree) check diff => t.formatAt .plain ["src"] "." check diff .standard
    let after := folder.saved ["src"] "." (run folder false false)
    (run folder false false).exit = 0 ∧ ∀ check diff, (run after check diff).exit = 0 ∧
      after.saved ["src"] "." (run after check diff) = after := by
  have hscripts : folder.scriptsIn ["src"] "." = [(["a.js"], .file "let a=1".toUTF8)] := by
    with_unfolding_all exact rfl
  have hread : (FileTree.file "let a=1".toUTF8).relaid? .standard ≠ none := by decide +kernel
  have hexit : (folder.formatAt .plain ["src"] "." false false .standard).exit = 0 := by
    rw [formatAt_exit, hscripts]
    exact ⟨List.cons_ne_nil _ _, List.forall_mem_singleton.mpr hread, fun h => Bool.noConfusion h⟩
  exact ⟨hexit, (format_converges .plain folder ["src"] "." .standard).1 hexit⟩

end CurlyScript
