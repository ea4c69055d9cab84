import CurlyScript.Proofs.Command.Scripts

/-
  What formatting does to each file.

  The new texts of a run are collected for all scripts together, so it is not plain that a file gets
  its own, whatever the others hold.  In a proper tree it does, as no other script has its place
  (`FileTree.overwrite_changes`): a file that is collected with its content holds afterwards what it
  is laid out as (`FileTree.laidOut`), and any other file holds what it held.
-/

namespace CurlyScript

open Command

namespace FileTree

/-- The scripts that formatting at a path goes through, with their places from the top. -/
def collected (system : FileTree) (home : List String) (path : String) :
    List (List String × FileTree) :=
  match system.find home path with
  | .ok p => (system.scriptsIn home path).map fun s => (p.names ++ s.1, s.2)
  | .error _ => []

/-- What the text of a file is laid out as, or the same content if it is no text of a program. -/
def laidOut (style : Style) (content : ByteArray) : ByteArray :=
  match String.fromUTF8? content with
  | some text => match reformat style text with
    | .ok new => new.toUTF8
    | .error _ => content
  | none => content

variable {style : Style} {content : ByteArray} {new text : String}

/-! ## One file -/

theorem laidOut_of_relaid? (h : (file content).relaid? style = some (text, new)) :
    laidOut style content = new.toUTF8 := by
  obtain ⟨_, hsame, htext, hnew⟩ := relaid?_eq_some.mp h
  obtain rfl := FileTree.file.inj hsame
  rw [laidOut, htext]
  dsimp only
  rw [hnew]

/-- A file that cannot be read is laid out as itself. -/
theorem laidOut_of_unread (h : (file content).relaid? style = none) :
    laidOut style content = content := by
  rw [laidOut]
  split
  · rename_i text htext
    split
    · rename_i new hnew
      rw [relaid?_eq_some.mpr ⟨content, rfl, htext, hnew⟩] at h
      cases h
    · rfl
  · rfl

/-- What a text was read from are the bytes of the text. -/
theorem eq_toUTF8_of_fromUTF8? (h : String.fromUTF8? content = some text) :
    content = text.toUTF8 := by
  rw [String.fromUTF8?] at h
  split at h
  · obtain rfl := Option.some.inj h
    rfl
  · cases h

/-- A file that does not change is laid out as itself. -/
theorem laidOut_of_unchanged (h : (file content).change? style = none) :
    laidOut style content = content := by
  rcases change?_eq_none.mp h with hnone | ⟨text, hsame⟩
  · exact laidOut_of_unread hnone
  · obtain ⟨_, heq, htext, -⟩ := relaid?_eq_some.mp hsame
    obtain rfl := FileTree.file.inj heq
    rw [laidOut_of_relaid? hsame, ← eq_toUTF8_of_fromUTF8? htext]

/-! ## All files -/

variable {t system : FileTree} {home : List String} {path : String} {place : List String}
  {scripts : List (List String × FileTree)}

/-- **A file gets its own new content**: that which its text is laid out as if it is one of the
    scripts, else the one that it had. -/
theorem overwrite_changes (hproper : t.IsProper)
    (hscripts : ∀ place content, (place, .file content) ∈ scripts → t.Leads place (.file content))
    (hfile : t.Leads place (.file content)) :
    ((place, .file content) ∈ scripts →
      overwrite (changes style scripts) place content = laidOut style content) ∧
    ((place, .file content) ∉ scripts →
      overwrite (changes style scripts) place content = content) := by
  obtain ⟨w, hw, rfl, hcontent⟩ | ⟨hnone, hcontent⟩ :=
    overwrite_cases (changes style scripts) place content
  · obtain ⟨script, hs, hchange⟩ := mem_changes.mp hw
    obtain ⟨text, hrelaid, -⟩ := change?_eq_some.mp hchange
    obtain ⟨read, rfl, -⟩ := relaid?_eq_some.mp hrelaid
    -- what was read at the place of the file is the file
    obtain rfl : read = content :=
      FileTree.file.inj ((hscripts _ _ hs).unique hproper hfile)
    exact ⟨fun _ => hcontent.trans (laidOut_of_relaid? hrelaid).symm, fun hnot => absurd hs hnot⟩
  · refine ⟨fun hs => hcontent.trans ?_, fun _ => hcontent⟩
    exact (laidOut_of_unchanged (change?_eq_none_of_forall_ne hs hnone)).symm

/-- The new texts of scripts with their places from further up. -/
theorem changes_map (names : List String) :
    changes style (scripts.map fun s => (names ++ s.1, s.2)) =
      (changes style scripts).map fun w => (names ++ w.1, w.2) := by
  rw [changes, changes, List.filterMap_map, List.map_filterMap]
  congr 1
  funext s
  simp [Function.comp_def]

/-- What is collected is seen of something that stands at its place. -/
theorem exists_of_mem_collected {script : FileTree}
    (hs : (place, script) ∈ system.collected home path) :
    ∃ u rest, system.Leads place u ∧ script = u.seenFrom path rest := by
  rw [collected] at hs
  cases hfind : system.find home path with
  | error fault =>
    rw [hfind] at hs
    cases hs
  | ok p =>
    rw [hfind] at hs
    obtain ⟨⟨rest, found⟩, hfound, heq⟩ := List.mem_map.mp hs
    obtain ⟨rfl, rfl⟩ := Prod.mk.inj heq
    rw [scriptsIn_of_find hfind] at hfound
    obtain ⟨u, hu, hseen⟩ := exists_of_mem_scriptsAt hfound
    exact ⟨u, rest, (reached_of_find hfind).leads.append hu, hseen⟩

/-- A file that is collected is collected with its content, unless its path is too long. -/
theorem collected_of_file {script : FileTree} (hsystem : system.IsProper)
    (hfile : system.Leads place (.file content))
    (hs : (place, script) ∈ system.collected home path) :
    script = .file content ∨ script = .sealed PathFault.tooLong.text := by
  obtain ⟨u, rest, hu, rfl⟩ := exists_of_mem_collected hs
  obtain rfl := hu.unique hsystem hfile
  rw [seenFrom_of_not_dir rfl]
  split
  · exact .inl rfl
  · exact .inr rfl

/-- What is collected with a content is a file with that content. -/
theorem leads_of_mem_collected (hs : (place, .file content) ∈ system.collected home path) :
    system.Leads place (.file content) := by
  obtain ⟨u, rest, hu, hseen⟩ := exists_of_mem_collected hs
  obtain ⟨-, -, rfl⟩ | ⟨-, ⟨⟩⟩ := eq_seenFrom_iff.mp ⟨hseen, rfl⟩
  exact hu

/-- The collected scripts are those that are found, whatever their places are told from. -/
theorem map_snd_collected (system : FileTree) (home : List String) (path : String) :
    (system.collected home path).map Prod.snd = (system.scriptsIn home path).map Prod.snd := by
  rw [collected, scriptsIn]
  cases system.find home path with
  | error fault => rfl
  | ok p => simp

/-- What is saved are the new texts of the collected scripts. -/
theorem saved_formatAt (console : Console) (system : FileTree) (home : List String)
    (path : String) (style : Style) :
    system.saved home path (system.formatAt console home path false false style) =
      system.mapFiles (overwrite (changes style (system.collected home path))) [] := by
  have hwrites : (system.formatAt console home path false false style).writes =
    changes style (system.scriptsIn home path) := formatAt_writes false false
  rw [saved, collected]
  cases system.find home path with
  | error fault => exact (mapFiles_eq_self (fun _ _ => rfl) [] system).symm
  | ok p =>
    dsimp only
    rw [hwrites, changes_map]

/-- A file is still a file once the contents of files are replaced. -/
theorem leads_file_mapFiles {f : List String → ByteArray → ByteArray} {new : ByteArray} :
    (t.mapFiles f []).Leads place (.file new) ↔
      ∃ content, t.Leads place (.file content) ∧ new = f place content := by
  rw [leads_mapFiles]
  constructor
  · rintro ⟨u, hu, hnew⟩
    cases u with
    | file content => exact ⟨content, hu, FileTree.file.inj hnew⟩
    | dir entries => cases hnew
    | «sealed» reason => cases hnew
    | special reason => cases hnew
  · rintro ⟨content, hfile, rfl⟩
    exact ⟨_, hfile, rfl⟩

variable {console : Console}

/-- A run that writes gives each file that is collected what it is laid out as. -/
theorem leads_saved_formatAt (hsystem : system.IsProper) {new : ByteArray} :
    (system.saved home path (system.formatAt console home path false false style)).Leads place
        (.file new) ↔
      ∃ content, system.Leads place (.file content) ∧
        (((place, .file content) ∈ system.collected home path ∧ new = laidOut style content) ∨
          ((place, .file content) ∉ system.collected home path ∧ new = content)) := by
  rw [saved_formatAt, leads_file_mapFiles]
  refine exists_congr fun content => and_congr_right fun hfile => ?_
  obtain ⟨hlaid, hleft⟩ := @overwrite_changes style _ system place (system.collected home path)
    hsystem (fun _ _ hs => leads_of_mem_collected hs) hfile
  by_cases hcollected : (place, .file content) ∈ system.collected home path
  · simp [hcollected, hlaid hcollected]
  · simp [hcollected, hleft hcollected]

/-- What is no file with a content stays as it is. -/
theorem leads_unread_saved {u : FileTree} (hdir : u.isDir = false)
    (hfile : ∀ content, u ≠ .file content) :
    (system.saved home path (system.formatAt console home path false false style)).Leads place u ↔
      system.Leads place u := by
  have hself : u.mapFiles (overwrite (changes style (system.collected home path))) place = u := by
    cases u with
    | file content => exact absurd rfl (hfile content)
    | dir entries => cases hdir
    | _ => rfl
  rw [saved_formatAt, leads_mapFiles]
  constructor
  · rintro ⟨v, hv, heq⟩
    cases v with
    | file content => exact absurd heq (hfile _)
    | dir entries =>
      rw [heq] at hdir
      cases hdir
    | _ =>
      rw [mapFiles] at heq
      rwa [heq]
  · exact fun h => ⟨u, h, hself.symm⟩

/-! ## The exit code -/

theorem collected_ne_nil : system.collected home path ≠ [] ↔ system.scriptsIn home path ≠ [] := by
  rw [Ne, Ne, ← List.map_eq_nil_iff (f := Prod.snd), map_snd_collected, List.map_eq_nil_iff]

theorem forall_collected {P : FileTree → Prop} :
    (∀ s ∈ system.collected home path, P s.2) ↔ ∀ s ∈ system.scriptsIn home path, P s.2 := by
  rw [← List.forall_mem_map (P := P), map_snd_collected, List.forall_mem_map]

theorem relaid?_ne_none {script : FileTree} : script.relaid? style ≠ none ↔
    ∃ content text new, script = .file content ∧ String.fromUTF8? content = some text ∧
      reformat style text = .ok new := by
  rw [Option.ne_none_iff_exists']
  constructor
  · rintro ⟨⟨text, new⟩, h⟩
    obtain ⟨content, hfile, htext, hnew⟩ := relaid?_eq_some.mp h
    exact ⟨content, text, new, hfile, htext, hnew⟩
  · rintro ⟨content, text, new, h⟩
    exact ⟨(text, new), relaid?_eq_some.mpr ⟨content, h⟩⟩

theorem isSettled_iff {script : FileTree} : IsSettled style script ↔
    ∃ content text, script = .file content ∧ String.fromUTF8? content = some text ∧
      reformat style text = .ok text := by
  rw [IsSettled, exists_comm]
  simp only [relaid?_eq_some]

/-- A run that writes nothing succeeds if all scripts are settled. -/
theorem formatAt_exit_dry {check diff : Bool} (hdry : (check || diff) = true) :
    (system.formatAt console home path check diff style).exit = 0 ↔
      system.collected home path ≠ [] ∧
        ∀ s ∈ system.collected home path, IsSettled style s.2 := by
  rw [formatAt_exit, collected_ne_nil, forall_collected (P := IsSettled style)]
  refine and_congr_right fun _ => ?_
  rw [forall_prop_of_true hdry]
  simp only [isSettled_iff_unchanged]
  exact forall₂_and.symm

/-- A run that writes succeeds if all scripts can be read. -/
theorem formatAt_exit_writing :
    (system.formatAt console home path false false style).exit = 0 ↔
      system.collected home path ≠ [] ∧
        ∀ s ∈ system.collected home path, s.2.relaid? style ≠ none := by
  rw [formatAt_exit, collected_ne_nil, forall_collected (P := (relaid? style · ≠ none))]
  exact and_congr_right fun _ => and_iff_left fun h => Bool.noConfusion h

end FileTree

open FileTree

/-- **Formatting touches only what it should.**  A run that checks or shows differences changes
    nothing, and it succeeds just if scripts are collected and each is the text of a program that is
    laid out already.  A run that writes gives each file that is collected with its content what
    that is laid out as, and leaves all others as they are, whatever faults there are; and a file is
    collected with its content unless its path is too long.  The run succeeds just if scripts are
    collected and each is the text of a program. -/
theorem format_effect (console : Console) (system : FileTree) (home : List String) (path : String)
    (style : Style) (hsystem : system.IsProper) :
    let run := fun check diff => system.formatAt console home path check diff style
    let after := fun check diff => system.saved home path (run check diff)
    let collected := system.collected home path
    (∀ check diff, (check || diff) = true → after check diff = system ∧
      ((run check diff).exit = 0 ↔ collected ≠ [] ∧ ∀ s ∈ collected, ∃ content text,
        s.2 = .file content ∧ String.fromUTF8? content = some text ∧
          reformat style text = .ok text)) ∧
    (∀ place new, (after false false).Leads place (.file new) ↔
      ∃ content, system.Leads place (.file content) ∧
        (((place, .file content) ∈ collected ∧ new = laidOut style content) ∨
          ((place, .file content) ∉ collected ∧ new = content))) ∧
    (∀ place content script, system.Leads place (.file content) → (place, script) ∈ collected →
      script = .file content ∨ script = .sealed PathFault.tooLong.text) ∧
    (∀ place u, u.isDir = false → (∀ content, u ≠ .file content) →
      ((after false false).Leads place u ↔ system.Leads place u)) ∧
    ((run false false).exit = 0 ↔ collected ≠ [] ∧ ∀ s ∈ collected, ∃ content text new,
      s.2 = .file content ∧ String.fromUTF8? content = some text ∧
        reformat style text = .ok new) := by
  intro run after collected
  refine ⟨fun check diff hdry => ⟨saved_eq_self ?_, ?_⟩, fun place new =>
    leads_saved_formatAt hsystem, fun place content script hfile hs =>
    collected_of_file hsystem hfile hs, fun place u hdir hfile => leads_unread_saved hdir hfile, ?_⟩
  · rw [formatAt_writes, if_pos hdry]
  · simp only [← isSettled_iff]
    exact formatAt_exit_dry hdry
  · simp only [← relaid?_ne_none]
    exact formatAt_exit_writing

/-- A directory with a script that is to be laid out, one that is no program, and a file that is no
    script. -/
def workshop : FileTree :=
  .dir [("shop", .dir [("a.js", .file "let a=1".toUTF8), ("b.js", .file "(".toUTF8),
    ("c.txt", .file "let a=1".toUTF8)])]

theorem format_effect_workshop :
    let run := fun check diff => workshop.formatAt .plain [] "shop" check diff .standard
    let after := fun check diff => workshop.saved [] "shop" (run check diff)
    workshop.IsProper ∧ after true false = workshop ∧ (run false false).exit ≠ 0 ∧
      (after false false).Leads ["shop", "a.js"] (.file "let a = 1;\n".toUTF8) ∧
      (after false false).Leads ["shop", "b.js"] (.file "(".toUTF8) ∧
      (after false false).Leads ["shop", "c.txt"] (.file "let a=1".toUTF8) := by
  have hproper : workshop.IsProper := by simp [workshop]
  have hcollected : workshop.collected [] "shop" =
      [(["shop", "a.js"], .file "let a=1".toUTF8), (["shop", "b.js"], .file "(".toUTF8)] := by
    have hfind : workshop.find [] "shop" = .ok ⟨.dir [("a.js", .file "let a=1".toUTF8),
        ("b.js", .file "(".toUTF8), ("c.txt", .file "let a=1".toUTF8)], [("shop", workshop)]⟩ := by
      with_unfolding_all exact rfl
    have hscripts : workshop.scriptsIn [] "shop" =
        [(["a.js"], .file "let a=1".toUTF8), (["b.js"], .file "(".toUTF8)] := by
      refine scriptsIn_of_pairwise hfind rfl ?_ (by decide +kernel)
      with_unfolding_all exact rfl
    rw [collected, hfind]
    dsimp only
    rw [hscripts]
    rfl
  have hgood : laidOut .standard "let a=1".toUTF8 = "let a = 1;\n".toUTF8 := by decide +kernel
  have hbad : (FileTree.file "(".toUTF8).relaid? .standard = none := by decide +kernel
  have hleads : ∀ name content, (name, FileTree.file content) ∈ [("a.js", .file "let a=1".toUTF8),
      ("b.js", .file "(".toUTF8), ("c.txt", .file "let a=1".toUTF8)] →
      workshop.Leads ["shop", name] (.file content) :=
    fun name content hentry => .down List.mem_cons_self (.down hentry (.here _))
  obtain ⟨hdry, hafter, -, -, hexit⟩ := format_effect .plain workshop [] "shop" .standard hproper
  refine ⟨hproper, (hdry true false rfl).1, fun hzero => ?_, ?_, ?_, ?_⟩
  · have hread := (hexit.mp hzero).2 (["shop", "b.js"], .file "(".toUTF8) (by simp [hcollected])
    exact relaid?_ne_none.mpr hread hbad
  · refine (hafter _ _).mpr ⟨_, hleads "a.js" "let a=1".toUTF8 (by simp), .inl ⟨?_, hgood.symm⟩⟩
    rw [hcollected]
    exact List.mem_cons_self
  · refine (hafter _ _).mpr
      ⟨_, hleads "b.js" "(".toUTF8 (by simp), .inl ⟨?_, (laidOut_of_unread hbad).symm⟩⟩
    rw [hcollected]
    exact List.mem_cons_of_mem _ List.mem_cons_self
  · refine (hafter _ _).mpr ⟨_, hleads "c.txt" "let a=1".toUTF8 (by simp), .inr ⟨?_, rfl⟩⟩
    rw [hcollected]
    simp

end CurlyScript
