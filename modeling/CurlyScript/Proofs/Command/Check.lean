import CurlyScript.Proofs.Command.Converge

/-
  What a check says.

  A check writes nothing.  It goes through ALL the scripts that are found, lists those that would
  change, and closes with one line in which it gives a number.  That number is how many scripts were
  found, whatever became of them.  So it is the number of those listed only if all are, and where
  nothing is listed the scripts are laid out already only if each of them could be read
  (`check_summary`).  How a console words the faults has no part in any of this.
-/

namespace CurlyScript

open FileTree

namespace Command

/-! ## One script -/

/-- What a check says of a script that would change: how, if that is asked for, and that it
    would. -/
def listing (diff : Bool) (style : Style) (path : String) (script : FileTree) : String :=
  (if diff then
    let changes := (script.relaid? style).bind fun r => diff? r.1 r.2
    s!"--- {path}\n" ++ changes.getD "" ++ "\n"
  else "") ++ s!"Would reformat: {path}\n"

/-- What a console says of a script that cannot be laid out, `faults` many before it. -/
def complaint (console : Console) (style : Style) (faults : Nat) (path : String)
    (script : FileTree) : String :=
  match script.text with
  | .error reason => console.skipped faults path reason
  | .ok text => match reformat style text with
    | .error e => console.report path text e.report ++ "\n"
    | .ok _ => ""

variable {console : Console} {diff : Bool} {style : Style}

/-- **What a check says of one script**, and whether it is a fault. -/
theorem formatScript_check (t : Tally) (path : String) (place : List String) (script : FileTree) :
    let after := formatScript console true diff style t path place script
    after.stdout = t.stdout ++
        (if (script.change? style).isSome then listing diff style path script else "") ∧
      after.stderr = t.stderr ++ complaint console style t.faults path script ∧
      after.faults = t.faults + if (script.relaid? style).isNone then 1 else 0 := by
  dsimp only
  rw [formatScript, FileTree.change?, listing, FileTree.relaid?_eq_bind, complaint]
  cases script.text with
  | error reason => exact ⟨String.append_empty.symm, rfl, rfl⟩
  | ok text =>
    rw [Except.toOption, Option.bind_some]
    dsimp only
    cases reformat style text with
    | error e => exact ⟨String.append_empty.symm, rfl, rfl⟩
    | ok new =>
      by_cases hsame : text = new
      · subst hsame
        have hdiff : diff? text text = none := if_pos rfl
        simp [hdiff, Except.toOption]
      · obtain ⟨changes, hdiff⟩ : ∃ changes, diff? text new = some changes := ⟨_, if_neg hsame⟩
        cases diff <;> simp [hdiff, Except.toOption, hsame, Tally.say, String.append_assoc]

/-! ## All of them -/

/-- The scripts that would change. -/
def stale (style : Style) (scripts : List (List String × FileTree)) :
    List (List String × FileTree) :=
  scripts.filter fun s => (s.2.change? style).isSome

/-- What a check says of the scripts that would change. -/
def listings (diff : Bool) (style : Style) (path : String)
    (scripts : List (List String × FileTree)) : String :=
  String.join ((stale style scripts).map fun s => listing diff style (joinPath path s.1) s.2)

/-- What a console says of the scripts that cannot be laid out. -/
def complaints (console : Console) (style : Style) (path : String) :
    (faults : Nat) → List (List String × FileTree) → String
  | _, [] => ""
  | faults, s :: scripts =>
    complaint console style faults (joinPath path s.1) s.2 ++
      complaints console style path
        (faults + if (s.2.relaid? style).isNone then 1 else 0) scripts

/-- What a check says of scripts one after the other. -/
theorem foldl_check (t : Tally) (path : String) (scripts : List (List String × FileTree)) :
    let run := scripts.foldl
      (fun t s => formatScript console true diff style t (joinPath path s.1) s.1 s.2) t
    run.stdout = t.stdout ++ listings diff style path scripts ∧
      run.stderr = t.stderr ++ complaints console style path t.faults scripts := by
  induction scripts generalizing t with
  | nil => exact ⟨String.append_empty.symm, String.append_empty.symm⟩
  | cons s scripts ih =>
    obtain ⟨hout, herr, hfaults⟩ :=
      @formatScript_check console diff style t (joinPath path s.1) s.1 s.2
    obtain ⟨hout', herr'⟩ :=
      ih (formatScript console true diff style t (joinPath path s.1) s.1 s.2)
    rw [List.foldl_cons]
    refine ⟨hout'.trans ?_, herr'.trans ?_⟩
    · rw [hout, String.append_assoc, listings, listings, stale, stale, List.filter_cons]
      split <;> simp
    · rw [herr, hfaults, String.append_assoc, complaints]

/-! ## The last line -/

/-- The line that closes a check in which scripts were listed. -/
def outdated (diff : Bool) (count : Nat) : String :=
  let what := if diff then "need formatting" else "would be reformatted"
  s!"\n{count} file(s) {what}\n"

/-- The line that closes a check in which no script was listed. -/
def upToDate (count : Nat) : String := s!"✓ {count} file(s) already formatted\n"

theorem stale_eq_nil {scripts : List (List String × FileTree)} :
    stale style scripts = [] ↔ ∀ s ∈ scripts, s.2.change? style = none := by
  rw [stale, List.filter_eq_nil_iff]
  simp

/-- A script is noted as one that would change just if there is one. -/
theorem Tally.Tells.stale_eq_false {t : Tally} {scripts : List (List String × FileTree)}
    (h : t.Tells true style scripts) : t.stale = false ↔ Command.stale style scripts = [] := by
  rw [h.stale, Bool.true_and, List.any_eq_false, stale_eq_nil]
  simp

/-- What a tally of scripts comes to in a check. -/
theorem Tally.outcome_check {t : Tally} {scripts : List (List String × FileTree)}
    (h : t.Tells true style scripts) (count : Nat) :
    (Command.stale style scripts ≠ [] → (t.outcome true diff count).stdout = t.stdout ∧
      (t.outcome true diff count).stderr = t.stderr ++ outdated diff count) ∧
    (Command.stale style scripts = [] →
      (t.outcome true diff count).stdout = t.stdout ++ upToDate count ∧
      (t.outcome true diff count).stderr = t.stderr) := by
  rw [Tally.outcome, Bool.true_or, Bool.true_and, ne_eq, ← h.stale_eq_false]
  cases t.stale with
  | true => exact ⟨fun _ => ⟨rfl, rfl⟩, fun hnone => Bool.noConfusion hnone⟩
  | false => exact ⟨fun hsome => absurd rfl hsome, fun _ => ⟨rfl, rfl⟩⟩

/-- The scripts that would change are as many as there are just if all would. -/
theorem length_stale_eq {scripts : List (List String × FileTree)} :
    (stale style scripts).length = scripts.length ↔
      ∀ s ∈ scripts, s.2.change? style ≠ none := by
  rw [stale, List.length_filter_eq_length_iff]
  simp [Option.isSome_iff_ne_none]

/-- **What a check of scripts says.** -/
theorem formatAt_check {system : FileTree} {home : List String} {path : String}
    {scripts : List (List String × FileTree)} (hscripts : system.scriptsIn home path = scripts)
    (hsome : scripts ≠ []) :
    let out := system.formatAt console home path true diff style
    (stale style scripts ≠ [] → out.stdout = listings diff style path scripts ∧
      out.stderr = complaints console style path 0 scripts ++ outdated diff scripts.length) ∧
    (stale style scripts = [] → out.stdout = upToDate scripts.length ∧
      out.stderr = complaints console style path 0 scripts) := by
  intro out
  subst hscripts
  have htells := tells_foldl console (@Tally.tells_empty style (true || diff)) path
    (system.scriptsIn home path)
  obtain ⟨hout, herr⟩ := @foldl_check console diff style .empty path (system.scriptsIn home path)
  obtain ⟨hdirty, hclean⟩ := @Tally.outcome_check diff style _ _ htells
    (system.scriptsIn home path).length
  have hformat : out = _ := if_neg (mt List.isEmpty_iff.mp hsome)
  rw [hformat]
  constructor
  · intro hstale
    obtain ⟨hout', herr'⟩ := hdirty hstale
    refine ⟨(hout'.trans hout).trans String.empty_append, herr'.trans ?_⟩
    rw [herr]
    exact congrArg (· ++ _) String.empty_append
  · intro hstale
    obtain ⟨hout', herr'⟩ := hclean hstale
    refine ⟨hout'.trans ?_, (herr'.trans herr).trans String.empty_append⟩
    rw [hout, listings, hstale]
    exact String.empty_append

end Command

open Command

/-- **What a check says.**  It lists the scripts that would change, and the number in its last line
    is that of ALL scripts.  So where some are listed that is their number just if all would change,
    and where none is listed the scripts are laid out already just if the check succeeds. -/
theorem check_summary (console : Console) (system : FileTree) (home : List String) (path : String)
    (diff : Bool) (style : Style) :
    let scripts := system.scriptsIn home path
    let out := system.formatAt console home path true diff style
    scripts ≠ [] →
    (stale style scripts ≠ [] →
      out.stdout = listings diff style path scripts ∧
      out.stderr = complaints console style path 0 scripts ++ outdated diff scripts.length ∧
      ((stale style scripts).length = scripts.length ↔
        ∀ s ∈ scripts, s.2.change? style ≠ none)) ∧
    (stale style scripts = [] →
      out.stdout = upToDate scripts.length ∧
      out.stderr = complaints console style path 0 scripts ∧
      (out.exit = 0 ↔ ∀ s ∈ scripts, IsSettled style s.2)) := by
  intro scripts out hsome
  obtain ⟨hdirty, hclean⟩ := @formatAt_check console diff style _ _ _ _ rfl hsome
  constructor
  · intro hstale
    obtain ⟨hout, herr⟩ := hdirty hstale
    exact ⟨hout, herr, length_stale_eq⟩
  · intro hstale
    obtain ⟨hout, herr⟩ := hclean hstale
    refine ⟨hout, herr, (formatAt_exit true diff).trans ?_⟩
    have hnone := stale_eq_nil.mp hstale
    constructor
    · rintro ⟨-, hread, -⟩ s hs
      exact (change?_eq_none.mp (hnone s hs)).resolve_left (hread s hs)
    · intro hsettled
      refine ⟨hsome, fun s hs hunread => ?_, fun _ => hnone⟩
      obtain ⟨text, hrelaid⟩ := hsettled s hs
      rw [hunread] at hrelaid
      cases hrelaid

/-- A folder with a script that is to be laid out, and one that is laid out already. -/
def halfDone : FileTree := .dir [("a.js", .file "a".toUTF8), ("b.js", .file "".toUTF8)]

/-- A folder with a script that is no program. -/
def unreadable : FileTree := .dir [("a.js", .file "(".toUTF8)]

theorem scriptsIn_halfDone : halfDone.scriptsIn [] "." =
    [(["a.js"], .file "a".toUTF8), (["b.js"], .file "".toUTF8)] := by
  have hfind : halfDone.find [] "." = .ok (.top halfDone) := by with_unfolding_all exact rfl
  refine scriptsIn_of_pairwise hfind rfl ?_ (by decide +kernel)
  with_unfolding_all exact rfl

theorem scriptsIn_unreadable : unreadable.scriptsIn [] "." = [(["a.js"], .file "(".toUTF8)] := by
  with_unfolding_all exact rfl

theorem check_summary_halfDone :
    let out := halfDone.formatAt .plain [] "." true false .standard
    halfDone.scriptsIn [] "." ≠ [] ∧ stale .standard (halfDone.scriptsIn [] ".") ≠ [] ∧
      out.stdout = listings false .standard "." (halfDone.scriptsIn [] ".") := by
  have hscripts : halfDone.scriptsIn [] "." ≠ [] := by
    rw [scriptsIn_halfDone]
    exact List.cons_ne_nil _ _
  have hstale : stale .standard (halfDone.scriptsIn [] ".") ≠ [] := by
    rw [scriptsIn_halfDone]
    decide +kernel
  have hsummary := check_summary .plain halfDone [] "." false .standard hscripts
  exact ⟨hscripts, hstale, (hsummary.1 hstale).1⟩

/-- One script is listed and two are counted, and a script that is no program is said to be laid
    out already. -/
theorem check_miscounts :
    let out := halfDone.formatAt .plain [] "." true false .standard
    out.stdout = "Would reformat: ./a.js\n" ∧
    out.stderr = "\n2 file(s) would be reformatted\n" ∧
    (stale .standard (halfDone.scriptsIn [] ".")).length = 1 ∧
    (unreadable.formatAt .plain [] "." true false .standard).stdout =
      "✓ 1 file(s) already formatted\n" ∧
    ∃ s ∈ unreadable.scriptsIn [] ".", s.2.relaid? .standard = none := by
  obtain ⟨hout, herr⟩ := (@formatAt_check .plain false .standard _ _ _ _ scriptsIn_halfDone
    (List.cons_ne_nil _ _)).1 (by decide +kernel)
  obtain ⟨hout', -⟩ := (@formatAt_check .plain false .standard _ _ _ _ scriptsIn_unreadable
    (List.cons_ne_nil _ _)).2 (by decide +kernel)
  rw [scriptsIn_halfDone, scriptsIn_unreadable]
  refine ⟨hout.trans ?_, herr.trans ?_, ?_, hout'.trans ?_, _, List.mem_singleton_self _, ?_⟩ <;>
    decide +kernel

end CurlyScript
