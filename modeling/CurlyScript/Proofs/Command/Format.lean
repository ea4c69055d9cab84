import CurlyScript.Command.Run

/-
  What formatting comes to.

  The run goes through the scripts and keeps a TALLY.  What one script adds to it depends only on
  the text of the script and the text that it is laid out as (`FileTree.relaid?`), and there are
  three cases (`Command.formatScript_cases`).  So at any time the tally tells of the scripts so far
  which could not be read, whether one would change, and what was written (`Command.Tally.Tells`).
  The exit code and the new texts can be read off that.
-/

namespace CurlyScript

/-! ## One script -/

namespace FileTree

/-- The text of a script and the text that it is laid out as, if it can be read. -/
def relaid? (style : Style) : FileTree → Option (String × String)
  | .file content =>
    (String.fromUTF8? content).bind fun text => (reformat style text).toOption.map (text, ·)
  | _ => none

/-- The text that a script is laid out as if that is another. -/
def change? (style : Style) (script : FileTree) : Option String :=
  match script.relaid? style with
  | some (text, new) => if text = new then none else some new
  | none => none

variable {style : Style} {script : FileTree} {text new : String}

/-- It is read off the text, if there is one. -/
theorem relaid?_eq_bind (style : Style) (script : FileTree) : script.relaid? style =
    script.text.toOption.bind fun text => (reformat style text).toOption.map (text, ·) := by
  cases script with
  | file content =>
    rw [relaid?, FileTree.text]
    cases String.fromUTF8? content <;> rfl
  | _ => rfl

theorem relaid?_eq_some : script.relaid? style = some (text, new) ↔
    ∃ content, script = .file content ∧ String.fromUTF8? content = some text ∧
      reformat style text = .ok new := by
  constructor
  · intro h
    cases script with
    | dir entries => cases h
    | «sealed» reason => cases h
    | special reason => cases h
    | file content =>
      obtain ⟨text', htext, h⟩ := Option.bind_eq_some_iff.mp h
      obtain ⟨new', hnew, h⟩ := Option.map_eq_some_iff.mp h
      cases h
      refine ⟨content, rfl, htext, ?_⟩
      cases hr : reformat style text with
      | error e =>
        rw [hr] at hnew
        cases hnew
      | ok out =>
        rw [hr] at hnew
        exact congrArg Except.ok (Option.some.inj hnew)
  · rintro ⟨content, rfl, htext, hnew⟩
    rw [relaid?, htext, Option.bind_some, hnew]
    rfl

/-- A script changes if its text is not what it is laid out as. -/
theorem change?_eq_some : script.change? style = some new ↔
    ∃ text, script.relaid? style = some (text, new) ∧ text ≠ new := by
  rw [change?]
  cases script.relaid? style with
  | none => simp
  | some pair =>
    obtain ⟨text, out⟩ := pair
    by_cases hsame : text = out
    · simp [hsame]
    · constructor
      · intro h
        obtain rfl : out = new := Option.some.inj ((if_neg hsame).symm.trans h)
        exact ⟨text, rfl, hsame⟩
      · rintro ⟨_, ⟨⟩, -⟩
        exact if_neg hsame

/-- A script does not change if it cannot be read, or if its text is what it is laid out as. -/
theorem change?_eq_none : script.change? style = none ↔
    script.relaid? style = none ∨ ∃ text, script.relaid? style = some (text, text) := by
  rw [change?]
  cases script.relaid? style with
  | none => simp
  | some pair =>
    obtain ⟨text, out⟩ := pair
    by_cases hsame : text = out
    · simp [hsame]
    · simp [hsame, Ne.symm hsame]

end FileTree

namespace Command

open FileTree

variable (console : Console)

/-- **What one script adds to the tally.**  One that cannot be read counts as a fault, one that is
    laid out already adds nothing, and of any other it is noted that it would change, or its new
    text is written. -/
theorem formatScript_cases (check diff : Bool) (style : Style) (t : Tally) (path : String)
    (place : List String) (script : FileTree) :
    (script.relaid? style = none ∧
      ∃ s, formatScript console check diff style t path place script = t.fault s) ∨
    (∃ text, script.relaid? style = some (text, text) ∧
      formatScript console check diff style t path place script = t) ∨
    (∃ text new said, script.relaid? style = some (text, new) ∧ text ≠ new ∧
      formatScript console check diff style t path place script =
        if check || diff then { t with stdout := said, stale := true }
        else { t with stdout := said, writes := (place, new) :: t.writes }) := by
  rw [formatScript, relaid?_eq_bind]
  cases script.text with
  | error reason => exact .inl ⟨rfl, _, rfl⟩
  | ok text =>
    rw [Except.toOption, Option.bind_some]
    dsimp only
    cases reformat style text with
    | error e => exact .inl ⟨rfl, _, rfl⟩
    | ok new =>
      refine .inr ?_
      by_cases hsame : text = new
      · subst hsame
        have hdiff : diff? text text = none := if_pos rfl
        refine .inl ⟨text, rfl, ?_⟩
        simp only [hdiff]
      · obtain ⟨changes, hdiff⟩ : ∃ changes, diff? text new = some changes := ⟨_, if_neg hsame⟩
        refine .inr ⟨text, new, ?_⟩
        simp only [hdiff]
        cases check <;> cases diff <;> exact ⟨_, rfl, hsame, rfl⟩

/-! ## Many scripts -/

variable {console : Console} {check diff : Bool} {style : Style}

/-- What a tally tells of scripts with their places: which could not be read, whether one would
    change, and their new texts unless nothing is to be written. -/
structure Tally.Tells (t : Tally) (dry : Bool) (style : Style)
    (scripts : List (List String × FileTree)) : Prop where
  faults : t.faults = scripts.countP fun s => (s.2.relaid? style).isNone
  stale : t.stale = (dry && scripts.any fun s => (s.2.change? style).isSome)
  writes : t.writes.reverse =
    if dry then [] else scripts.filterMap fun s => (s.2.change? style).map (s.1, ·)

theorem Tally.tells_empty (dry : Bool) : Tally.empty.Tells dry style [] :=
  ⟨rfl, (Bool.and_false dry).symm, by cases dry <;> rfl⟩

/-- The tally tells of one more script. -/
theorem tells_formatScript {t : Tally} {scripts : List (List String × FileTree)}
    (h : t.Tells (check || diff) style scripts) (path : String) (s : List String × FileTree) :
    (formatScript console check diff style t path s.1 s.2).Tells (check || diff) style
      (scripts ++ [s]) := by
  obtain ⟨place, script⟩ := s
  obtain ⟨hread, said, ht⟩ | ⟨text, hread, ht⟩ | ⟨text, new, said, hread, hne, ht⟩ :=
    formatScript_cases console check diff style t path place script
  · have hchange := change?_eq_none.mpr (.inl hread)
    rw [ht]
    constructor
    · simp [Tally.fault, h.faults, hread]
    · simp [Tally.fault, h.stale, hchange]
    · simp [Tally.fault, h.writes, hchange]
  · have hchange := change?_eq_none.mpr (.inr ⟨text, hread⟩)
    rw [ht]
    constructor
    · simp [h.faults, hread]
    · simp [h.stale, hchange]
    · simp [h.writes, hchange]
  · have hchange := change?_eq_some.mpr ⟨text, hread, hne⟩
    have hstale := h.stale
    have hwrites := h.writes
    rw [ht]
    cases hdry : check || diff with
    | true =>
      rw [hdry] at hwrites
      constructor
      · simp [h.faults, hread]
      · simp [hchange]
      · simp at hwrites
        simp [hwrites]
    | false =>
      rw [hdry] at hstale hwrites
      constructor
      · simp [h.faults, hread]
      · simp at hstale
        simp [hstale]
      · simp at hwrites
        simp [hwrites, hchange]

/-- **What a run over scripts tells.** -/
theorem tells_foldl (console : Console) {t : Tally} {done : List (List String × FileTree)}
    (h : t.Tells (check || diff) style done) (path : String)
    (scripts : List (List String × FileTree)) :
    (scripts.foldl
      (fun t s => formatScript console check diff style t (joinPath path s.1) s.1 s.2) t).Tells
      (check || diff) style (done ++ scripts) := by
  induction scripts generalizing t done with
  | nil =>
    rw [List.append_nil]
    exact h
  | cons s scripts ih =>
    rw [List.foldl_cons, List.append_cons]
    exact ih (tells_formatScript h (joinPath path s.1) s)

/-! ## The outcome -/

/-- The scripts that formatting goes through. -/
def scriptsOf (path : String) (found : Except PathFault FileTree) : List (List String × FileTree) :=
  match found with
  | .ok t => t.scriptsAt path
  | .error _ => []

variable {path : String} {found : Except PathFault FileTree}

/-- Formatting fails if there are no scripts, else its outcome is that of a tally of all of them. -/
theorem format_eq (console : Console) (check diff : Bool) (style : Style) (path : String)
    (found : Except PathFault FileTree) :
    (scriptsOf path found = [] ∧
      format console path check diff style found = .failed "No .js files found") ∨
    (scriptsOf path found ≠ [] ∧ ∃ t : Tally, t.Tells (check || diff) style (scriptsOf path found) ∧
      format console path check diff style found =
        t.outcome check diff (scriptsOf path found).length) := by
  by_cases hnone : scriptsOf path found = []
  · refine .inl ⟨hnone, ?_⟩
    exact if_pos (List.isEmpty_iff.mpr hnone)
  · refine .inr ⟨hnone, _, tells_foldl console (Tally.tells_empty (check || diff)) path _, ?_⟩
    exact if_neg (mt List.isEmpty_iff.mp hnone)

/-- **What is written** are the new texts of the scripts that change, unless the run is dry. -/
theorem format_writes : (format console path check diff style found).writes =
    if check || diff then []
    else (scriptsOf path found).filterMap fun s => (s.2.change? style).map (s.1, ·) := by
  obtain ⟨hnone, hout⟩ | ⟨-, t, htells, hout⟩ := format_eq console check diff style path found
  · rw [hout, hnone]
    cases check || diff <;> rfl
  · rw [hout, ← htells.writes, Tally.outcome]
    split
    · rename_i hstale
      rw [Bool.and_eq_true] at hstale
      have hwrites := htells.writes
      rw [hstale.1] at hwrites
      exact hwrites.symm
    · rfl

/-- **When formatting succeeds**: there are scripts, all of them can be read, and if the run is dry
    none would change. -/
theorem format_exit : (format console path check diff style found).exit = 0 ↔
    scriptsOf path found ≠ [] ∧ (∀ s ∈ scriptsOf path found, s.2.relaid? style ≠ none) ∧
      ((check || diff) = true → ∀ s ∈ scriptsOf path found, s.2.change? style = none) := by
  obtain ⟨hnone, hout⟩ | ⟨hsome, t, htells, hout⟩ := format_eq console check diff style path found
  · rw [hout]
    exact ⟨fun h => absurd h Nat.one_ne_zero, fun h => absurd hnone h.1⟩
  · have hread : t.faults = 0 ↔ ∀ s ∈ scriptsOf path found, s.2.relaid? style ≠ none := by
      rw [htells.faults, List.countP_eq_zero]
      simp
    have hstale : ((check || diff) && t.stale) = true ↔
        (check || diff) = true ∧ ¬ ∀ s ∈ scriptsOf path found, s.2.change? style = none := by
      rw [htells.stale]
      cases check || diff
      · simp
      · simp [← Option.ne_none_iff_isSome]
    have hexit : (t.outcome check diff (scriptsOf path found).length).exit =
        if ((check || diff) && t.stale) = true then 1 else if t.faults > 0 then 1 else 0 := by
      rw [Tally.outcome]
      split <;> rfl
    rw [hout, hexit, ← hread]
    by_cases hfail : ((check || diff) && t.stale) = true
    · obtain ⟨hdry, hnot⟩ := hstale.mp hfail
      rw [if_pos hfail]
      exact ⟨fun h => absurd h Nat.one_ne_zero, fun h => absurd (h.2.2 hdry) hnot⟩
    · have hlaid : (check || diff) = true → ∀ s ∈ scriptsOf path found, s.2.change? style = none :=
        fun hdry => Classical.not_not.mp fun hnot => hfail (hstale.mpr ⟨hdry, hnot⟩)
      rw [if_neg hfail]
      constructor
      · intro h
        refine ⟨hsome, ?_, hlaid⟩
        by_cases hfaults : t.faults > 0
        · exact absurd ((if_pos hfaults).symm.trans h) Nat.one_ne_zero
        · exact Nat.eq_zero_of_not_pos hfaults
      · rintro ⟨-, hfaults, -⟩
        exact if_neg (hfaults ▸ Nat.lt_irrefl 0)

end Command

end CurlyScript
