import CurlyScript.Command.Arguments
import CurlyScript.Command.Files
import CurlyScript.Dump
import CurlyScript.Layout.Diff
import CurlyScript.Layout.Source
import CurlyScript.Report
import CurlyScript.Source.Position
import CurlyScript.Text.Json

/-
  Runs: what the command says and writes.

  A run looks at ONE place of a file system, the one that its path leads to.  So it is a function
  of the invocation and of what stands there, and its outcome holds the files to be written.  How
  reports and the log are worded is left to a console.
-/

namespace CurlyScript

/-- What a run leaves behind. -/
structure Outcome where
  /-- The text on the standard output. -/
  stdout : String
  /-- The text on the standard error output. -/
  stderr : String
  /-- The exit code. -/
  exit : Nat
  /-- The new texts of files, each with the names on the way to it from the place looked at. -/
  writes : List (List String × String)
deriving DecidableEq, Repr

namespace Outcome

/-- A run that only says something. -/
def said (stdout : String) : Outcome := ⟨stdout, "", 0, []⟩

/-- A run that fails with a message. -/
def failed (message : String) : Outcome := ⟨"", message ++ "\n", 1, []⟩

end Outcome

/-- The path that an invocation looks at. -/
def Invocation.path? : Invocation → Option String
  | tokens file | tree file | scopes file | lint file _ _ | generate file => some file
  | format path _ _ _ => some path
  | version | help | nothing => none

namespace Command

/-! ## One source file -/

/-- The most bytes that a source file may have. -/
def maxSize : Nat := 10 * 1024 * 1024

/-- The text of a source file, or why there is none. -/
def source (file : String) : Except PathFault FileTree → Except String String
  | .error fault => .error s!"Cannot access file '{file}': {fault.text}"
  | .ok t =>
    if t.size > maxSize then
      .error s!"Source file '{file}' is too large ({t.size} bytes, max {maxSize} bytes)"
    else match t.text with
      | .ok text => .ok text
      | .error reason => .error s!"Error reading file '{file}': {reason}"

variable (console : Console)

/-- A report as the last thing that is said. -/
def closing (file text : String) (r : Report) : String :=
  Text.trimEnd (console.report file text r)

/-- The program of a source text without its comments, or the report of why there is none. -/
def program (file text : String) : Except String Program :=
  match Program.ofSource text false with
  | .ok p => .ok p
  | .error e => .error (closing console file text e.report)

/-- The tokens of a source text, one a line. -/
def tokenLines (file text : String) : Except String String :=
  match scan text true with
  | .ok ts => .ok (String.join (ts.map fun t => t.dump.line ++ "\n"))
  | .error e => .error (closing console file text e.report)

/-- The scopes, the symbols and what is wrong with them, one a line. -/
def scopeLines (text : String) (r : Resolution) : String :=
  let at_ := fun offset => (Position.ofOffset text offset).text
  let scopes := r.table.scopes.toList.map fun s => match s.parent with
    | some p => s!"  {s.id.text} (in {p.text})\n"
    | none => s!"  {s.id.text}\n"
  let symbols := r.table.symbols.toList.map fun s =>
    s!"  {s.kind.name} {s.name} in {s.scope.text} at {at_ s.offset}, {s.references} reference(s)\n"
  let undefined := r.undefined.toList.map fun u => s!"undefined {u.name} at {at_ u.offset}\n"
  let unused := r.unused.toList.map fun u =>
    s!"unused {u.kind.name} {u.name} in {u.scope.text} at {at_ u.offset}\n"
  let redeclared := r.redeclarations.toList.map fun d =>
    s!"redeclared {d.name} in {d.scope.text} at {at_ d.offset} (first at {at_ d.firstOffset})\n"
  String.join ("scopes:\n" :: scopes ++ "symbols:\n" :: symbols ++ undefined ++ unused ++ redeclared)

/-- A finding as an object of a JSON text, without the comma after it. -/
def findingObject (text : String) (f : Finding) : String :=
  let p := Position.ofOffset text f.offset
  "  \x7b\n" ++ s!"    \"column\": {p.column},\n    \"line\": {p.line},\n    \"message\": " ++
    Text.jsonString f.message ++
    s!",\n    \"offset\": {f.offset},\n    \"rule\": \"{f.rule.name}\"\n" ++ "  \x7d"

/-- Findings as a JSON text. -/
def findingsJson (text : String) (fs : List Finding) : String :=
  if fs.isEmpty then "[]\n"
  else "[\n" ++ ",\n".intercalate (fs.map (findingObject text)) ++ "\n]\n"

/-- Findings as lines, or one line that says that there are none. -/
def findingLines (file text : String) (fs : List Finding) : String :=
  if fs.isEmpty then "✓ No problems found\n"
  else String.join (fs.map fun f => locate file text f.offset f.message ++ "\n")

/-- What linting a source text comes to.  It fails if there is a finding. -/
def lint (file text : String) (policy : Policy) (json : Bool) : Except String Outcome := do
  let fs := (← program console file text).lint policy
  let shown := if json then findingsJson text fs else findingLines file text fs
  .ok ⟨shown, "", if fs.isEmpty then 0 else 1, []⟩

/-- What a command on one source text comes to, or the message that it fails with. -/
def onText (text : String) : Invocation → Except String Outcome
  | .tokens file => return .said (← tokenLines console file text)
  | .tree file => return .said ((← program console file text).dump.block ++ "\n")
  | .scopes file => return .said (scopeLines text (← program console file text).resolve)
  | .lint file policy json => lint console file text policy json
  | .generate file => do
    match (← program console file text).generate with
    | .ok code => .ok (.said (code ++ "\n"))
    | .error u => .error s!"{file}: {u.message}"
  | _ => .ok (.said "")

/-! ## Many scripts -/

/-- What has come of the scripts so far. -/
structure Tally where
  /-- The text on the standard output. -/
  stdout : String
  /-- The text on the standard error output. -/
  stderr : String
  /-- Whether a script was found that would change. -/
  stale : Bool
  /-- How many scripts could not be read. -/
  faults : Nat
  /-- The new texts, last one first. -/
  writes : List (List String × String)

namespace Tally

/-- Before the first script. -/
def empty : Tally := ⟨"", "", false, 0, []⟩

/-- Says something. -/
def say (t : Tally) (s : String) : Tally := { t with stdout := t.stdout ++ s }

/-- Notes a script that could not be read, and says why. -/
def fault (t : Tally) (s : String) : Tally :=
  { t with stderr := t.stderr ++ s, faults := t.faults + 1 }

end Tally

/-- Lays out one script, shown as `path`, or says what would change. -/
def formatScript (check diff : Bool) (style : Style) (t : Tally) (path : String)
    (place : List String) (script : FileTree) : Tally :=
  match script.text with
  | .error reason => t.fault (console.skipped t.faults path reason)
  | .ok text => match reformat style text with
    | .error e => t.fault (console.report path text e.report ++ "\n")
    | .ok new => match diff? text new with
      | none => t
      | some changes =>
        let t := if diff then t.say (s!"--- {path}\n" ++ changes ++ "\n") else t
        let t := if check then t.say s!"Would reformat: {path}\n" else t
        if check || diff then { t with stale := true }
        else { t.say s!"Formatted: {path}\n" with writes := (place, new) :: t.writes }

/-- What has come of all scripts, `count` of them, in the end. -/
def Tally.outcome (t : Tally) (check diff : Bool) (count : Nat) : Outcome :=
  if (check || diff) && t.stale then
    let what := if diff then "need formatting" else "would be reformatted"
    ⟨t.stdout, t.stderr ++ s!"\n{count} file(s) {what}\n", 1, []⟩
  else
    let last :=
      if check || diff then s!"✓ {count} file(s) already formatted\n"
      else s!"\n✓ {t.writes.length} file(s) formatted, {t.faults} error(s)\n"
    ⟨t.stdout ++ last, t.stderr, if t.faults > 0 then 1 else 0, t.writes.reverse⟩

/-- Lays out the scripts at a path. -/
def format (path : String) (check diff : Bool) (style : Style)
    (found : Except PathFault FileTree) : Outcome :=
  let scripts := match found with
    | .ok t => t.scriptsAt path
    | .error _ => []
  if scripts.isEmpty then .failed "No .js files found"
  else
    let t := scripts.foldl (fun t s =>
      formatScript console check diff style t (FileTree.joinPath path s.1) s.1 s.2) .empty
    t.outcome check diff scripts.length

end Command

/-- How the command is used. -/
def Command.usage : String :=
  "usage: brace [FILE | fmt [PATH] | lint FILE | gen FILE] [OPTIONS]\n"

/-- What an invocation comes to if `found` stands at its path, shown on a console. -/
def Invocation.runOn (console : Console) (inv : Invocation) (found : Except PathFault FileTree) :
    Outcome :=
  match inv with
  | version => .said "brace 0.1.0\n"
  | help => .said Command.usage
  | nothing => ⟨"", "", 1, []⟩
  | format path check diff style => Command.format console path check diff style found
  | inv => match Command.source (inv.path?.getD "") found with
    | .error message => .failed message
    | .ok text => match Command.onText console text inv with
      | .error message => .failed message
      | .ok outcome => outcome

/-- What an invocation comes to on the plain console. -/
def Invocation.run (inv : Invocation) (found : Except PathFault FileTree) : Outcome :=
  inv.runOn .plain found

end CurlyScript
