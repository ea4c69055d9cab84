import CurlyScript.Grammar.Program
import CurlyScript.Layout.Flat

/-
  Reports: an error with its code, the place it points at, and perhaps some advice.

  How a report looks is a matter of the CONSOLE that shows it, and so is the line that the log gets
  about a file that could not be read.  At its usual level the log tells of nothing else.  What a
  command does depends on neither.
-/

namespace CurlyScript

/-- A place that a report points at. -/
structure Label where
  /-- Where the place begins. -/
  offset : Nat
  /-- How many bytes it covers. -/
  length : Nat
  /-- What is to be said of it. -/
  text : String
deriving DecidableEq, Repr

/-- An error as it is shown. -/
structure Report where
  /-- The kind of error. -/
  code : String
  /-- What is wrong. -/
  message : String
  /-- The places that matter. -/
  labels : List Label
  /-- What can be done. -/
  help : Option String
deriving DecidableEq, Repr

/-- A label as a line. -/
def Label.line (l : Label) : String := s!"  label {l.offset}+{l.length}: {l.text}\n"

/-- A report as lines.  This is one way to show it; see `Console`. -/
def Report.text (r : Report) : String :=
  s!"{r.code}: {r.message}\n" ++ String.join (r.labels.map Label.line) ++
    match r.help with
    | some help => s!"  help: {help}\n"
    | none => ""

/-- What puts into words what a command has to tell besides its results. -/
structure Console where
  /-- A report on a source text, shown as the file of that name. -/
  report : (file text : String) → Report → String
  /-- What the log says of a file that is skipped, and for what reason.  It may say another thing
      each time, as it tells the time; `count` many faults were there before. -/
  skipped : (count : Nat) → (file reason : String) → String

/-- The console that shows reports as lines, and no log. -/
def Console.plain : Console := ⟨fun _ _ r => r.text, fun _ _ _ => ""⟩

/-- The report of a lexical error. -/
def LexicalError.report (e : LexicalError) : Report :=
  ⟨"brace::lex", e.message, [⟨e.offset, 0, "no token starts here"⟩], none⟩

/-- The report of a syntax error. -/
def SyntaxError.report (e : SyntaxError) : Report :=
  ⟨"brace::syntax", e.message, [⟨e.offset, 0, "expected " ++ e.expected.text⟩], none⟩

/-- The report of an error of reading. -/
def ReadError.report : ReadError → Report
  | lexical e => e.report
  | syntactic e => e.report

/-- The report of a node that has no flat text. -/
def Unsupported.report (u : Unsupported) : Report :=
  ⟨"brace::codegen", u.message, [],
   some "use `brace fmt` to print programs that use every construct"⟩

end CurlyScript
