import CurlyScript.Grammar.Program
import CurlyScript.Layout.Diff
import CurlyScript.Layout.Tree

/-
  Laying out a text anew.

  Comments are kept where a statement can begin; of the old layout nothing is looked at.
-/

namespace CurlyScript

/-- A text laid out in the given style, or why it is no program. -/
def reformat (st : Style) (source : String) : Except ReadError String :=
  (Program.ofSource source true).map (Program.format st)

/-- Whether a text is laid out in the given style already. -/
def isLaidOut (st : Style) (source : String) : Except ReadError Bool :=
  (reformat st source).map (source == ·)

/-- What laying a text out changes, if anything. -/
def changes? (st : Style) (source : String) : Except ReadError (Option String) :=
  (reformat st source).map (diff? source)

end CurlyScript
