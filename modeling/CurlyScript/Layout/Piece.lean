/-
  Pieces: text with its line ends and its depth set apart.

  A layout is a list of pieces, and `render` alone turns it into characters.  It indents a line
  when the first character of the line comes, so a line on which nothing stands is empty, and a
  line that begins inside a piece of text is left as it is.
-/

namespace CurlyScript

/-- A part of a layout. -/
inductive Piece where
  /-- Characters that stand as they are. -/
  | text (s : String)
  /-- The end of a line. -/
  | newline
  /-- One level deeper from here on. -/
  | enter
  /-- One level less deep from here on. -/
  | leave
deriving DecidableEq, Repr

/-- A text that grows, and what the next piece has to know of it. -/
structure Sheet where
  /-- The characters so far. -/
  written : String
  /-- How many levels deep the next line is. -/
  depth : Nat
  /-- Whether nothing stands on the line yet. -/
  fresh : Bool
deriving DecidableEq, Repr

namespace Sheet

/-- A sheet with nothing on it. -/
def blank : Sheet := ⟨"", 0, true⟩

/-- The spaces that the next text needs before it. -/
def margin (sh : Sheet) (width : Nat) : String :=
  if sh.fresh then String.ofList (List.replicate (sh.depth * width) ' ') else ""

/-- Adds one piece.  Empty text leaves no trace. -/
def put (width : Nat) (sh : Sheet) : Piece → Sheet
  | .text s =>
    if s.isEmpty then sh else ⟨sh.written ++ sh.margin width ++ s, sh.depth, false⟩
  | .newline => ⟨sh.written.push '\n', sh.depth, true⟩
  | .enter => ⟨sh.written, sh.depth + 1, sh.fresh⟩
  | .leave => ⟨sh.written, sh.depth - 1, sh.fresh⟩

end Sheet

/-- The characters of a layout whose levels are `width` spaces apart. -/
def render (width : Nat) (ps : List Piece) : String :=
  (ps.foldl (Sheet.put width) .blank).written

namespace Piece

/-- The layout of some lines between braces. -/
def braces (lines : List Piece) : List Piece :=
  text "\x7b" :: newline :: enter :: lines ++ [leave, text "\x7d"]

/-- A layout in parentheses if `group` is set. -/
def grouped (group : Bool) (ps : List Piece) : List Piece :=
  if group then text "(" :: ps ++ [text ")"] else ps

/-- Items on one line. -/
def inline (comma : String) (items : List (List Piece)) : List Piece :=
  List.intercalate [text comma] items

/-- Items on lines of their own. -/
def stacked (items : List (List Piece)) : List Piece :=
  newline :: enter :: List.intercalate [text ",", newline] items ++ [newline, leave]

end Piece

end CurlyScript
